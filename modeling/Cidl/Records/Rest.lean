import Cidl.Model.Write
import Cidl.Records.Traced

/-!
# What a traced copy leaves of its source pages

`ts_memcpy_traced` deletes the records of its source by moving the cursor of the
first source page back to where the copying begins.  This drops all records
behind that slot in its block, also those behind the range, and a block that
was the newest one counts as full when an older one becomes the current one.

A slot is valid if the scans of a write look at it (`ValidSlot`).  By the
numbers `m`, `c`, `lo` and `hi` of the copied page (`RestOk`),
`tsMemcpyTraced_leavesRest_iff` says when no valid record outside the range is
lost and no slot becomes valid.
-/

namespace Cidl

open SearchTree Shape

namespace RecTree

variable {L : Libc} {T T' V : RecTree} {ofa : ℤ → Option ℕ} {p page : ℕ}

/-- The slot `i` of the block `e` holds a record of the node `p`. -/
def ValidSlot (T : RecTree) (p e i : ℕ) : Prop := e ∈ T.blocks p ∧ i < scanLimit T p e

/-- The nodes of the source pages are still there; the records on them that do not
lie from `src` up to `src+n` are still valid, and no slot of theirs has become
valid. -/
structure LeavesRest (T T' : RecTree) (src n : ℕ) : Prop where
  kept : ∀ page ∈ pagesFrom (addr2PageNum src) (addr2PageNum (src + n)), ∀ p ∈ T.findNode page,
    ∀ e i, T.ValidSlot p e i →
      getAddr page (T.slot (T.recBlockEntries e).recArr i).pageOffset < src ∨
        src + n ≤ getAddr page (T.slot (T.recBlockEntries e).recArr i).pageOffset →
      T'.findNode page = some p ∧ T'.ValidSlot p e i ∧
        T'.slot (T'.recBlockEntries e).recArr i = T.slot (T.recBlockEntries e).recArr i
  fresh : ∀ page ∈ pagesFrom (addr2PageNum src) (addr2PageNum (src + n)), ∀ p ∈ T.findNode page,
    ∀ e i, T'.ValidSlot p e i → T.ValidSlot p e i

/-! ## Valid slots by number -/

/-- How many slots of the `k`-th oldest block of a node are valid, when its
current block is the one numbered `cur` and has `idx` records. -/
def limitAt (cur idx k : ℕ) : ℕ := if k = cur then idx else memRecPerEntry

theorem oldestFirst_getD {k : ℕ} (hk : k < (V.oldestFirst p).length) :
    (V.oldestFirst p).getD k 0 = (V.oldestFirst p)[k] := by
  rw [List.getD_eq_getElem?_getD, List.getElem?_eq_getElem hk, Option.getD_some]

theorem validSlot_iff (hnd : (V.blocks p).Nodup) {cur : ℕ} (hcur : cur < (V.oldestFirst p).length)
    (hmod : (V.recTreeNodes p).recModEntry = (V.oldestFirst p).getD cur 0) {k i : ℕ}
    (hk : k < (V.oldestFirst p).length) : V.ValidSlot p ((V.oldestFirst p).getD k 0) i ↔
      i < limitAt cur (V.recTreeNodes p).memRecIdx.toNat k := by
  have hnd' : (V.oldestFirst p).Nodup := List.nodup_reverse.2 hnd
  have heq : (V.oldestFirst p).getD cur 0 = (V.oldestFirst p).getD k 0 ↔ k = cur := by
    rw [oldestFirst_getD hcur, oldestFirst_getD hk, hnd'.getElem_inj_iff]
    exact eq_comm
  simp only [ValidSlot, getD_mem_blocks hk, true_and, scanLimit, limitAt, hmod, heq]

/-- A statement about all valid slots, block by block. -/
theorem forall_validSlot_iff (hnd : (V.blocks p).Nodup) {cur : ℕ}
    (hcur : cur < (V.oldestFirst p).length)
    (hmod : (V.recTreeNodes p).recModEntry = (V.oldestFirst p).getD cur 0) {Q : ℕ → ℕ → Prop} :
    (∀ e i, V.ValidSlot p e i → Q e i) ↔ ∀ k < (V.oldestFirst p).length,
      ∀ i < limitAt cur (V.recTreeNodes p).memRecIdx.toNat k, Q ((V.oldestFirst p).getD k 0) i := by
  constructor
  · intro h k hk i hi
    exact h _ i ((validSlot_iff hnd hcur hmod hk).2 hi)
  · intro h e i hvalid
    obtain ⟨k, hk, rfl⟩ := List.getElem_of_mem (List.mem_reverse.2 hvalid.1)
    have hk : k < (V.oldestFirst p).length := hk
    rw [show (V.blocks p).reverse[k] = (V.oldestFirst p)[k] from rfl, ← oldestFirst_getD hk]
      at hvalid ⊢
    exact h k hk i ((validSlot_iff hnd hcur hmod hk).1 hvalid)

theorem modEntry_eq (h : NodeInv T p) :
    (T.recTreeNodes p).recModEntry = (T.oldestFirst p).getD ((T.blocks p).length - 1) 0 := by
  obtain ⟨older, hb⟩ := h.blocks_eq
  rw [oldestFirst, show T.blocks p = _ from hb]
  simp

/-! ## By numbers only -/

/-- When nothing else is lost or becomes valid: nothing is copied from the page; or
the copying begins in the newest block, and the range has no end on the page; or
it begins in an older block, behind the end of which the range goes on, and the
newest block is full. -/
def RestOk (m c lo hi : ℕ) : Prop :=
  ¬ Begins m c lo ∨
  (firstBlock c lo = m ∧ hi = memRecPerEntry * m + c) ∨
  (firstBlock c lo < m ∧ c = memRecPerEntry ∧ memRecPerEntry * (firstBlock c lo + 1) ≤ hi)

instance (m c lo hi : ℕ) : Decidable (RestOk m c lo hi) := inferInstanceAs (Decidable (_ ∨ _ ∨ _))

theorem restOk_iff {m c lo hi : ℕ} (hc : c ≤ memRecPerEntry) (hb : Begins m c lo)
    (hhi : hi ≤ memRecPerEntry * m + c) :
    (∀ k < m + 1, ∀ i < limitAt m c k,
        memRecPerEntry * k + i < lo ∨ hi ≤ memRecPerEntry * k + i →
          i < limitAt (firstBlock c lo) (firstSlot c lo) k) ∧
      (∀ k < m + 1, ∀ i < limitAt (firstBlock c lo) (firstSlot c lo) k, i < limitAt m c k) ↔
    RestOk m c lo hi := by
  obtain ⟨k₀, hk₀⟩ : ∃ k, firstBlock c lo = k := ⟨_, rfl⟩
  obtain ⟨i₀, hi₀⟩ : ∃ i, firstSlot c lo = i := ⟨_, rfl⟩
  obtain ⟨hpos, hlo⟩ := id hb
  have hfirst : lo < memRecPerEntry * k₀ + c ∧ i₀ = lo - memRecPerEntry * k₀ ∧ k₀ ≤ m := by
    simp only [firstSlot, firstBlock, memRecPerEntry] at *
    omega
  simp only [RestOk, hb, not_true, false_or, hk₀, hi₀]
  clear hk₀ hi₀ hb
  obtain ⟨hbefore, hslot, hkm⟩ := hfirst
  simp only [memRecPerEntry] at *
  constructor
  · rintro ⟨hkept, hfresh⟩
    rcases Nat.lt_or_eq_of_le hkm with hkm | rfl
    · -- the slots behind the last record of the newest block, and the last slot of the cut one
      have hnewest := hfresh m (by omega) c
      have hlast := hkept k₀ (by omega) 37
      simp only [limitAt, memRecPerEntry, if_neg (Nat.ne_of_gt hkm), if_neg (Nat.ne_of_lt hkm),
        if_true] at *
      omega
    · have hlast := hkept k₀ (by omega) (c - 1)
      simp only [limitAt, memRecPerEntry, if_true] at hlast
      omega
  · rintro h
    constructor
    · intro k hk i hi hout
      simp only [limitAt, memRecPerEntry] at *
      split at hi <;> split <;> omega
    · intro k hk i hi
      simp only [limitAt, memRecPerEntry] at *
      split at hi <;> split <;> omega

/-! ## The cut -/

/-- On the first page the numbers are those of its node, and it is cut. -/
theorem leavesRest_cutFirst {src n : ℕ} (h : NodeInv T p) (hnd : (T.blocks p).Nodup)
    (hw : (page + 1) * pageSize ≤ wordSize) : (∀ e i, T.ValidSlot p e i →
      getAddr page (T.slot (T.recBlockEntries e).recArr i).pageOffset < src ∨
        src + n ≤ getAddr page (T.slot (T.recBlockEntries e).recArr i).pageOffset →
          (T.cutFirst p (T.below p page src)).ValidSlot p e i) ∧
      (∀ e i, (T.cutFirst p (T.below p page src)).ValidSlot p e i → T.ValidSlot p e i) ↔
    RestOk ((T.blocks p).length - 1) (T.recTreeNodes p).memRecIdx.toNat (T.below p page src)
      (T.below p page (src + n)) := by
  have hlen := length_oldestFirst h
  have hc := Int.toNat_le.2 h.idx_le
  have hhi := below_le h page (src + n)
  have hnewest : (T.blocks p).length - 1 < (T.oldestFirst p).length := by omega
  have haddr : ∀ k i, k < (T.oldestFirst p).length →
      i < limitAt ((T.blocks p).length - 1) (T.recTreeNodes p).memRecIdx.toNat k → ∀ bound,
        (getAddr page (T.slot (T.recBlockEntries ((T.oldestFirst p).getD k 0)).recArr i).pageOffset
          < bound ↔ memRecPerEntry * k + i < T.below p page bound) := by
    intro k i hk hi bound
    have hi' : i < memRecPerEntry ∧ memRecPerEntry * k + i < T.recCount p := by
      simp only [limitAt, recCount, memRecPerEntry] at *
      split at hi <;> omega
    rw [← recAt_eq k hi'.1, addr_lt_iff h hw bound hi'.2]
  by_cases hb : Begins ((T.blocks p).length - 1) (T.recTreeNodes p).memRecIdx.toNat
      (T.below p page src)
  · have hk₀ : firstBlock (T.recTreeNodes p).memRecIdx.toNat (T.below p page src) <
        (T.oldestFirst p).length := by
      obtain ⟨hpos, hlo⟩ := hb
      simp only [firstBlock, memRecPerEntry] at *
      omega
    rw [show T.cutFirst p _ = _ from if_pos hb, ← restOk_iff hc hb hhi, ← hlen]
    generalize firstBlock (T.recTreeNodes p).memRecIdx.toNat (T.below p page src) = k₀ at *
    generalize firstSlot (T.recTreeNodes p).memRecIdx.toNat (T.below p page src) = i₀ at *
    set V := T.setCursor p ((T.oldestFirst p).getD k₀ 0) i₀ with hV
    have hblocks : V.blocks p = T.blocks p := blocks_setCursor ..
    have holdest : V.oldestFirst p = T.oldestFirst p := by rw [oldestFirst, hblocks, ← oldestFirst]
    have hmod : (V.recTreeNodes p).recModEntry = (V.oldestFirst p).getD k₀ 0 := by
      rw [hV, setCursor_node, ← hV, holdest]
    have hidx : (V.recTreeNodes p).memRecIdx.toNat = i₀ := by
      rw [hV, setCursor_node, Int.toNat_natCast]
    have hvalid : ∀ k < (T.oldestFirst p).length, ∀ i,
        V.ValidSlot p ((T.oldestFirst p).getD k 0) i ↔ i < limitAt k₀ i₀ k := by
      intro k hk i
      have hiff := validSlot_iff (i := i) (hblocks ▸ hnd) (holdest ▸ hk₀) hmod (holdest ▸ hk)
      rwa [holdest, hidx] at hiff
    refine and_congr ?_ ?_
    · rw [forall_validSlot_iff hnd hnewest (modEntry_eq h)]
      refine forall₂_congr fun k hk => forall₂_congr fun i hi => ?_
      rw [haddr k i hk hi, ← Nat.not_lt, haddr k i hk hi, Nat.not_lt, hvalid k hk]
    · rw [forall_validSlot_iff (hblocks ▸ hnd) (holdest ▸ hk₀) hmod, holdest, hidx]
      refine forall₂_congr fun k hk => forall₂_congr fun i hi => ?_
      exact validSlot_iff hnd hnewest (modEntry_eq h) hk
  · rw [show T.cutFirst p _ = _ from if_neg hb]
    exact iff_of_true ⟨fun e i hvalid _ => hvalid, fun e i hvalid => hvalid⟩ (Or.inl hb)

/-! ## The whole call -/

/-- The node of the first page is such that nothing else is lost or becomes valid:
`m` is the number of its older blocks, `c` the fill of the newest one. -/
def RestStays (T : RecTree) (src n : ℕ) : Prop :=
  ∀ p ∈ T.findNode (addr2PageNum src),
    RestOk ((T.blocks p).length - 1) (T.recTreeNodes p).memRecIdx.toNat
      (T.below p (addr2PageNum src) src) (T.below p (addr2PageNum src) (src + n))

instance (T : RecTree) (src n : ℕ) : Decidable (T.RestStays src n) :=
  inferInstanceAs (Decidable (∀ p ∈ T.findNode (addr2PageNum src), RestOk _ _ _ _))

theorem SameNode.validSlot_iff (hsame : SameNode T T' p) {e i : ℕ} :
    T'.ValidSlot p e i ↔ T.ValidSlot p e i := by
  rw [ValidSlot, ValidSlot, hsame.blocks, scanLimit, scanLimit, hsame.node]

/-- No slot is written by the cut, and no array changes its block. -/
theorem slot_cutSource (src e : ℕ) (i : ℤ) :
    ((T.cutSource src).recBlockEntries e).recArr = (T.recBlockEntries e).recArr ∧
      (T.cutSource src).slot (T.recBlockEntries e).recArr i =
        T.slot (T.recBlockEntries e).recArr i := by
  unfold cutSource cutFirst
  split
  · exact ⟨rfl, rfl⟩
  · dsimp only
    split
    · exact ⟨congrFun (congrArg Shape.recArr (shape_setCursor ..)) e, rfl⟩
    · exact ⟨rfl, rfl⟩

/-- The source pages after the call are those of the tree that has been cut. -/
theorem apart_tsMemcpyTraced {dest src n fuel : ℕ} (hrep : Rep L T)
    (hsrc : SourceApart T dest src n) (hfuel : ∀ p ∈ T.nodes, (T.blocks p).length ≤ fuel)
    (h : tsMemcpyTraced L (steadyInsert L ofa) fuel dest src n T = some T') :
    Apart L (pagesFrom (addr2PageNum src) (addr2PageNum (src + n))) (T.cutSource src) T' := by
  rw [tsMemcpyTraced_eq hrep hsrc hfuel] at h
  refine runAll_invariant (fun c hc U V hU hV => ?_) (apart_cutSource _ hrep src).1 h
  obtain ⟨page, hpage, hc⟩ := List.mem_flatMap.1 hc
  exact apart_steadyInsert hU (hsrc.apart page hpage c hc) hV

/-- Whether the rest stays can be seen at the tree that has been cut. -/
theorem leavesRest_iff_cut {src n : ℕ} (hrep : Rep L T)
    (ha : Apart L (pagesFrom (addr2PageNum src) (addr2PageNum (src + n))) (T.cutSource src) T') :
    LeavesRest T T' src n ↔
      ∀ page ∈ pagesFrom (addr2PageNum src) (addr2PageNum (src + n)), ∀ p ∈ T.findNode page,
        (∀ e i, T.ValidSlot p e i →
          getAddr page (T.slot (T.recBlockEntries e).recArr i).pageOffset < src ∨
            src + n ≤ getAddr page (T.slot (T.recBlockEntries e).recArr i).pageOffset →
              (T.cutSource src).ValidSlot p e i) ∧
          ∀ e i, (T.cutSource src).ValidSlot p e i → T.ValidSlot p e i := by
  have hfind := (apart_cutSource [] hrep src).2.1
  have hsame : ∀ page ∈ pagesFrom (addr2PageNum src) (addr2PageNum (src + n)),
      ∀ p ∈ T.findNode page, SameNode (T.cutSource src) T' p :=
    fun page hpage p hp => ha.same page hpage p ((hfind page).trans hp)
  constructor
  · rintro ⟨hkept, hfresh⟩ page hpage p hp
    have hvalid := fun e i => (hsame page hpage p hp).validSlot_iff (e := e) (i := i)
    exact ⟨fun e i hv hout => (hvalid e i).1 (hkept page hpage p hp e i hv hout).2.1,
      fun e i hv => hfresh page hpage p hp e i ((hvalid e i).2 hv)⟩
  · intro h
    refine ⟨fun page hpage p hp e i hv hout => ?_, fun page hpage p hp e i hv => ?_⟩
    · have hcut := (h page hpage p hp).1 e i hv hout
      have hsame := hsame page hpage p hp
      obtain ⟨harr, hslot⟩ := slot_cutSource (T := T) src e i
      have hlimit : (i : ℤ) < memRecPerEntry := by
        have hle := (hrep.node p (mem_nodes_of_findNode hp)).idx_le
        have hi := hv.2
        rw [scanLimit] at hi
        split at hi <;> omega
      refine ⟨(ha.find page hpage).trans ((hfind page).trans hp), hsame.validSlot_iff.2 hcut, ?_⟩
      rw [hsame.entries e hcut.1, hsame.slots e hcut.1 i (Int.natCast_nonneg i) hlimit, harr, hslot]
    · exact (h page hpage p hp).2 e i ((hsame page hpage p hp).validSlot_iff.1 hv)

/-- A copy of traced memory during which no garbage is reclaimed leaves the other
records of its source pages valid, and makes no slot of theirs valid, exactly
when `RestStays` holds. -/
theorem tsMemcpyTraced_leavesRest_iff {dest src n fuel : ℕ} (hrep : Rep L T)
    (hsrc : SourceApart T dest src n) (hfuel : ∀ p ∈ T.nodes, (T.blocks p).length ≤ fuel)
    (h : tsMemcpyTraced L (steadyInsert L ofa) fuel dest src n T = some T') :
    tsMemcpyTraced L (insertRec L ofa) fuel dest src n T = some T' ∧
      (LeavesRest T T' src n ↔ RestStays T src n) := by
  refine ⟨tsMemcpyTraced_mono (fun c U V hU => (steadyInsert_eq_some hU).2) h, ?_⟩
  have hfirst : addr2PageNum src ∈ pagesFrom (addr2PageNum src) (addr2PageNum (src + n)) :=
    mem_pagesFrom.2 ⟨Nat.le_refl _, Nat.div_le_div_right (Nat.le_add_right _ _)⟩
  have hcut : ∀ p ∈ T.findNode (addr2PageNum src),
      T.cutSource src = T.cutFirst p (T.below p (addr2PageNum src) src) := by
    intro p hp
    rw [cutSource, hp]
  have hpage : ∀ p ∈ T.findNode (addr2PageNum src), NodeInv T p ∧ (T.blocks p).Nodup :=
    fun p hp => ⟨hrep.node p (mem_nodes_of_findNode hp),
      hrep.owned.nodup_blocks (mem_nodes_of_findNode hp)⟩
  rw [leavesRest_iff_cut hrep (apart_tsMemcpyTraced hrep hsrc hfuel h)]
  constructor
  · intro hall p hp
    obtain ⟨hinv, hnd⟩ := hpage p hp
    refine (leavesRest_cutFirst hinv hnd (page_fits hsrc.noWrap hfirst)).1 ?_
    rw [← hcut p hp]
    exact hall _ hfirst p hp
  · intro hstays page hmem p hp
    by_cases hne : page = addr2PageNum src
    · subst hne
      obtain ⟨hinv, hnd⟩ := hpage p hp
      rw [hcut p hp]
      exact (leavesRest_cutFirst hinv hnd (page_fits hsrc.noWrap hfirst)).2 (hstays p hp)
    · have hvalid := fun e i =>
        ((apart_cutSource [] hrep src).2.2 page hne p hp).validSlot_iff (e := e) (i := i)
      exact ⟨fun e i hv _ => (hvalid e i).2 hv, fun e i hv => (hvalid e i).1 hv⟩

end RecTree

/-- Copying from the first record of a second block to the end of the page. -/
theorem tsMemcpyTraced_leavesRest_iff_secondBlock : ∃ s T', plainRun (onePage 40) = some s ∧
    s.tree.RestStays 0x500130 100 ∧
    s.tree.tsMemcpyTraced plainLibc (RecTree.insertRec plainLibc s.maps.openFileArray) 64
      0x900000 0x500130 100 = some T' ∧ RecTree.LeavesRest s.tree T' 0x500130 100 := by
  have hrun : (plainRun (onePage 40)).any fun s => decide ((∀ p ∈ s.tree.nodes,
        RecTree.NodeInv s.tree p ∧ (s.tree.blocks p).length ≤ 64) ∧
      s.tree.SourceApart 0x900000 0x500130 100 ∧ s.tree.RestStays 0x500130 100) &&
      (s.tree.tsMemcpyTraced plainLibc (RecTree.steadyInsert plainLibc s.maps.openFileArray) 64
        0x900000 0x500130 100).isSome := by
    decide +kernel
  obtain ⟨s, hs, hall⟩ := (Option.any_eq_true _ _).1 hrun
  obtain ⟨hstate, hsome⟩ := Bool.and_eq_true_iff.1 hall
  obtain ⟨hnodes, hsrc, hok⟩ := of_decide_eq_true hstate
  obtain ⟨T', hT'⟩ := Option.isSome_iff_exists.1 hsome
  have hrep := rep_of_check hs fun p hp => (hnodes p hp).1
  obtain ⟨hstep, hiff⟩ :=
    RecTree.tsMemcpyTraced_leavesRest_iff hrep hsrc (fun p hp => (hnodes p hp).2) hT'
  exact ⟨s, T', hs, hok, hstep, hiff.2 hok⟩

/-- Copying the first two of three records: the third one, which lies just
behind the range, is no longer valid. -/
theorem tsMemcpyTraced_dropsNext : ∃ s T', plainRun (onePage 3) = some s ∧
    RecTree.Rep plainLibc s.tree ∧ s.tree.SourceApart 0x900000 0x500000 16 ∧
    s.tree.tsMemcpyTraced plainLibc (RecTree.steadyInsert plainLibc s.maps.openFileArray) 64
      0x900000 0x500000 16 = some T' ∧
    ¬ RecTree.LeavesRest s.tree T' 0x500000 16 := by
  have hrun : (plainRun (onePage 3)).any fun s => decide ((∀ p ∈ s.tree.nodes,
        RecTree.NodeInv s.tree p) ∧ s.tree.SourceApart 0x900000 0x500000 16) &&
      (s.tree.tsMemcpyTraced plainLibc (RecTree.steadyInsert plainLibc s.maps.openFileArray) 64
        0x900000 0x500000 16).any fun T' =>
          decide (∃ p ∈ s.tree.findNode 0x500, ∃ e ∈ s.tree.blocks p,
            2 < scanLimit s.tree p e ∧ 0x500010 ≤
              getAddr 0x500 (s.tree.slot (s.tree.recBlockEntries e).recArr 2).pageOffset ∧
            ¬ 2 < scanLimit T' p e) := by
    decide +kernel
  obtain ⟨s, hs, hall⟩ := (Option.any_eq_true _ _).1 hrun
  obtain ⟨hstate, hafter⟩ := Bool.and_eq_true_iff.1 hall
  obtain ⟨hnodes, hsrc⟩ := of_decide_eq_true hstate
  obtain ⟨T', hT', hlost⟩ := (Option.any_eq_true _ _).1 hafter
  obtain ⟨p, hp, e, he, hvalid, hbehind, hlost⟩ := of_decide_eq_true hlost
  refine ⟨s, T', hs, rep_of_check hs hnodes, hsrc, hT', fun hleaves => hlost ?_⟩
  exact (hleaves.kept 0x500 (by decide) p hp e 2 ⟨he, hvalid⟩ (Or.inr hbehind)).2.1.2

end Cidl
