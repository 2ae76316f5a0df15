import Cidl.Records.Refinement
import Cidl.Writes.Accesses

/-!
# The slots that the copying loops read

`ts_memcpy_traced` takes its limits from the node and reads below them.  While its
records go to other pages and no garbage is reclaimed, the node stays as it is, so
that these slots are valid (`copyPageAccesses_inside`).  Only the search on the page
of `src` begins at the slot before the limit, also when the limit is zero
(`pos_of_inside`).  `ts_realloc` reads the slot at the limit, which is never valid.

`accesses_inside_iff` puts this together with what the write scanners read.
-/

namespace Cidl

open SearchTree Shape

namespace RecTree

variable {L : Libc} {T T' U : RecTree} {ofa : ℤ → Option ℕ} {p page : ℕ}
  {insert : InsertCall → RecTree → Option RecTree}

/-! ## Limits -/

theorem scanLimit_eq (node e : ℕ) : (scanLimit T node e : ℤ) =
    if (T.recTreeNodes node).recModEntry = e then max (T.recTreeNodes node).memRecIdx 0
    else memRecPerEntry := by
  unfold scanLimit
  split
  · exact Int.toNat_eq_max _
  · rfl

/-- The limit taken from the node is not above the number of records of any of
its blocks. -/
theorem idx_le_scanLimit {node e : ℕ} (hidx : (T.recTreeNodes node).memRecIdx ≤ memRecPerEntry) :
    (T.recTreeNodes node).memRecIdx ≤ scanLimit T node e := by
  rw [scanLimit_eq]
  split <;> omega

/-! ## Reads below the limit -/

theorem copyAccesses_inside {dest src start node e valid idx : ℕ} {uplimit : ℤ}
    (hle : uplimit ≤ memRecPerEntry) (hvalid : uplimit ≤ valid) :
    ∀ a ∈ copyAccesses insert dest src start node e valid idx uplimit T, a.Inside := by
  refine runLog_invariant (P := fun _ => True) (fun _ _ _ _ _ _ => trivial)
    (fun i hi U _ a ha => ?_) trivial
  have hi := List.mem_range'_1.1 hi
  rw [List.mem_singleton] at ha
  subst ha
  refine ⟨Int.natCast_nonneg i, ?_, ?_⟩ <;> dsimp only <;> omega

theorem findBlock_mem {uplimit offset : ℤ} {e : ℕ}
    (h : T.findBlock uplimit offset (T.tailheads (T.recTreeNodes p).listHead).reverse = some e) :
    e ∈ T.blocks p := by
  rw [findBlock_eq] at h
  exact List.mem_reverse.1 (List.mem_of_find?_eq_some h)

/-- The search for the block reads the slot before the limit. -/
theorem findBlockAccesses_inside {node : ℕ} {offset : ℤ} {blocks : List ℕ}
    (hpos : 0 < (T.recTreeNodes node).memRecIdx)
    (hidx : (T.recTreeNodes node).memRecIdx ≤ memRecPerEntry) :
    ∀ a ∈ findBlockAccesses T node (T.recTreeNodes node).memRecIdx offset blocks, a.Inside := by
  induction blocks with
  | nil => exact fun a ha => absurd ha List.not_mem_nil
  | cons e rest ih =>
    intro a ha
    rcases List.mem_cons.1 ha with rfl | ha
    · have := idx_le_scanLimit (e := e) hidx
      refine ⟨?_, ?_, ?_⟩ <;> dsimp only <;> omega
    · split at ha
      · cases ha
      · exact ih a ha

theorem findSlotReads_lt {arr : ℕ} {offset : ℤ} {i n j : ℕ}
    (hj : j ∈ findSlotReads T arr offset i n) : j < i + n := by
  induction n generalizing i with
  | zero => cases hj
  | succ n ih =>
    rcases List.mem_cons.1 hj with rfl | hj
    · omega
    · split at hj
      · cases hj
      · have := ih hj
        omega

theorem findSlot_lt {arr idx : ℕ} {uplimit offset : ℤ}
    (h : T.findSlot arr uplimit offset = some idx) : (idx : ℤ) < uplimit := by
  have := List.mem_range.1 (List.mem_of_find?_eq_some h)
  omega

/-! ## The first read -/

/-- The newest block of the node of the first source page is not empty. -/
def FirstFilled (T : RecTree) (src n : ℕ) : Prop :=
  addr2PageNum src ≤ addr2PageNum (wadd src n) →
    ∀ p ∈ T.findNode (addr2PageNum src), (T.recTreeNodes p).memRecIdx ≠ 0

instance (T : RecTree) (src n : ℕ) : Decidable (T.FirstFilled src n) :=
  inferInstanceAs (Decidable (_ → ∀ p ∈ T.findNode (addr2PageNum src), _))

theorem copyPageAccesses_of_node {fuel dest src start : ℕ} (hp : T.findNode start = some p) :
    copyPageAccesses L insert fuel dest src start T =
      if start = addr2PageNum src then copyFirstPageAccesses L insert fuel dest src start p T
      else copyNextPageAccesses L insert fuel dest src start p T := by
  rw [copyPageAccesses, hp]

theorem mem_copyPageAccesses {fuel dest src start : ℕ} {a : Access}
    (ha : a ∈ copyPageAccesses L insert fuel dest src start T) : ∃ p, T.findNode start = some p ∧
      a ∈ if start = addr2PageNum src then copyFirstPageAccesses L insert fuel dest src start p T
        else copyNextPageAccesses L insert fuel dest src start p T := by
  cases hp : T.findNode start with
  | none =>
    rw [copyPageAccesses, hp] at ha
    cases ha
  | some p => exact ⟨p, rfl, copyPageAccesses_of_node hp ▸ ha⟩

/-- The search for the block begins with the slot before the first one when the
newest block is empty. -/
theorem pos_of_inside (L : Libc) (insert : InsertCall → RecTree → Option RecTree)
    (fuel dest src start : ℕ) (h : NodeInv T p)
    (hall : ∀ a ∈ copyFirstPageAccesses L insert fuel dest src start p T, a.Inside) :
    0 < (T.recTreeNodes p).memRecIdx := by
  obtain ⟨older, hb⟩ := h.blocks_eq
  obtain ⟨e, rest, hblocks⟩ : ∃ e rest,
      (T.tailheads (T.recTreeNodes p).listHead).reverse = e :: rest := by
    refine List.exists_cons_of_ne_nil fun hnil => ?_
    rw [List.reverse_eq_nil_iff] at hnil
    rw [show T.blocks p = _ from hnil] at hb
    cases hb
  have hprobe := (hall ⟨e, (T.recTreeNodes p).memRecIdx - 1, scanLimit T p e⟩
    (List.mem_append_left _ (by rw [hblocks]; exact List.mem_cons_self ..))).1
  dsimp only at hprobe
  omega

/-- Whatever the insertions do, the first read goes to a valid slot only if the
newest block of the first page is not empty. -/
theorem firstFilled_of_inside (hrep : Rep L T)
    (insert : InsertCall → RecTree → Option RecTree) (fuel dest src n : ℕ)
    (hall : ∀ a ∈ tsMemcpyTracedAccesses L insert fuel dest src n T, a.Inside) :
    T.FirstFilled src n := by
  intro hle p hp
  refine (pos_of_inside L insert fuel dest src (addr2PageNum src)
    (hrep.node p (mem_nodes_of_findNode hp)) fun a ha => hall a ?_).ne'
  rw [tsMemcpyTracedAccesses, pagesFrom_eq, if_pos hle]
  refine List.mem_append_left _ ?_
  rwa [copyPageAccesses_of_node hp, if_pos rfl]

/-! ## Copying to other pages -/

/-- `insertRec`, stopping where it would reclaim garbage or go to one of the pages. -/
def apartInsert (L : Libc) (ofa : ℤ → Option ℕ) (pages : List ℕ) :
    InsertCall → RecTree → Option RecTree :=
  guarded (fun c _ => addr2PageNum c.dest ∉ pages) (steadyInsert L ofa)

theorem apartInsert_eq_some {pages : List ℕ} {c : InsertCall}
    (h : apartInsert L ofa pages c T = some T') :
    addr2PageNum c.dest ∉ pages ∧ steadyInsert L ofa c T = some T' := guarded_eq_some h

section

variable {pages : List ℕ} {T₀ : RecTree}
  (hins : ∀ c T T', insert c T = some T' →
    addr2PageNum c.dest ∉ pages ∧ steadyInsert L ofa c T = some T')

include hins

theorem apart_copyRecs {dest src start arr idx : ℕ} {uplimit : ℤ} (ha : Apart L pages T₀ U)
    (h : copyRecs insert dest src start arr idx uplimit U = some T') : Apart L pages T₀ T' :=
  copyRecs_invariant (P := Apart L pages T₀)
    (fun c V V' _ hV h => apart_steadyInsert hV (hins c V V' h).1 (hins c V V' h).2) ha h

/-- On the way to newer blocks the loop does not come to the current block of the
node, unless that was so when the page was begun: the limit is not too high. -/
theorem copyBlocksAccesses_inside (ha : Apart L pages T₀ U) (hpage : page ∈ pages)
    (hp : T₀.findNode page = some p) (hnd : (T₀.blocks p).Nodup)
    (hidx : (T₀.recTreeNodes p).memRecIdx ≤ memRecPerEntry) {res : RecTree → ℕ}
    (hres : ∀ V : RecTree, V.walks = T₀.walks → res V = p)
    {dest src srcLastEntry fuel : ℕ} {uplimit : ℤ} (hle : uplimit ≤ memRecPerEntry)
    {pre rest : List ℕ} (hb : T₀.oldestFirst p = pre ++ rest)
    (hcur : (T₀.recTreeNodes p).recModEntry = srcLastEntry ∨
      (T₀.recTreeNodes p).recModEntry ∈ pre) :
    ∀ a ∈ copyBlocksAccesses insert dest src page p res srcLastEntry fuel rest.head? uplimit U,
      a.Inside := by
  induction rest generalizing pre fuel uplimit U with
  | nil => cases fuel <;> exact fun a ha => absurd ha List.not_mem_nil
  | cons e rest ih =>
    cases fuel with
    | zero => exact fun a ha => absurd ha List.not_mem_nil
    | succ fuel =>
      intro a hmem
      have hnode := (ha.same page hpage p hp).node
      have hlimit : (if e = srcLastEntry then (U.recTreeNodes (res U)).memRecIdx else uplimit) ≤
          memRecPerEntry := by
        rw [hres U ha.walks, hnode]
        split
        · exact hidx
        · exact hle
      rcases List.mem_append.1 hmem with hmem | hmem
      · refine copyAccesses_inside hlimit ?_ a hmem
        rw [hres U ha.walks]
        split
        · exact idx_le_scanLimit (by rw [hnode]; exact hidx)
        · rename_i hne
          have hother : (U.recTreeNodes p).recModEntry ≠ e := by
            rw [hnode]
            rintro rfl
            rcases hcur with hcur | hcur
            · exact hne hcur
            · have hnd' : (T₀.oldestFirst p).Nodup := List.nodup_reverse.2 hnd
              rw [hb] at hnd'
              exact List.disjoint_of_nodup_append hnd' hcur (List.mem_cons_self ..)
          rw [scanLimit_eq, if_neg hother]
          exact hle
      · obtain ⟨V, hV, hmem⟩ := mem_elim_nil.1 hmem
        have haV := apart_copyRecs hins ha hV
        rw [haV.tailqPrev hpage hp hb] at hmem
        exact ih haV hlimit (by rw [hb, List.append_assoc, List.singleton_append])
          (hcur.imp_right fun h => List.mem_append_left [e] h) a hmem

theorem copyFromAccesses_inside (ha : Apart L pages T₀ U) (hpage : page ∈ pages)
    (hp : T₀.findNode page = some p) (hnd : (T₀.blocks p).Nodup)
    (hidx : (T₀.recTreeNodes p).memRecIdx ≤ memRecPerEntry) {res : RecTree → ℕ}
    (hres : ∀ V : RecTree, V.walks = T₀.walks → res V = p)
    {dest src srcLastEntry fuel e valid idx : ℕ} {uplimit : ℤ} (hle : uplimit ≤ memRecPerEntry)
    (hvalid : uplimit ≤ valid) (he : e ∈ T₀.blocks p)
    (hcur : (T₀.recTreeNodes p).recModEntry = srcLastEntry ∨
      (T₀.recTreeNodes p).recModEntry = e) :
    ∀ a ∈ copyFromAccesses insert fuel dest src page p res e srcLastEntry valid idx uplimit U,
      a.Inside := by
  intro a hmem
  obtain ⟨pre, rest, hb⟩ := List.append_of_mem (List.mem_reverse.2 he)
  have hb : T₀.oldestFirst p = pre ++ e :: rest := hb
  rcases List.mem_append.1 hmem with hmem | hmem
  · exact copyAccesses_inside hle hvalid a hmem
  · obtain ⟨V, hV, hmem⟩ := mem_elim_nil.1 hmem
    have haV := apart_copyRecs hins ha hV
    rw [haV.tailqPrev hpage hp hb] at hmem
    have hb' : T₀.oldestFirst p = (pre ++ [e]) ++ rest := by
      rw [hb, List.append_assoc, List.singleton_append]
    refine copyBlocksAccesses_inside hins haV hpage hp hnd hidx hres hle hb' ?_ a hmem
    exact hcur.imp_right fun h => List.mem_append_right pre (List.mem_singleton.2 h)

/-- The reads on one page, if its search does not begin before the first slot. -/
theorem copyPageAccesses_inside (ho : Owned L T.shape) (hall : ∀ q ∈ T.nodes, Placed T q)
    (hpage : page ∈ pages) {fuel dest src : ℕ}
    (hpos : page = addr2PageNum src → ∀ p ∈ T.findNode page, 0 < (T.recTreeNodes p).memRecIdx) :
    ∀ a ∈ copyPageAccesses L insert fuel dest src page T, a.Inside := by
  intro a hmem
  obtain ⟨p, hp, hmem⟩ := mem_copyPageAccesses hmem
  have hpn := mem_nodes_of_findNode hp
  have hnd := ho.nodup_blocks hpn
  have hidx := (hall p hpn).le
  have hres : ∀ V : RecTree, V.walks = T.walks → T.reread L p V = p :=
    fun V hV => reread_of_walks L p hV
  split at hmem
  · rename_i hfirst
    rcases List.mem_append.1 hmem with hmem | hmem
    · exact findBlockAccesses_inside (hpos hfirst p hp) hidx a hmem
    · split at hmem
      · cases hmem
      · rename_i e hblock
        have hvalid := idx_le_scanLimit (e := e) hidx
        rcases List.mem_append.1 hmem with hmem | hmem
        · obtain ⟨i, hi, rfl⟩ := List.mem_map.1 hmem
          have hi := findSlotReads_lt hi
          refine ⟨Int.natCast_nonneg i, ?_, ?_⟩ <;> dsimp only <;> omega
        · have he := findBlock_mem hblock
          split at hmem
          · rename_i idx hslot
            have hlt := findSlot_lt hslot
            have hle : (idx : ℤ) ≤ memRecPerEntry := by omega
            have hcut := apart_setCursor pages ho hall hpn he (Int.natCast_nonneg idx) hle
            refine copyFromAccesses_inside hins hcut.1 hpage
              ((findNode_congr (shape_setCursor ..) page).trans hp) ?_ ?_ hres hidx hvalid ?_
              (Or.inr ?_) a hmem
            · rwa [blocks_setCursor]
            · rw [setCursor_node]
              exact hle
            · rwa [blocks_setCursor]
            · rw [setCursor_node]
          · exact copyFromAccesses_inside hins (Apart.refl ho hall) hpage hp hnd hidx hres hidx
              hvalid he (Or.inl rfl) a hmem
  · obtain ⟨e, he, hmem⟩ := mem_elim_nil.1 hmem
    exact copyFromAccesses_inside hins (Apart.refl ho hall) hpage hp hnd hidx hres hidx
      (idx_le_scanLimit hidx) (List.mem_of_mem_getLast? he) (Or.inl rfl) a hmem

/-- What holds at the beginning of every page. -/
theorem between_copyPage {fuel dest src start : ℕ} (ho : Owned L T.shape)
    (hall : ∀ q ∈ T.nodes, Placed T q) (h : copyPage L insert fuel dest src start T = some T') :
    Owned L T'.shape ∧ ∀ q ∈ T'.nodes, Placed T' q := by
  refine copyPage_invariant_cut (P := fun U => Owned L U.shape ∧ ∀ q ∈ U.nodes, Placed U q)
    (fun c U V _ hU hV => ?_) ⟨ho, hall⟩ (fun node e idx hnode hblock hslot => ?_) h
  · have hapart : Apart L [] U U := Apart.refl hU.1 hU.2
    have hapart' := apart_steadyInsert hapart List.not_mem_nil (hins c U V hV).2
    exact ⟨hapart'.owned, hapart'.placed⟩
  · have hpn := mem_nodes_of_findNode hnode
    have hidx := (hall node hpn).le
    have hlt := findSlot_lt hslot
    have hcut := (apart_setCursor [] ho hall hpn (findBlock_mem hblock)
      (Int.natCast_nonneg idx) (by omega)).1
    exact ⟨hcut.owned, hcut.placed⟩

/-- While no record goes to a source page and no garbage is reclaimed,
`ts_memcpy_traced` reads valid slots only, if its first read does. -/
theorem tsMemcpyTracedAccesses_inside (hrep : Rep L T) {fuel dest src n : ℕ}
    (hpages : ∀ page ∈ pagesFrom (addr2PageNum src) (addr2PageNum (wadd src n)), page ∈ pages)
    (hfilled : T.FirstFilled src n) :
    ∀ a ∈ tsMemcpyTracedAccesses L insert fuel dest src n T, a.Inside := by
  have hall : ∀ q ∈ T.nodes, Placed T q := fun q hq => (hrep.node q hq).placed
  intro a ha
  rw [tsMemcpyTracedAccesses] at ha
  rw [pagesFrom_eq] at ha hpages
  split at ha
  · rename_i hle
    rw [if_pos hle] at hpages
    obtain ⟨hfirst, hlater⟩ := List.forall_mem_cons.1 hpages
    rcases List.mem_append.1 ha with ha | ha
    · refine copyPageAccesses_inside hins hrep.owned hall hfirst (fun _ p hp => ?_) a ha
      have hne := hfilled hle p hp
      have hnonneg := (hall p (mem_nodes_of_findNode hp)).nonneg
      omega
    · obtain ⟨U, hU, ha⟩ := mem_elim_nil.1 ha
      refine runLog_invariant (P := fun V => Owned L V.shape ∧ ∀ q ∈ V.nodes, Placed V q)
        (fun page _ V V' hV h => between_copyPage hins hV.1 hV.2 h)
        (fun page hpage V hV => copyPageAccesses_inside hins hV.1 hV.2 (hlater page hpage) ?_)
        (between_copyPage hins hrep.owned hall hU) a ha
      intro hsrc
      have := (mem_pagesFrom.1 hpage).1
      omega
  · cases ha

end

/-! ## `ts_realloc` -/

/-- The slot at the limit, which every iteration reads first, is not below it. -/
theorem not_inside_limit {node e : ℕ} :
    ¬ Access.Inside ⟨e,
      if e = (T.recTreeNodes node).recModEntry then (T.recTreeNodes node).memRecIdx
      else memRecPerEntry, scanLimit T node e⟩ := by
  rintro ⟨h₀, -, hlt⟩
  dsimp only at h₀ hlt
  rw [scanLimit_eq] at hlt
  by_cases heq : e = (T.recTreeNodes node).recModEntry
  · rw [if_pos heq] at h₀ hlt
    rw [if_pos heq.symm] at hlt
    omega
  · rw [if_neg heq, if_neg (Ne.symm heq)] at hlt
    omega

/-- The first slot that is read on a page with a node. -/
theorem movePageAccesses_first {fuel ret ptr tail start e : ℕ} (hp : T.findNode start = some p)
    (he : T.tailqLast (T.recTreeNodes p).listHead = some e) :
    ⟨e, if e = (T.recTreeNodes p).recModEntry then (T.recTreeNodes p).memRecIdx
      else memRecPerEntry, scanLimit T p e⟩ ∈
      movePageAccesses L insert (fuel + 1) ret ptr tail start T := by
  rw [movePageAccesses, hp]
  dsimp only
  rw [he]
  refine List.mem_cons.2 (Or.inl ?_)
  rw [reread_of_walks L p rfl]

/-- `ts_realloc` reads valid slots only, exactly when it finds no node. -/
theorem tsReallocAccesses_inside_iff (L : Libc) (insert : InsertCall → RecTree → Option RecTree)
    (hblocks : ∀ p ∈ T.nodes, T.blocks p ≠ []) (fuel ret ptr tail : ℕ) :
    (∀ a ∈ tsReallocAccesses L insert (fuel + 1) ret ptr tail T, a.Inside) ↔
      ∀ page ∈ pagesFrom (addr2PageNum ptr) (addr2PageNum tail), T.findNode page = none := by
  rw [tsReallocAccesses]
  induction pagesFrom (addr2PageNum ptr) (addr2PageNum tail) with
  | nil =>
    exact iff_of_true (fun a ha => absurd ha List.not_mem_nil)
      fun page hpage => absurd hpage List.not_mem_nil
  | cons page pages ih =>
    rw [runLog_cons, List.forall_mem_append, List.forall_mem_cons]
    cases hp : T.findNode page with
    | none =>
      have hstep : movePage L insert (fuel + 1) ret ptr tail page T = some T := by
        rw [movePage, hp]
      have hlog : movePageAccesses L insert (fuel + 1) ret ptr tail page T = [] := by
        rw [movePageAccesses, hp]
      rw [hstep, hlog, Option.elim_some, ih]
      exact and_congr_left fun _ => iff_of_true (fun a ha => absurd ha List.not_mem_nil) rfl
    | some p =>
      refine iff_of_false (fun h => ?_) fun h => Option.some_ne_none p h.1
      obtain ⟨e, he⟩ : ∃ e, T.tailqLast (T.recTreeNodes p).listHead = some e :=
        ⟨_, List.getLast?_eq_some_getLast (hblocks p (mem_nodes_of_findNode hp))⟩
      exact not_inside_limit (h.1 _ (movePageAccesses_first hp he))

end RecTree

open RecTree

/-- When the four traversals read slots that hold valid records.  A scan does unless
it skips all records of a block.  `ts_memcpy_traced` does only if the newest block of
its first page is not empty, and if so at least up to the first insertion that goes to
a source page or reclaims garbage.  `ts_realloc` does only where there is nothing to
read. -/
theorem accesses_inside_iff {L : Libc} {T : RecTree} (hrep : Rep L T) :
    (∀ cmp M mem buf length, (∀ a ∈ doTsWriteAccesses cmp M mem T buf length, a.Inside) ↔
      WriteStops cmp M mem T buf length) ∧
    (∀ cmp M mem buf length, (∀ a ∈ fwriteAccesses cmp M mem T buf length, a.Inside) ↔
      FwriteStops cmp M mem T buf length) ∧
    (∀ ofa fuel dest src n, (∀ a ∈ tsMemcpyTracedAccesses L (insertRec L ofa) fuel dest src n T,
      a.Inside) → T.FirstFilled src n) ∧
    (∀ ofa fuel dest src n, (∀ a ∈ tsMemcpyTracedAccesses L (apartInsert L ofa
        (pagesFrom (addr2PageNum src) (addr2PageNum (wadd src n)))) fuel dest src n T, a.Inside) ↔
      T.FirstFilled src n) ∧
    (∀ ofa fuel ret ptr tail,
      (∀ a ∈ tsReallocAccesses L (insertRec L ofa) (fuel + 1) ret ptr tail T, a.Inside) ↔
        ∀ page ∈ pagesFrom (addr2PageNum ptr) (addr2PageNum tail), T.findNode page = none) := by
  have hblocks : ∀ p ∈ T.nodes, T.blocks p ≠ [] := by
    intro p hp hnil
    obtain ⟨older, hb⟩ := (hrep.node p hp).blocks_eq
    rw [hnil] at hb
    cases hb
  exact ⟨fun _ _ _ _ _ => doTsWriteAccesses_inside_iff hrep,
    fun _ _ _ _ _ => fwriteAccesses_inside_iff hrep,
    fun _ fuel dest src n => firstFilled_of_inside hrep _ fuel dest src n,
    fun ofa fuel dest src n => ⟨firstFilled_of_inside hrep _ fuel dest src n,
      fun hfilled => tsMemcpyTracedAccesses_inside (fun _ _ _ => apartInsert_eq_some) hrep
        (fun _ => id) hfilled⟩,
    fun _ fuel ret ptr tail => tsReallocAccesses_inside_iff L _ hblocks fuel ret ptr tail⟩

/-- Copying from the first record of a second block to another page. -/
theorem accesses_inside_iff_secondBlock : ∃ s, plainRun (onePage 40) = some s ∧
    ∀ a ∈ tsMemcpyTracedAccesses plainLibc (apartInsert plainLibc s.maps.openFileArray
      (pagesFrom (addr2PageNum 0x500130) (addr2PageNum (wadd 0x500130 100)))) 64
      0x900000 0x500130 100 s.tree, a.Inside := by
  have hrun : (plainRun (onePage 40)).any fun s =>
      decide ((∀ p ∈ s.tree.nodes, NodeInv s.tree p) ∧ s.tree.FirstFilled 0x500130 100) := by
    decide +kernel
  obtain ⟨s, hs, hstate⟩ := (Option.any_eq_true _ _).1 hrun
  obtain ⟨hnodes, hfilled⟩ := of_decide_eq_true hstate
  exact ⟨s, hs, ((accesses_inside_iff (rep_of_check hs hnodes)).2.2.2.1 _ _ _ _ _).2 hfilled⟩

/-- A page with one full block: a write behind its records and a `ts_realloc` read the
slot behind the array.  A page whose newest block has been emptied: `ts_memcpy_traced`
reads the slot in front of an array. -/
theorem accesses_outside : ∃ s s', plainRun (onePage 38) = some s ∧ Rep plainLibc s.tree ∧
    plainRun emptiedBlock = some s' ∧ Rep plainLibc s'.tree ∧
    (∃ a ∈ doTsWriteAccesses byteComparator s.maps (fun _ => 0) s.tree 0x500200 8,
      a.subscript = 38 ∧ ¬ a.Inside) ∧
    (∃ a ∈ fwriteAccesses byteComparator s.maps (fun _ => 0) s.tree 0x500200 8,
      a.subscript = 38 ∧ ¬ a.Inside) ∧
    (∃ a ∈ tsReallocAccesses plainLibc (insertRec plainLibc s.maps.openFileArray) 8
      0xa00000 0x500000 0x500800 s.tree, a.subscript = 38 ∧ ¬ a.Inside) ∧
    ∃ a ∈ tsMemcpyTracedAccesses plainLibc (insertRec plainLibc s'.maps.openFileArray) 8
      0xa00000 0x500000 8 s'.tree, a.subscript = -1 ∧ ¬ a.Inside := by
  have hfull : (plainRun (onePage 38)).any fun s =>
      decide ((∀ p ∈ s.tree.nodes, NodeInv s.tree p) ∧
        (∃ a ∈ doTsWriteAccesses byteComparator s.maps (fun _ => 0) s.tree 0x500200 8,
          a.subscript = 38 ∧ ¬ a.Inside) ∧
        (∃ a ∈ fwriteAccesses byteComparator s.maps (fun _ => 0) s.tree 0x500200 8,
          a.subscript = 38 ∧ ¬ a.Inside) ∧
        ∃ a ∈ tsReallocAccesses plainLibc (insertRec plainLibc s.maps.openFileArray) 8
          0xa00000 0x500000 0x500800 s.tree, a.subscript = 38 ∧ ¬ a.Inside) := by
    decide +kernel
  have hempty : (plainRun emptiedBlock).any fun s' =>
      decide ((∀ p ∈ s'.tree.nodes, NodeInv s'.tree p) ∧
        ∃ a ∈ tsMemcpyTracedAccesses plainLibc (insertRec plainLibc s'.maps.openFileArray) 8
          0xa00000 0x500000 8 s'.tree, a.subscript = -1 ∧ ¬ a.Inside) := by
    decide +kernel
  obtain ⟨s, hs, hstate⟩ := (Option.any_eq_true _ _).1 hfull
  obtain ⟨hnodes, hwrite, hfwrite, hrealloc⟩ := of_decide_eq_true hstate
  obtain ⟨s', hs', hstate'⟩ := (Option.any_eq_true _ _).1 hempty
  obtain ⟨hnodes', hcopy⟩ := of_decide_eq_true hstate'
  exact ⟨s, s', hs, rep_of_check hs hnodes, hs',
    ⟨reachable_owned (reachable_plainRun hs'), hnodes'⟩,
    hwrite, hfwrite, hrealloc, hcopy⟩

end Cidl
