import Cidl.Records.CopyPages
import Cidl.Records.Counts

/-!
# The records that a traced copy transfers

`ts_memcpy_traced` is meant to insert a record at the destination for every
record of the source range, and for no other.  `CopyOk` says when it does
(`tsMemcpyTraced_transfers_iff`), page by page, by the number of older blocks
`m`, the fill `c` of the newest block, and the numbers `lo` and `hi` of records
below the two ends of the range.

It often does not.  Nothing tests for the end of the range, so that what lies
behind it on its last page is copied too (`tsMemcpyTraced_copiesBeyond`), and the limit of the
newest block is used for all blocks of a page.
-/

namespace Cidl

open SearchTree Shape

namespace RecTree

variable {L : Libc} {T T' : RecTree} {ofa : ℤ → Option ℕ} {p page : ℕ}

/-! ## The records of the range -/

/-- The records of a page from `src` up to `tail`. -/
def rangeRecs (T : RecTree) (p page src tail : ℕ) : List MemRec :=
  (T.records p).filter fun r =>
    decide (src ≤ getAddr page r.pageOffset ∧ getAddr page r.pageOffset < tail)

/-- The calls of `insertRec` that the records of one source page ask for. -/
def rangePageCalls (T : RecTree) (dest src n page : ℕ) : List InsertCall :=
  match T.findNode page with
  | none => []
  | some p => (T.rangeRecs p page src (src + n)).map (recordCall dest src page)

/-- The calls of `insertRec` that the records of the source range ask for. -/
def rangeCalls (T : RecTree) (dest src n : ℕ) : List InsertCall :=
  (pagesFrom (addr2PageNum src) (addr2PageNum (src + n))).flatMap (T.rangePageCalls dest src n)

theorem rangeRecs_eq (h : NodeInv T p) (hw : (page + 1) * pageSize ≤ wordSize) (src tail : ℕ) :
    T.rangeRecs p page src tail = (List.range' (T.below p page src)
      (T.below p page tail - T.below p page src)).map (T.recAt p) := by
  rw [rangeRecs, records_eq_recAt h.tidy, List.filter_map]
  congr 1
  refine filter_range_interval (below_le h page tail) fun j hj => ?_
  have hlo := addr_lt_iff h hw src hj
  have hhi := addr_lt_iff h hw tail hj
  simp only [Function.comp_apply, decide_eq_true_eq]
  omega

theorem mem_rangePageCalls (hrep : Rep L T) {dest src n : ℕ} {c : InsertCall} :
    c ∈ T.rangePageCalls dest src n page ↔ ∃ p ∈ T.nodes, (T.recTreeNodes p).pageNum = page ∧
      ∃ r ∈ T.records p, (src ≤ getAddr page r.pageOffset ∧ getAddr page r.pageOffset < src + n) ∧
        c = recordCall dest src page r := by
  unfold rangePageCalls
  constructor
  · intro hc
    split at hc
    · cases hc
    · rename_i p hp
      obtain ⟨hpn, hkey⟩ := (findNode_eq_some hrep.owned).1 hp
      obtain ⟨r, hr, rfl⟩ := List.mem_map.1 hc
      obtain ⟨hr, hrange⟩ := List.mem_filter.1 hr
      exact ⟨p, hpn, hkey, r, hr, of_decide_eq_true hrange, rfl⟩
  · rintro ⟨p, hpn, hkey, r, hr, hrange, rfl⟩
    rw [(findNode_eq_some hrep.owned).2 ⟨hpn, hkey⟩]
    exact List.mem_map_of_mem (List.mem_filter.2 ⟨hr, decide_eq_true hrange⟩)

/-- `rangeCalls` has one call for every record of the range. -/
theorem mem_rangeCalls (hrep : Rep L T) {dest src n : ℕ}
    (hpages : ∀ p ∈ T.nodes, ((T.recTreeNodes p).pageNum + 1) * pageSize ≤ wordSize)
    {c : InsertCall} : c ∈ T.rangeCalls dest src n ↔ ∃ p ∈ T.nodes, ∃ r ∈ T.records p,
      (src ≤ getAddr (T.recTreeNodes p).pageNum r.pageOffset ∧
        getAddr (T.recTreeNodes p).pageNum r.pageOffset < src + n) ∧
      c = recordCall dest src (T.recTreeNodes p).pageNum r := by
  rw [rangeCalls, List.mem_flatMap]
  constructor
  · rintro ⟨page, -, hc⟩
    obtain ⟨p, hpn, rfl, r, hr, hrange, rfl⟩ := (mem_rangePageCalls hrep).1 hc
    exact ⟨p, hpn, r, hr, hrange, rfl⟩
  · rintro ⟨p, hpn, r, hr, hrange, rfl⟩
    refine ⟨(T.recTreeNodes p).pageNum, ?_, (mem_rangePageCalls hrep).2
      ⟨p, hpn, rfl, r, hr, hrange, rfl⟩⟩
    have hpage := page_of_record (hrep.node p hpn) (hpages p hpn) hr
    rw [mem_pagesFrom, ← hpage]
    exact ⟨Nat.div_le_div_right hrange.1, Nat.div_le_div_right hrange.2.le⟩

/-- The calls of `rangeCalls` come in the order of the addresses. -/
theorem rangeCalls_ascending (hrep : Rep L T) {dest src n : ℕ} (hw : src + n < wordSize) :
    (T.rangeCalls dest src n).Pairwise fun c d => c.src < d.src := by
  refine List.pairwise_flatMap.2 ⟨fun page hpage => ?_, ?_⟩
  · unfold rangePageCalls
    split
    · exact List.Pairwise.nil
    · rename_i p hp
      refine List.pairwise_map.2 (List.Pairwise.filter _ ?_)
      exact addr_ascending (hrep.node p (mem_nodes_of_findNode hp)) (page_fits hw hpage)
  · refine (List.pairwise_lt_range' 1).imp_of_mem fun {i j} hi hj hij c hc d hd => ?_
    obtain ⟨p, hp, -, r, hr, -, rfl⟩ := (mem_rangePageCalls hrep).1 hc
    obtain ⟨q, hq, -, s, hs, -, rfl⟩ := (mem_rangePageCalls hrep).1 hd
    have hi := page_of_record (hrep.node p hp) (page_fits hw hi) hr
    have hj := page_of_record (hrep.node q hq) (page_fits hw hj) hs
    simp only [recordCall, addr2PageNum, pageSize] at *
    omega

/-! ## When the right numbers are copied -/

/-- When the records copied from the first page are those with the numbers from
`lo` to `hi`: there are none of either kind; or the first record of the range is
in the newest block and the range has no end on the page; or, with a full newest
block, the range begins in an older one and ends in the newest one at the same
slot; or else it is the beginning of the block before the newest one, as far as
the newest one is filled. -/
def FirstOk (m c lo hi : ℕ) : Prop :=
  (lo = hi ∧ ¬ Begins m c lo) ∨
  (Begins m c lo ∧ memRecPerEntry * m ≤ lo ∧ hi = memRecPerEntry * m + c) ∨
  (c = memRecPerEntry ∧ lo < memRecPerEntry * m ∧
    hi = memRecPerEntry * m + lo % memRecPerEntry) ∨
  (0 < c ∧ c < memRecPerEntry ∧ lo + memRecPerEntry = memRecPerEntry * m ∧ hi = lo + c)

/-- When the records copied from a later page are the first `hi` ones: the
newest block is full or the only one, and the range has no end on the page; or
there is nothing to copy. -/
def LaterOk (m c hi : ℕ) : Prop :=
  ((m = 0 ∨ c = memRecPerEntry) ∧ hi = memRecPerEntry * m + c) ∨ (c = 0 ∧ hi = 0)

instance (m c lo hi : ℕ) : Decidable (FirstOk m c lo hi) :=
  inferInstanceAs (Decidable (_ ∨ _ ∨ _ ∨ _))

instance (m c hi : ℕ) : Decidable (LaterOk m c hi) := inferInstanceAs (Decidable (_ ∨ _))

theorem laterIndices_eq_iff {m c hi : ℕ} (hc : c ≤ memRecPerEntry)
    (hhi : hi ≤ memRecPerEntry * m + c) :
    laterIndices m c = List.range' 0 (hi - 0) ↔ LaterOk m c hi := by
  rw [laterIndices, eq_range'_iff (pairwise_copiedIndices hc hc)]
  simp only [mem_copiedIndices hc hc (Nat.zero_le _) (Nat.zero_le m), ite_self, LaterOk,
    memRecPerEntry] at *
  constructor
  · intro h
    have h₀ := h 0
    have hend := h (38 * m + c - 1)
    have hgap := h c
    have hhi' := h hi
    omega
  · rintro h j
    omega

theorem firstIndices_eq_iff {m c lo hi : ℕ} (hc : c ≤ memRecPerEntry) (hlo : lo ≤ hi)
    (hhi : hi ≤ memRecPerEntry * m + c) :
    firstIndices m c lo = List.range' lo (hi - lo) ↔ FirstOk m c lo hi := by
  unfold firstIndices
  split
  · rename_i hb
    obtain ⟨hc₀, hlo₀⟩ := hb
    have hb : Begins m c lo := ⟨hc₀, hlo₀⟩
    obtain ⟨k, hk⟩ : ∃ k, firstBlock c lo = k := ⟨_, rfl⟩
    obtain ⟨i, hi⟩ : ∃ i, firstSlot c lo = i := ⟨_, rfl⟩
    have hfirst : memRecPerEntry * k + i < memRecPerEntry * k + c ∧ lo < memRecPerEntry * k + c ∧
        (k = 0 ∨ memRecPerEntry * (k - 1) + c ≤ lo) ∧ i = lo - memRecPerEntry * k ∧ k ≤ m := by
      simp only [firstSlot, firstBlock, memRecPerEntry] at *
      omega
    rw [hk, hi, eq_range'_iff (pairwise_copiedIndices hc (by omega))]
    simp only [mem_copiedIndices hc (show i ≤ memRecPerEntry by omega)
      (show i ≤ memRecPerEntry by omega) hfirst.2.2.2.2, FirstOk, hb, true_and, not_true,
      and_false, false_or]
    clear hk hi hb
    simp only [memRecPerEntry] at *
    obtain ⟨hslot, hbefore, hprev, hdiff, hkm⟩ := hfirst
    rcases Nat.lt_or_eq_of_le hkm with hkm | rfl
    · -- an older block is the first one, and the newest one is copied up to the cut
      simp only [hkm, and_true]
      constructor
      · intro h
        have holder : ∀ b < m, ∀ s < 38, 38 * k + i ≤ 38 * b + s ∧ s < c ↔
            lo ≤ 38 * b + s ∧ 38 * b + s < hi := fun b hb s hs => by
          have := h (38 * b + s)
          rw [if_neg (by omega)] at this
          omega
        have hnewest : ∀ s < 38, s < i ↔ lo ≤ 38 * m + s ∧ 38 * m + s < hi := fun s hs => by
          have := h (38 * m + s)
          rw [if_pos (by omega)] at this
          omega
        have hcopied := holder k hkm i (by omega)
        have hend := hnewest i (by omega)
        have hlast := holder k hkm (c - 1) (by omega)
        have hlo' : lo = 38 * k + i := by
          have hstart := h lo
          omega
        by_cases hfull : c = 38
        · have hbelow := holder (m - 1) (by omega) 37 (by omega)
          have hcut := hnewest (i - 1) (by omega)
          omega
        · have hgap := holder k hkm c (by omega)
          have hnext : k + 1 = m := by
            by_contra hne
            have := holder (k + 1) (by omega) 0 (by omega)
            omega
          have hcut := hnewest 0 (by omega)
          omega
      · intro h j
        split <;> omega
    · -- the newest block is the first one
      simp only [Nat.lt_irrefl, and_false, if_false]
      constructor
      · intro h
        have hstart := h lo
        have hcopied := h (38 * k + i)
        have hlast := h (38 * k + c - 1)
        omega
      · intro h j
        omega
  · rename_i hb
    have hnil : ([] : List ℕ) = List.range' lo (hi - lo) ↔ lo = hi := by
      rw [eq_comm, List.range'_eq_nil_iff]
      omega
    rw [hnil]
    simp only [FirstOk, hb, not_false_iff, and_true, false_and, false_or]
    simp only [Begins, memRecPerEntry] at *
    omega

/-- On every source page the right records are copied: `m` is the number of its
older blocks, `c` the fill of the newest one. -/
def CopyOk (T : RecTree) (src n : ℕ) : Prop :=
  ∀ page ∈ pagesFrom (addr2PageNum src) (addr2PageNum (src + n)), ∀ p ∈ T.findNode page,
    let m := (T.blocks p).length - 1
    let c := (T.recTreeNodes p).memRecIdx.toNat
    let hi := T.below p page (src + n)
    if page = addr2PageNum src then FirstOk m c (T.below p page src) hi else LaterOk m c hi

instance (T : RecTree) (src n : ℕ) : Decidable (T.CopyOk src n) :=
  inferInstanceAs (Decidable (∀ page ∈ pagesFrom (addr2PageNum src) (addr2PageNum (src + n)),
    ∀ p ∈ T.findNode page, if page = addr2PageNum src then FirstOk _ _ _ _ else LaterOk _ _ _))

/-- No record of a later page lies below the range. -/
theorem below_later {src n : ℕ} (h : NodeInv T p) (hw : src + n < wordSize)
    (hpage : page ∈ pagesFrom (addr2PageNum src) (addr2PageNum (src + n)))
    (hne : page ≠ addr2PageNum src) : T.below p page src = 0 := by
  refine List.countP_eq_zero.2 fun r hr => ?_
  have hon := page_of_record h (page_fits hw hpage) hr
  rw [mem_pagesFrom] at hpage
  simp only [decide_eq_true_eq, addr2PageNum, pageSize] at *
  omega

/-- On one page, the calls made are those asked for when their numbers are. -/
theorem callsOf_eq_iff {dest src n : ℕ} (h : NodeInv T p) (hw : (page + 1) * pageSize ≤ wordSize)
    {is : List ℕ} (his : ∀ j ∈ is, j < T.recCount p) :
    T.callsOf dest src p page is =
        (T.rangeRecs p page src (src + n)).map (recordCall dest src page) ↔
      is = List.range' (T.below p page src)
        (T.below p page (src + n) - T.below p page src) := by
  rw [rangeRecs_eq h hw, List.map_map]
  refine map_eq_map_iff fun i hi j hj heq => recordCall_injOn h hw (his i hi) ?_ heq
  have := below_le h page (src + n)
  have := List.mem_range'_1.1 hj
  omega

theorem pageCalls_eq_iff {dest src n : ℕ} (hrep : Rep L T) (hw : src + n < wordSize)
    (hpage : page ∈ pagesFrom (addr2PageNum src) (addr2PageNum (src + n))) :
    T.pageCalls dest src page = T.rangePageCalls dest src n page ↔
      ∀ p ∈ T.findNode page,
        if page = addr2PageNum src then
          FirstOk ((T.blocks p).length - 1) (T.recTreeNodes p).memRecIdx.toNat
            (T.below p page src) (T.below p page (src + n))
        else LaterOk ((T.blocks p).length - 1) (T.recTreeNodes p).memRecIdx.toNat
          (T.below p page (src + n)) := by
  rw [pageCalls, rangePageCalls]
  cases hp : T.findNode page with
  | none => simp
  | some p =>
    have h := hrep.node p (mem_nodes_of_findNode hp)
    have hc := Int.toNat_le.2 h.idx_le
    have hhi := below_le h page (src + n)
    have hlohi : T.below p page src ≤ T.below p page (src + n) :=
      List.countP_mono_left fun r _ hr => by
        rw [decide_eq_true_eq] at hr ⊢
        omega
    simp only [Option.mem_some_iff, forall_eq']
    split
    · rw [callsOf_eq_iff h (page_fits hw hpage) fun j hj => lt_of_mem_firstIndices hc hj]
      exact firstIndices_eq_iff hc hlohi hhi
    · rename_i hne
      rw [callsOf_eq_iff h (page_fits hw hpage) fun j hj => lt_of_mem_laterIndices hc hj,
        below_later h hw hpage hne]
      exact laterIndices_eq_iff hc hhi

theorem runAll_calls {cs : List InsertCall}
    (h : runAll (steadyInsert L ofa) cs T = some T') : T'.calls = T.calls ++ cs := by
  induction cs generalizing T with
  | nil => cases h; simp
  | cons c cs ih =>
    obtain ⟨U, hU, h⟩ := runAll_cons_eq_some.1 h
    rw [ih h, insertRec_calls (steadyInsert_eq_some hU).2]
    simp

/-- A copy of traced memory during which no garbage is reclaimed makes the calls
of `insertRec` that the records of its range ask for, and no others, exactly
when `CopyOk` holds. -/
theorem tsMemcpyTraced_transfers_iff {dest src n fuel : ℕ} (hrep : Rep L T)
    (hsrc : SourceApart T dest src n) (hfuel : ∀ p ∈ T.nodes, (T.blocks p).length ≤ fuel)
    (h : tsMemcpyTraced L (steadyInsert L ofa) fuel dest src n T = some T') :
    tsMemcpyTraced L (insertRec L ofa) fuel dest src n T = some T' ∧
      (T'.calls = T.calls ++ T.rangeCalls dest src n ↔ CopyOk T src n) := by
  refine ⟨tsMemcpyTraced_mono (fun c U V hU => (steadyInsert_eq_some hU).2) h, ?_⟩
  rw [tsMemcpyTraced_eq hrep hsrc hfuel] at h
  have hw := hsrc.noWrap
  have hnd : (pagesFrom (addr2PageNum src) (addr2PageNum (src + n))).Nodup := List.nodup_range'
  rw [runAll_calls h, calls_cutSource, List.append_cancel_left_eq, rangeCalls,
    flatMap_eq_iff (fun c => addr2PageNum c.src) hnd (fun page hpage c hc => ?_)
      (fun page hpage c hc => ?_)]
  · exact forall₂_congr fun page hpage => pageCalls_eq_iff hrep hw hpage
  · obtain ⟨p, hp, r, hr, rfl⟩ := mem_pageCalls hrep hc
    exact page_of_record (hrep.node p (mem_nodes_of_findNode hp)) (page_fits hw hpage) hr
  · obtain ⟨p, hp, -, r, hr, -, rfl⟩ := (mem_rangePageCalls hrep).1 hc
    exact page_of_record (hrep.node p hp) (page_fits hw hpage) hr

end RecTree

/-- One page with `k` records, eight bytes apart. -/
def onePage (k : ℕ) : List Call := openAndMap 3 1 100 0x10000 0x1000 ++
  (List.range k).map fun i => .memcpy (0x500000 + 8 * i) 0x10000 8

theorem rep_of_check {s : State} {k : ℕ} (hs : plainRun (onePage k) = some s)
    (hnode : ∀ p ∈ s.tree.nodes, RecTree.NodeInv s.tree p) : RecTree.Rep plainLibc s.tree :=
  ⟨reachable_owned (reachable_plainRun hs), hnode⟩

/-- Copying from the first record of a second block to the end of the page. -/
theorem tsMemcpyTraced_transfers_iff_secondBlock : ∃ s, plainRun (onePage 40) = some s ∧
    s.tree.CopyOk 0x500130 100 ∧
    ∃ T', s.tree.tsMemcpyTraced plainLibc (RecTree.insertRec plainLibc s.maps.openFileArray) 64
        0x900000 0x500130 100 = some T' ∧
      T'.calls = s.tree.calls ++ s.tree.rangeCalls 0x900000 0x500130 100 := by
  have hrun : (plainRun (onePage 40)).any fun s => decide ((∀ p ∈ s.tree.nodes,
        RecTree.NodeInv s.tree p ∧ (s.tree.blocks p).length ≤ 64) ∧
      s.tree.SourceApart 0x900000 0x500130 100 ∧ s.tree.CopyOk 0x500130 100) &&
      (s.tree.tsMemcpyTraced plainLibc (RecTree.steadyInsert plainLibc s.maps.openFileArray) 64
        0x900000 0x500130 100).isSome := by
    decide +kernel
  obtain ⟨s, hs, hall⟩ := (Option.any_eq_true _ _).1 hrun
  obtain ⟨hstate, hsome⟩ := Bool.and_eq_true_iff.1 hall
  obtain ⟨hnodes, hsrc, hok⟩ := of_decide_eq_true hstate
  obtain ⟨T', hT'⟩ := Option.isSome_iff_exists.1 hsome
  have hrep := rep_of_check hs fun p hp => (hnodes p hp).1
  obtain ⟨hstep, hiff⟩ :=
    RecTree.tsMemcpyTraced_transfers_iff hrep hsrc (fun p hp => (hnodes p hp).2) hT'
  exact ⟨s, hs, hok, T', hstep, hiff.2 hok⟩

/-- Copying the first two of three records: the third one, which lies just
behind the range, is copied too. -/
theorem tsMemcpyTraced_copiesBeyond : ∃ s, plainRun (onePage 3) = some s ∧
    RecTree.Rep plainLibc s.tree ∧ s.tree.SourceApart 0x900000 0x500000 16 ∧
    ∃ T', s.tree.tsMemcpyTraced plainLibc (RecTree.steadyInsert plainLibc s.maps.openFileArray) 64
        0x900000 0x500000 16 = some T' ∧
      T'.calls ≠ s.tree.calls ++ s.tree.rangeCalls 0x900000 0x500000 16 ∧
      ∃ c ∈ T'.calls, c.src = 0x500000 + 16 ∧ c.dest = 0x900000 + 16 := by
  have hrun : (plainRun (onePage 3)).any fun s => decide ((∀ p ∈ s.tree.nodes,
        RecTree.NodeInv s.tree p) ∧ s.tree.SourceApart 0x900000 0x500000 16) &&
      (s.tree.tsMemcpyTraced plainLibc (RecTree.steadyInsert plainLibc s.maps.openFileArray) 64
        0x900000 0x500000 16).any fun T' =>
          decide (T'.calls ≠ s.tree.calls ++ s.tree.rangeCalls 0x900000 0x500000 16 ∧
            ∃ c ∈ T'.calls, c.src = 0x500000 + 16 ∧ c.dest = 0x900000 + 16) := by
    decide +kernel
  obtain ⟨s, hs, hall⟩ := (Option.any_eq_true _ _).1 hrun
  obtain ⟨hstate, hafter⟩ := Bool.and_eq_true_iff.1 hall
  obtain ⟨hnodes, hsrc⟩ := of_decide_eq_true hstate
  obtain ⟨T', hT', hcalls⟩ := (Option.any_eq_true _ _).1 hafter
  exact ⟨s, hs, rep_of_check hs hnodes, hsrc, T', hT', of_decide_eq_true hcalls⟩

end Cidl
