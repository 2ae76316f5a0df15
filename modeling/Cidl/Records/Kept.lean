import Cidl.Records.InPlace

/-!
# Which records `ts_realloc` keeps

`Keeps` is what the function is for: every record of the block is afterwards at
the place that its address has moved to.  `tsRealloc_keeps_iff` says when the
code does it, for a call that returns and reclaims no garbage.

* A block that has moved: every record is moved but one exactly at `ptr`, which
  the strict comparison leaves out (`FirstKept`).
* A block that has stayed: a page with records inside loses all others, among
  them one exactly at `ptr`, and keeps those inside if they lie in one block, or
  fit into one when the current block is empty (`PageStays`).
-/

namespace Cidl

open SearchTree Shape

namespace RecTree

variable {L : Libc} {T T' : RecTree} {ofa : ℤ → Option ℕ} {p page : ℕ} {ret ptr tail : ℕ}
  {r r' : MemRec}

/-! ## The property -/

/-- The tree has the record `r` at the address `a`. -/
def RecordAt (T : RecTree) (a : ℕ) (r : MemRec) : Prop :=
  r ∈ T.pageLists (addr2PageNum a) ∧ getAddr (addr2PageNum a) r.pageOffset = a

/-- The two records name the same place of the same file. -/
def SameSource (r r' : MemRec) : Prop :=
  r'.fileName = r.fileName ∧ r'.fileOffset = r.fileOffset ∧ r'.fd = r.fd

instance (r r' : MemRec) : Decidable (SameSource r r') := inferInstanceAs (Decidable (_ ∧ _))

/-- Every record of the block from `ptr` to `tail` is found again in the block
at `ret`. -/
def Keeps (T T' : RecTree) (ret ptr tail : ℕ) : Prop :=
  ∀ a r, ptr ≤ a → a < tail → T.RecordAt a r →
    ∃ r', T'.RecordAt (ret + (a - ptr)) r' ∧ SameSource r r'

theorem SameSource.refl (r : MemRec) : SameSource r r := ⟨rfl, rfl, rfl⟩

theorem sameSource_recordOf {c : InsertCall} (hname : c.fileName = r.fileName)
    (hoff : c.fileOffset = r.fileOffset) (hfd : c.fd = r.fd) (page : ℕ) :
    SameSource r (recordOf c page) := ⟨hname, hoff, hfd⟩

/-! ## The records of a page -/

theorem Rep.pageList (hrep : Rep L T) (hr : r ∈ T.pageLists page) :
    ∃ p, T.findNode page = some p ∧ NodeInv T p ∧ T.pageLists page = T.records p := by
  cases hp : T.findNode page with
  | none =>
    rw [pageLists_of_none hp] at hr
    exact absurd hr List.not_mem_nil
  | some p => exact ⟨p, rfl, hrep.node p (mem_nodes_of_findNode hp), pageLists_of_findNode hp⟩

theorem Rep.addr_pairwise (hrep : Rep L T) (hw : (page + 1) * pageSize ≤ wordSize) :
    (T.pageLists page).Pairwise fun a b =>
      getAddr page a.pageOffset < getAddr page b.pageOffset := by
  cases hp : T.findNode page with
  | none =>
    rw [pageLists_of_none hp]
    exact List.Pairwise.nil
  | some p =>
    rw [pageLists_of_findNode hp]
    exact addr_ascending (hrep.node p (mem_nodes_of_findNode hp)) hw

/-- A record of the tree is on the page of its address. -/
theorem Rep.page_of_record (hrep : Rep L T) (hw : (page + 1) * pageSize ≤ wordSize)
    (hr : r ∈ T.pageLists page) : addr2PageNum (getAddr page r.pageOffset) = page := by
  obtain ⟨p, -, hinv, hlist⟩ := hrep.pageList hr
  exact RecTree.page_of_record hinv hw (hlist ▸ hr)

/-- No two records of a page have one address. -/
theorem eq_of_addr_eq (h : NodeInv T p) (hw : (page + 1) * pageSize ≤ wordSize)
    (hr : r ∈ T.records p) (hr' : r' ∈ T.records p)
    (heq : getAddr page r.pageOffset = getAddr page r'.pageOffset) : r = r' := by
  by_contra hne
  have hasc := (addr_ascending h hw).imp fun {a b} hlt => Nat.ne_of_lt hlt
  have : Std.Symm fun a b : MemRec => getAddr page a.pageOffset ≠ getAddr page b.pageOffset :=
    ⟨fun _ _ => Ne.symm⟩
  exact hasc.forall hr hr' hne heq

theorem mem_pagesFrom_of_addr {a : ℕ} (hptr : ptr ≤ a) (hlt : a < tail) :
    addr2PageNum a ∈ pagesFrom (addr2PageNum ptr) (addr2PageNum tail) :=
  mem_pagesFrom.2 ⟨Nat.div_le_div_right hptr, Nat.div_le_div_right (Nat.le_of_lt hlt)⟩

/-! ## A block that has moved -/

/-- All insertions for a block that has moved. -/
def allMoves (T : RecTree) (ret ptr tail : ℕ) : List InsertCall :=
  (pagesFrom (addr2PageNum ptr) (addr2PageNum tail)).flatMap (T.moveCalls ret ptr tail)

/-- A record exactly at `ptr` is not moved, so the tree has to have its like at
`ret` already, on a page that is not cleared. -/
def FirstKept (T : RecTree) (ret ptr tail : ℕ) : Prop :=
  ∀ r, ptr < tail → T.RecordAt ptr r → ¬ T.ClearedBy (T.allMoves ret ptr tail) (addr2PageNum ret) ∧
    ∃ r', T.RecordAt ret r' ∧ SameSource r r'

theorem mem_moveCalls {c : InsertCall} : c ∈ T.moveCalls ret ptr tail page ↔
    ∃ r ∈ T.pageLists page, Inside ptr tail page r ∧ c = moveCall ret ptr page r := by
  rw [moveCalls, List.mem_map]
  constructor
  · rintro ⟨r, hr, rfl⟩
    exact ⟨r, (mem_inside.1 hr).1, (mem_inside.1 hr).2, rfl⟩
  · rintro ⟨r, hr, hin, rfl⟩
    exact ⟨r, mem_inside.2 ⟨hr, hin⟩, rfl⟩

/-- The insertions come in the order of their addresses. -/
theorem allMoves_ascending (hrep : Rep L T) (htail : tail < wordSize)
    (hret : ret + (tail - ptr) ≤ wordSize) :
    (T.allMoves ret ptr tail).Pairwise fun c d => c.dest < d.dest := by
  have hlt : ∀ {page page' : ℕ} {r r' : MemRec}, Inside ptr tail page r → Inside ptr tail page' r' →
      getAddr page r.pageOffset < getAddr page' r'.pageOffset →
      (moveCall ret ptr page r).dest < (moveCall ret ptr page' r').dest := by
    intro page page' r r' hr hr' haddr
    rw [moveCall_dest hr htail hret, moveCall_dest hr' htail hret]
    have := hr.1
    omega
  refine List.pairwise_flatMap.2 ⟨fun page hpage => ?_, ?_⟩
  · have hw := page_fits_of_mem htail hpage
    have hasc := (hrep.addr_pairwise hw).filter fun r => decide (Inside ptr tail page r)
    refine List.pairwise_map.2 (hasc.imp_of_mem fun {r r'} hr hr' haddr => ?_)
    exact hlt (mem_inside.1 hr).2 (mem_inside.1 hr').2 haddr
  · refine List.Pairwise.imp_of_mem (fun {page page'} hpage hpage' hpages c hc d hd => ?_)
      List.pairwise_lt_range'
    obtain ⟨r, hr, hin, rfl⟩ := mem_moveCalls.1 hc
    obtain ⟨r', hr', hin', rfl⟩ := mem_moveCalls.1 hd
    refine hlt hin hin' ?_
    -- addresses on a later page are greater
    have h := hrep.page_of_record (page_fits_of_mem htail hpage) hr
    have h' := hrep.page_of_record (page_fits_of_mem htail hpage') hr'
    by_contra hle
    have := Nat.div_le_div_right (c := pageSize) (Nat.not_lt.1 hle)
    simp only [addr2PageNum] at h h'
    omega

/-- Where a moved record is. -/
theorem recordAt_moveCall (hr : Inside ptr tail page r) (htail : tail < wordSize)
    (hret : ret + (tail - ptr) ≤ wordSize) {l : List MemRec}
    (hl : T'.pageLists (addr2PageNum (moveCall ret ptr page r).dest) = l)
    (hmem : recordOf (moveCall ret ptr page r)
      (addr2PageNum (moveCall ret ptr page r).dest) ∈ l) :
    T'.RecordAt (ret + (getAddr page r.pageOffset - ptr))
      (recordOf (moveCall ret ptr page r) (addr2PageNum (moveCall ret ptr page r).dest)) := by
  have hdest := moveCall_dest hr htail hret
  have hlt : (moveCall ret ptr page r).dest < wordSize := by
    have := hr.1
    have := hr.2
    omega
  rw [← hdest]
  refine ⟨hl ▸ hmem, ?_⟩
  rw [recordOf_pageOffset]
  exact getAddr_split hlt

/-- A block that has moved is kept but for a record exactly at `ptr`. -/
theorem keeps_moved_iff (hrep : Rep L T) (htail : tail < wordSize)
    (hblock : NewBlock ret ptr tail) {fuel : ℕ}
    (h : tsRealloc L (steadyInsert L ofa) fuel ret ptr tail T = some T') :
    Keeps T T' ret ptr tail ↔ T.FirstKept ret ptr tail := by
  have hrun := tsRealloc_moved hrep htail hblock h
  have hmem := mem_pageLists_run hrep.tidyTree
    (allMoves_ascending hrep htail hblock.noWrap) hrun
  constructor
  · intro hkeeps r hlt hr
    obtain ⟨r', ⟨hr', haddr⟩, hsource⟩ := hkeeps ptr r (Nat.le_refl _) hlt hr
    rw [Nat.sub_self, Nat.add_zero] at hr' haddr
    rcases (hmem _ r').1 hr' with ⟨c, hc, rfl⟩ | ⟨hold, hkept⟩
    · -- what is inserted lies behind `ret`
      obtain ⟨hc, hpage⟩ := List.mem_filter.1 hc
      have hpage := of_decide_eq_true hpage
      obtain ⟨page, -, hc⟩ := List.mem_flatMap.1 hc
      obtain ⟨q, -, hin, rfl⟩ := mem_moveCalls.1 hc
      have hdest := moveCall_dest hin htail hblock.noWrap
      have hlt' : (moveCall ret ptr page q).dest < wordSize := by
        have := hin.1
        have := hin.2
        have := hblock.noWrap
        omega
      rw [← hpage, recordOf_pageOffset, getAddr_split hlt', hdest] at haddr
      have := hin.1
      omega
    · exact ⟨hkept, r', ⟨hold, haddr⟩, hsource⟩
  · rintro hfirst a r hptr hlt ⟨hr, haddr⟩
    rcases Nat.eq_or_lt_of_le hptr with rfl | hptr
    · obtain ⟨hkept, r', ⟨hr', haddr'⟩, hsource⟩ := hfirst r hlt ⟨hr, haddr⟩
      rw [Nat.sub_self, Nat.add_zero]
      exact ⟨r', ⟨(hmem _ r').2 (Or.inr ⟨hr', hkept⟩), haddr'⟩, hsource⟩
    · have hin : Inside ptr tail (addr2PageNum a) r := by
        rw [Inside, haddr]
        exact ⟨hptr, hlt⟩
      have hcall : moveCall ret ptr (addr2PageNum a) r ∈ T.allMoves ret ptr tail :=
        List.mem_flatMap.2 ⟨addr2PageNum a, mem_pagesFrom_of_addr (Nat.le_of_lt hptr) hlt,
          mem_moveCalls.2 ⟨r, hr, hin, rfl⟩⟩
      have hnew := recordAt_moveCall hin htail hblock.noWrap rfl ((hmem _ _).2 (Or.inl
        ⟨_, List.mem_filter.2 ⟨hcall, decide_eq_true rfl⟩, rfl⟩))
      rw [haddr] at hnew
      exact ⟨_, hnew, sameSource_recordOf rfl rfl rfl _⟩

/-! ## A block that has stayed -/

/-- What a page of a block that has stayed has to be like, to keep its records:
if there are any inside, then none exactly at `ptr`, and those inside are all in
one block, or are no more than one block holds when the current one is empty. -/
def PageStays (T : RecTree) (ptr tail page p : ℕ) : Prop :=
  inside ptr tail page (T.records p) = [] ∨
    ((∀ r ∈ T.records p, getAddr page r.pageOffset ≠ ptr) ∧
      (0 < (T.recTreeNodes p).memRecIdx → ∀ e ∈ T.blocks p, ∀ f ∈ T.blocks p,
        inside ptr tail page (T.validRecs p e) ≠ [] →
        inside ptr tail page (T.validRecs p f) ≠ [] → e = f) ∧
      ((T.recTreeNodes p).memRecIdx = 0 →
        (inside ptr tail page (T.records p)).length ≤ memRecPerEntry))

instance (T : RecTree) (ptr tail page p : ℕ) : Decidable (T.PageStays ptr tail page p) :=
  inferInstanceAs (Decidable (_ ∨ (_ ∧ _ ∧ _)))

theorem NodeInv.nodup_records (h : NodeInv T p) : (T.records p).Nodup := by
  refine List.Pairwise.imp (fun {a b} hlt => ?_) h.ascending
  rintro rfl
  exact lt_irrefl _ hlt

/-- A record is in one block only. -/
theorem block_unique (h : NodeInv T p) (hnd : (T.blocks p).Nodup) {e f : ℕ} (he : e ∈ T.blocks p)
    (hf : f ∈ T.blocks p) (hre : r ∈ T.validRecs p e) (hrf : r ∈ T.validRecs p f) : e = f := by
  by_contra hne
  have hrecords := h.nodup_records
  rw [records_eq_validRecs h.tidy hnd] at hrecords
  have hdisj := (List.nodup_flatMap.1 hrecords).2
  have : Std.Symm (Function.onFun List.Disjoint (T.validRecs p)) :=
    ⟨fun _ _ => List.Disjoint.symm⟩
  exact hdisj.forall (List.mem_reverse.2 he) (List.mem_reverse.2 hf) hne hre hrf

/-- When the records of a page of a block that has stayed are kept. -/
theorem rewritten_keeps_iff (h : NodeInv T p) (hnd : (T.blocks p).Nodup)
    (hw : (page + 1) * pageSize ≤ wordSize) {l : List MemRec}
    (hl : Rewritten T ptr tail page p l) :
    (∀ r ∈ T.records p, ptr ≤ getAddr page r.pageOffset → getAddr page r.pageOffset < tail →
      ∃ r' ∈ l, getAddr page r'.pageOffset = getAddr page r.pageOffset ∧ SameSource r r') ↔
      T.PageStays ptr tail page p := by
  set moved := inside ptr tail page (T.records p) with hmoved
  have hsub : ∀ e ∈ T.blocks p, ∀ r ∈ inside ptr tail page (T.validRecs p e), r ∈ moved :=
    fun e he r hr => mem_inside.2 ⟨mem_records_of_validRecs h.tidy hnd he (mem_inside.1 hr).1,
      (mem_inside.1 hr).2⟩
  constructor
  · intro hkeeps
    by_cases hnil : moved = []
    · exact Or.inl hnil
    -- what is left are records inside
    have hlmem : ∀ r ∈ l, r ∈ moved := by
      rcases hl with ⟨hnone, -⟩ | ⟨-, -, e, he, -, rfl⟩ | ⟨-, -, n, -, rfl, -⟩
      · exact absurd hnone hnil
      · exact hsub e he
      · exact fun r hr => List.mem_of_mem_take hr
    have hall : ∀ r ∈ moved, r ∈ l := by
      intro r hr
      obtain ⟨hrec, hin⟩ := mem_inside.1 hr
      obtain ⟨r', hr', haddr, -⟩ := hkeeps r hrec (Nat.le_of_lt hin.1) hin.2
      have := eq_of_addr_eq h hw (mem_inside.1 (hlmem r' hr')).1 hrec haddr
      exact this ▸ hr'
    obtain ⟨r₀, hr₀⟩ := List.exists_mem_of_ne_nil moved hnil
    have hlt := (mem_inside.1 hr₀).2.1.trans (mem_inside.1 hr₀).2.2
    refine Or.inr ⟨fun r hr haddr => ?_, fun hidx e he f hf hsome hsome' => ?_, fun hidx => ?_⟩
    · obtain ⟨r', hr', haddr', -⟩ := hkeeps r hr (Nat.le_of_eq haddr.symm) (haddr ▸ hlt)
      have hin := (mem_inside.1 (hlmem r' hr')).2.1
      rw [haddr', haddr] at hin
      exact lt_irrefl _ hin
    · rcases hl with ⟨hnone, -⟩ | ⟨-, -, g, hg, -, rfl⟩ | ⟨-, hzero, -⟩
      · exact absurd hnone hnil
      · have hg' : ∀ e ∈ T.blocks p, inside ptr tail page (T.validRecs p e) ≠ [] → e = g := by
          intro e he hsome
          obtain ⟨r, hr⟩ := List.exists_mem_of_ne_nil _ hsome
          exact block_unique h hnd he hg (mem_inside.1 hr).1
            (mem_inside.1 (hall r (hsub e he r hr))).1
        rw [hg' e he hsome, hg' f hf hsome']
      · omega
    · rcases hl with ⟨hnone, -⟩ | ⟨-, hpos, -⟩ | ⟨-, -, n, hn, rfl, -⟩
      · exact absurd hnone hnil
      · omega
      · have hnodup : moved.Nodup := h.nodup_records.filter _
        have hle := (hnodup.subperm hall).length_le
        exact (hle.trans (List.length_take_le n _)).trans hn
  · intro hstays r hr hptr hlt
    refine ⟨r, ?_, rfl, SameSource.refl r⟩
    rcases hl with ⟨-, rfl⟩ | ⟨hne, hidx, e, he, hsome, rfl⟩ | ⟨hne, hidx, n, -, rfl, hle⟩
    · exact hr
    · obtain ⟨hnot, hone, -⟩ := hstays.resolve_left hne
      have hin : Inside ptr tail page r :=
        ⟨Nat.lt_of_le_of_ne hptr fun heq => hnot r hr heq.symm, hlt⟩
      rw [records_eq_validRecs h.tidy hnd] at hr
      obtain ⟨f, hf, hrf⟩ := List.mem_flatMap.1 hr
      have hrf' : r ∈ inside ptr tail page (T.validRecs p f) := mem_inside.2 ⟨hrf, hin⟩
      rw [hone hidx e he f (List.mem_reverse.1 hf) hsome (List.ne_nil_of_mem hrf')]
      exact hrf'
    · obtain ⟨hnot, -, hfew⟩ := hstays.resolve_left hne
      have hin : Inside ptr tail page r :=
        ⟨Nat.lt_of_le_of_ne hptr fun heq => hnot r hr heq.symm, hlt⟩
      rw [List.take_of_length_le (hle (hfew hidx))]
      exact mem_inside.2 ⟨hr, hin⟩

/-- A block that has stayed is kept when each of its pages keeps its records. -/
theorem keeps_inPlace_iff (hrep : Rep L T) (htail : tail < wordSize) {fuel : ℕ}
    (h : tsRealloc L (steadyInsert L ofa) fuel ptr ptr tail T = some T') :
    Keeps T T' ptr ptr tail ↔ ∀ page ∈ pagesFrom (addr2PageNum ptr) (addr2PageNum tail),
      ∀ p ∈ T.findNode page, T.PageStays ptr tail page p := by
  have hpages := tsRealloc_inPlace hrep htail h
  constructor
  · intro hkeeps page hpage p hp
    have hpn := mem_nodes_of_findNode hp
    have hinv := hrep.node p hpn
    have hw := page_fits_of_mem htail hpage
    refine (rewritten_keeps_iff hinv (hrep.owned.nodup_blocks hpn) hw (hpages page hpage p hp)).1
      fun r hr hptr hlt => ?_
    have haddr := page_of_record hinv hw hr
    obtain ⟨r', ⟨hr', haddr'⟩, hsource⟩ := hkeeps _ r hptr hlt
      ⟨by rw [haddr, pageLists_of_findNode hp]; exact hr, by rw [haddr]⟩
    rw [Nat.add_sub_cancel' hptr, haddr] at hr' haddr'
    exact ⟨r', hr', haddr', hsource⟩
  · rintro hstays a r hptr hlt ⟨hr, haddr⟩
    have hpage := mem_pagesFrom_of_addr hptr hlt
    obtain ⟨p, hp, hinv, hlist⟩ := hrep.pageList hr
    have hpn := mem_nodes_of_findNode hp
    rw [hlist] at hr
    obtain ⟨r', hr', haddr', hsource⟩ := (rewritten_keeps_iff hinv (hrep.owned.nodup_blocks hpn)
      (page_fits_of_mem htail hpage) (hpages _ hpage p hp)).2 (hstays _ hpage p hp) r hr
        (by rw [haddr]; exact hptr) (by rw [haddr]; exact hlt)
    rw [Nat.add_sub_cancel' hptr]
    exact ⟨r', ⟨hr', haddr'.trans haddr⟩, hsource⟩

/-! ## The result -/

/-- A call that returns and reclaims no garbage keeps every record of the block
exactly when, for a block that has moved, a record at `ptr` has its like at
`ret`, and for one that has stayed, every page keeps its records.  The first part
says that the call is one of the library's own `ts_realloc`. -/
theorem tsRealloc_keeps_iff (hrep : Rep L T) (htail : tail < wordSize)
    (hblock : ret = ptr ∨ NewBlock ret ptr tail) {fuel : ℕ}
    (h : tsRealloc L (steadyInsert L ofa) fuel ret ptr tail T = some T') :
    tsRealloc L (insertRec L ofa) fuel ret ptr tail T = some T' ∧
      (Keeps T T' ret ptr tail ↔
        if ret = ptr then ∀ page ∈ pagesFrom (addr2PageNum ptr) (addr2PageNum tail),
          ∀ p ∈ T.findNode page, T.PageStays ptr tail page p
        else T.FirstKept ret ptr tail) := by
  refine ⟨tsRealloc_mono (fun c U V hV => (steadyInsert_eq_some hV).2) h, ?_⟩
  split
  · rename_i heq
    subst heq
    exact keeps_inPlace_iff hrep htail h
  · rename_i hne
    exact keeps_moved_iff hrep htail (hblock.resolve_left hne) h

end RecTree

theorem newBlock_moved : RecTree.NewBlock 0x900000 0x4ff000 0x500800 where
  noWrap := by decide
  apart a hptr hlt hmem := by
    have := (mem_pagesFrom.1 hmem).2
    simp only [addr2PageNum, pageSize] at this
    omega

/-- Two records that lie strictly inside a block that is moved. -/
theorem tsRealloc_keeps_iff_twoRecords : ∃ s T', plainRun (onePage 2) = some s ∧
    s.tree.tsRealloc plainLibc (RecTree.steadyInsert plainLibc s.maps.openFileArray) 64
      0x900000 0x4ff000 0x500800 = some T' ∧
    RecTree.Keeps s.tree T' 0x900000 0x4ff000 0x500800 := by
  have hrun : (plainRun (onePage 2)).any fun s =>
      decide ((∀ p ∈ s.tree.nodes, RecTree.NodeInv s.tree p) ∧ s.tree.pageLists 0x4ff = []) &&
      (s.tree.tsRealloc plainLibc (RecTree.steadyInsert plainLibc s.maps.openFileArray) 64
        0x900000 0x4ff000 0x500800).isSome := by
    decide +kernel
  obtain ⟨s, hs, hall⟩ := (Option.any_eq_true _ _).1 hrun
  obtain ⟨hstate, hreturns⟩ := Bool.and_eq_true_iff.1 hall
  obtain ⟨hnodes, hnone⟩ := of_decide_eq_true hstate
  obtain ⟨T', hT'⟩ := Option.isSome_iff_exists.1 hreturns
  refine ⟨s, T', hs, hT', (RecTree.tsRealloc_keeps_iff (rep_of_check hs hnodes) (by decide)
    (Or.inr newBlock_moved) hT').2.2 ?_⟩
  rw [if_neg (by decide)]
  rintro r - ⟨hr, -⟩
  rw [show addr2PageNum 0x4ff000 = 0x4ff from rfl, hnone] at hr
  exact absurd hr List.not_mem_nil

/-- The same page with the block beginning at its first record: this one is not
moved. -/
theorem tsRealloc_losesFirst : ∃ s T', plainRun (onePage 2) = some s ∧
    Reachable plainEnv s ∧ RecTree.Rep plainLibc s.tree ∧
    RecTree.NewBlock 0x900000 0x500000 0x500800 ∧
    s.tree.tsRealloc plainLibc (RecTree.steadyInsert plainLibc s.maps.openFileArray) 64
      0x900000 0x500000 0x500800 = some T' ∧
    ¬ RecTree.Keeps s.tree T' 0x900000 0x500000 0x500800 := by
  have hrun : (plainRun (onePage 2)).any fun s =>
      decide (∀ p ∈ s.tree.nodes, RecTree.NodeInv s.tree p) &&
      (s.tree.tsRealloc plainLibc (RecTree.steadyInsert plainLibc s.maps.openFileArray) 64
        0x900000 0x500000 0x500800).any fun T' =>
          (s.tree.pageLists 0x500).any fun r => decide (getAddr 0x500 r.pageOffset = 0x500000) &&
            (T'.pageLists 0x900).all fun r' => decide (getAddr 0x900 r'.pageOffset ≠ 0x900000) := by
    decide +kernel
  obtain ⟨s, hs, hall⟩ := (Option.any_eq_true _ _).1 hrun
  obtain ⟨hnodes, hreturns⟩ := Bool.and_eq_true_iff.1 hall
  obtain ⟨T', hT', hlost⟩ := (Option.any_eq_true _ _).1 hreturns
  obtain ⟨r, hr, hlost⟩ := List.any_eq_true.1 hlost
  obtain ⟨haddr, hnone⟩ := Bool.and_eq_true_iff.1 hlost
  refine ⟨s, T', hs, reachable_plainRun hs, rep_of_check hs (of_decide_eq_true hnodes),
    ⟨by decide, fun a hptr hlt hmem => ?_⟩, hT', fun hkeeps => ?_⟩
  · have := (mem_pagesFrom.1 hmem).2
    simp only [addr2PageNum, pageSize] at this
    omega
  · obtain ⟨r', ⟨hr', haddr'⟩, -⟩ := hkeeps 0x500000 r (Nat.le_refl _) (by decide)
      ⟨hr, of_decide_eq_true haddr⟩
    exact of_decide_eq_true (List.all_eq_true.1 hnone r' hr') haddr'

end Cidl
