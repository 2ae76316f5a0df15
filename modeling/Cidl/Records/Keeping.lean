import Cidl.Records.CopyPages
import Cidl.Records.History

/-!
# The build that forgets nothing

With `DELETE_TREENODE=0` the library clears no page (`insertRecKeeping`).  A page
then has a record for each insertion ever made into it, and an array for every 38
of them; the default build keeps the longest ascending end of these records, in
at most 108 arrays (`builds_compared`).  So the same calls take one build any
amount of memory for a buffer that is used again and again, and the other one a
fixed amount.
-/

namespace Cidl

open SearchTree Shape

namespace RecTree

variable {L : Libc} {T T' : RecTree} {ofa : ℤ → Option ℕ} {p page : ℕ} {c : InsertCall}

/-! ## Insertions -/

/-- `insertRecKeeping`, as long as it reclaims no garbage. -/
def steadyKeeping (L : Libc) : Insert := fun ofa c T =>
  if T.findNode (addr2PageNum c.dest) = none ∧ T.needsReclaim then none
  else insertRecKeeping L ofa c T

/-- On a page with a node the record is written; on others the two builds do the same. -/
theorem steadyKeeping_eq_some (h : steadyKeeping L ofa c T = some T') :
    (∃ p, T.findNode (addr2PageNum c.dest) = some p ∧
      writeRec L c (addr2PageNum c.dest) p (T.logCall c) = some T') ∨
    (T.findNode (addr2PageNum c.dest) = none ∧ steadyInsert L ofa c T = some T') := by
  unfold steadyKeeping at h
  split at h
  · cases h
  · rename_i hsteady
    cases hp : T.findNode (addr2PageNum c.dest) with
    | some p =>
      simp only [insertRecKeeping, show (T.logCall c).findNode _ = some p from hp] at h
      exact Or.inl ⟨p, rfl, h⟩
    | none =>
      refine Or.inr ⟨rfl, ?_⟩
      rw [steadyInsert, if_neg hsteady]
      simp only [insertRec, insertRecKeeping,
        show (T.logCall c).findNode (addr2PageNum c.dest) = none from hp] at h ⊢
      exact h

theorem calls_steadyKeeping (h : steadyKeeping L ofa c T = some T') :
    T'.calls = T.calls ++ [c] := by
  rcases steadyKeeping_eq_some h with ⟨p, -, hwrite⟩ | ⟨-, hinsert⟩
  · exact (writeRec_slots hwrite).1
  · exact insertRec_calls (steadyInsert_eq_some hinsert).2

/-! ## What the tree keeps -/

/-- Every node is tidy, with a record in its current block, and every page has its
whole history. -/
structure KeepsAll (L : Libc) (T : RecTree) : Prop where
  tidyTree : TidyTree L T
  pos : ∀ q ∈ T.nodes, 0 < (T.recTreeNodes q).memRecIdx
  lists : ∀ page, T.pageLists page = T.historyOf page

/-- An insertion that changes one page, where the record goes behind the others. -/
theorem KeepsAll.of_onPage (h : KeepsAll L T) (ho : Owned L T'.shape)
    (hon : OnPage T T' (addr2PageNum c.dest)) (hp : T'.findNode (addr2PageNum c.dest) = some p)
    (ht : Tidy T' p) (hpos : 0 < (T'.recTreeNodes p).memRecIdx)
    (hrec : T'.records p = T.pageLists (addr2PageNum c.dest) ++
      [recordOf c (addr2PageNum c.dest)]) (hcalls : T'.calls = T.calls ++ [c]) :
    KeepsAll L T' := by
  have hnode : ∀ q ∈ T'.nodes, q = p ∨ (q ∈ T.nodes ∧ SameNode T T' q) := by
    intro q hq
    by_cases hpage : (T'.recTreeNodes q).pageNum = addr2PageNum c.dest
    · rw [(findNode_eq_some ho).2 ⟨hq, hpage⟩] at hp
      exact Or.inl (Option.some.inj hp)
    · obtain ⟨hqT, hne⟩ := hon.fresh q hq hpage
      exact Or.inr ⟨hqT, (hon.others q hqT hne).2⟩
  refine ⟨⟨ho, fun q hq => ?_⟩, fun q hq => ?_, fun page => ?_⟩
  · rcases hnode q hq with rfl | ⟨hqT, hsame⟩
    · exact ht
    · exact hsame.tidy (h.tidyTree.tidy q hqT)
  · rcases hnode q hq with rfl | ⟨hqT, hsame⟩
    · exact hpos
    · rw [hsame.node]
      exact h.pos q hqT
  · rw [historyOf_concat hcalls]
    by_cases hpage : addr2PageNum c.dest = page
    · subst hpage
      rw [if_pos rfl, pageLists_of_findNode hp, hrec, h.lists]
    · rw [if_neg hpage, List.append_nil,
        pageLists_of_onPage h.tidyTree.owned ho h.tidyTree.placed hon (Ne.symm hpage), h.lists]

/-- The tree that `initMemory` leaves has no pages. -/
theorem keepsAll_initMemory (recMem : ℤ → MemRec) (recBlockEntries : ℕ → RecBlockEntry)
    (recTreeNodes : ℕ → RecTreeNode) : KeepsAll L (initMemory L recMem recBlockEntries
      recTreeNodes) where
  tidyTree := ⟨owned_initMemory _ _ _, fun _ hq => absurd hq List.not_mem_nil⟩
  pos _ hq := absurd hq List.not_mem_nil
  lists _ := rfl

/-- Every insertion of the build that clears no page. -/
theorem KeepsAll.insert (h : KeepsAll L T) (hc : steadyKeeping L ofa c T = some T') :
    KeepsAll L T' := by
  have hcalls := calls_steadyKeeping hc
  have ho := h.tidyTree.owned
  rcases steadyKeeping_eq_some hc with ⟨p, hp, hwrite⟩ | ⟨hnew, hinsert⟩
  · have hoU : Owned L (T.logCall c).shape := ho
    have hpU : (T.logCall c).findNode (addr2PageNum c.dest) = some p := hp
    have hlog := onPage_logCall c h.tidyTree.placed (addr2PageNum c.dest)
    have htidy := (sameNode_logCall T c p).tidy (h.tidyTree.tidy p (mem_nodes_of_findNode hp))
    have hon := hlog.trans (onPage_writeRec hoU hlog.placed hpU hwrite)
    obtain ⟨hp', ht', hrec⟩ := tidyNode_writeRec hoU hpU htidy hwrite
    refine h.of_onPage (owned_writeRec hoU hpU hwrite) hon hp' ht'
      (idx_pos_writeRec hpU htidy.idx_nonneg hwrite) ?_ hcalls
    rw [hrec, pageLists_of_findNode hp]
    rfl
  · obtain ⟨hsteady, hinsert'⟩ := steadyInsert_eq_some hinsert
    obtain ⟨p, hp, ht, hrec⟩ := findNode_insertRec ho h.tidyTree.tidy hsteady hinsert'
    have hclears : ¬ T.Clears c.dest := by simp [Clears, hnew]
    rw [if_neg hclears] at hrec
    exact h.of_onPage (owned_insertRec ho hinsert') (h.tidyTree.onPage hinsert) hp ht
      (idx_pos_insertRec ho h.tidyTree.tidy hsteady hinsert' hp) hrec hcalls

/-! ## Arrays -/

/-- The number of arrays that hold the records of a page. -/
def arraysOf (T : RecTree) (page : ℕ) : ℕ :=
  (T.findNode page).elim 0 fun p => (T.blocks p).length

/-- Without an empty current block there are no more arrays than the records need. -/
theorem arraysOf_eq (htidy : ∀ q ∈ T.nodes, Tidy T q)
    (hpos : ∀ q ∈ T.nodes, 0 < (T.recTreeNodes q).memRecIdx) :
    T.arraysOf page = ((T.pageLists page).length + 37) / 38 := by
  cases hp : T.findNode page with
  | none =>
    rw [arraysOf, pageLists_of_none hp, hp]
    rfl
  | some p =>
    have hpn := mem_nodes_of_findNode hp
    have ht := htidy p hpn
    have hidx := hpos p hpn
    have hle := ht.idx_le
    obtain ⟨older, hb⟩ := ht.blocks_eq
    rw [arraysOf, pageLists_of_findNode hp, hp, Option.elim_some, length_records ht, recCount, hb,
      List.length_cons]
    simp only [memRecPerEntry] at *
    omega

/-- Records whose offsets ascend are no more than the page has bytes. -/
theorem length_pageLists_le (hrep : Rep L T) (page : ℕ) : (T.pageLists page).length ≤ pageSize := by
  cases hp : T.findNode page with
  | none =>
    rw [pageLists_of_none hp]
    exact Nat.zero_le _
  | some p =>
    have hinv := hrep.node p (mem_nodes_of_findNode hp)
    rw [pageLists_of_findNode hp]
    have hnodup : ((T.records p).map fun r => r.pageOffset.toNat).Nodup :=
      List.pairwise_map.2 (hinv.ascending.imp_of_mem fun {a b} ha _ hlt => by
        have := hinv.inPage a ha
        omega)
    have hsub : ∀ x ∈ (T.records p).map (fun r => r.pageOffset.toNat), x ∈ List.range pageSize := by
      intro x hx
      obtain ⟨r, hr, rfl⟩ := List.mem_map.1 hx
      have := hinv.inPage r hr
      exact List.mem_range.2 (by omega)
    simpa using (hnodup.subperm hsub).length_le

end RecTree

/-! ## The two builds -/

open RecTree

variable {E : Env} {s s' t t' : State}

/-- States of two builds that have made the same insertions, with the same mappings and
the same memory. -/
structure SideBySide (s t : State) : Prop where
  maps : s.maps = t.maps
  mem : s.mem = t.mem
  calls : s.tree.calls = t.tree.calls

/-- A copy, with or without a record, keeps them side by side. -/
theorem sideBySide_copyRecorded {insert insert' : Insert}
    (hi : ∀ {ofa c T T'}, insert ofa c T = some T' → T'.calls = T.calls ++ [c])
    (hi' : ∀ {ofa c T T'}, insert' ofa c T = some T' → T'.calls = T.calls ++ [c])
    (hst : SideBySide s t) {dest src n : ℕ} {fmNode : Option ℕ}
    (h : copyRecorded insert dest src n fmNode s = some s')
    (h' : copyRecorded insert' dest src n fmNode t = some t') : SideBySide s' t' := by
  cases fmNode with
  | none =>
    cases h
    cases h'
    exact ⟨hst.maps, congrArg (copyBytes dest src n) hst.mem, hst.calls⟩
  | some x =>
    obtain ⟨T, hT, rfl⟩ := Option.map_eq_some_iff.1 h
    obtain ⟨T', hT', rfl⟩ := Option.map_eq_some_iff.1 h'
    refine ⟨congrArg (fun M => M.countUse x) hst.maps, congrArg (copyBytes dest src n) hst.mem, ?_⟩
    show T.calls = T'.calls
    rw [hi hT, hi' hT', hst.calls, hst.maps]

/-- So does every call that cuts no page back. -/
theorem sideBySide_step {insert insert' : Insert}
    (hi : ∀ {ofa c T T'}, insert ofa c T = some T' → T'.calls = T.calls ++ [c])
    (hi' : ∀ {ofa c T T'}, insert' ofa c T = some T' → T'.calls = T.calls ++ [c])
    (hst : SideBySide s t) {c : Call} (hc : CutsNothing c)
    (h : stepWith E insert c s = some s') (h' : stepWith E insert' c t = some t') :
    SideBySide s' t' := by
  have hmaps : ∀ {f : FileMaps → Option FileMaps},
      (f s.maps).map (fun M => { s with maps := M }) = some s' →
      (f t.maps).map (fun M => { t with maps := M }) = some t' → SideBySide s' t' := by
    intro f h h'
    obtain ⟨M, hM, rfl⟩ := Option.map_eq_some_iff.1 h
    obtain ⟨M', hM', rfl⟩ := Option.map_eq_some_iff.1 h'
    rw [hst.maps, hM', Option.some.injEq] at hM
    exact ⟨hM.symm, hst.mem, hst.calls⟩
  cases c with
  | «open» a => exact hmaps (f := fun M => M.tsOpen a) h h'
  | close result fd => exact hmaps (f := fun M => M.tsClose E.libc result fd) h h'
  | mmap ret len prot file off =>
    exact hmaps (f := fun M => M.tsMmap E.libc ret len prot file off) h h'
  | munmap addr => exact hmaps (f := fun M => M.tsMunmap E.libc addr) h h'
  | memcpy dest src n =>
    have hfind : s.maps.findSource src n = t.maps.findSource src n := by rw [hst.maps]
    simp only [stepWith, hfind] at h
    exact sideBySide_copyRecorded hi hi' hst h h'
  | memcpyTraced dest src n => exact hc.elim
  | realloc ret ptr tail => exact hc.elim
  | read fd buf nbytes pos =>
    obtain ⟨⟨x, M⟩, hM, h⟩ := Option.bind_eq_some_iff.1 h
    obtain ⟨⟨x', M'⟩, hM', h'⟩ := Option.bind_eq_some_iff.1 h'
    rw [hst.maps, hM', Option.some.injEq, Prod.mk.injEq] at hM
    obtain ⟨rfl, rfl⟩ := hM
    have hst' : SideBySide { s with maps := M' } { t with maps := M' } := ⟨rfl, hst.mem, hst.calls⟩
    exact sideBySide_copyRecorded hi hi' hst' h h'
  | write buf length =>
    cases h
    cases h'
    exact ⟨hst.maps, hst.mem, hst.calls⟩
  | fwrite buf size n =>
    cases h
    cases h'
    exact ⟨hst.maps, hst.mem, hst.calls⟩
  | store addr b =>
    cases h
    cases h'
    exact ⟨hst.maps, congrArg (fun mem => Function.update mem addr b) hst.mem, hst.calls⟩

/-- A run of the build that clears no page. -/
theorem keepsAll_run {cs : List Call} (hcs : ∀ c ∈ cs, CutsNothing c)
    (hs : KeepsAll E.libc s.tree)
    (h : runAll (stepWith E (steadyKeeping E.libc)) cs s = some s') : KeepsAll E.libc s'.tree := by
  refine runAll_invariant (P := fun s => KeepsAll E.libc s.tree) (fun c hc u v hu hv => ?_) hs h
  rcases stepWith_tree_plain (hcs c hc) hv with heq | ⟨ofa, call, hinsert⟩
  · rwa [heq]
  · exact hu.insert hinsert

/-- The same calls in both builds, without cuts and reclaims.  The build that clears no
page has the whole history of each page, and an array for every 38 records of it;
the default build has the longest ascending end of what the other one has, and never
more than 108 arrays for a page. -/
theorem builds_compared {recMem : ℤ → MemRec} {recBlockEntries : ℕ → RecBlockEntry}
    {recTreeNodes : ℕ → RecTreeNode} {fileMapTreeNodes : ℕ → FileMapTreeNode} {mem : ℕ → UInt8}
    {cs : List Call} (hcs : ∀ c ∈ cs, CutsNothing c)
    (h : runAll (stepWith E (steadyInsert E.libc)) cs
      (initState E recMem recBlockEntries recTreeNodes fileMapTreeNodes mem) = some s)
    (h' : runAll (stepWith E (steadyKeeping E.libc)) cs
      (initState E recMem recBlockEntries recTreeNodes fileMapTreeNodes mem) = some t) :
    SideBySide s t ∧ ∀ page, t.tree.pageLists page = t.tree.historyOf page ∧
      t.tree.arraysOf page = ((t.tree.historyOf page).length + 37) / 38 ∧
      AscendingTail MemRec.pageOffset (t.tree.pageLists page) (s.tree.pageLists page) ∧
      s.tree.arraysOf page ≤ 108 := by
  have hside : SideBySide s t := by
    refine runAll_both (R := SideBySide) (fun c hc _ _ _ _ huv hu hv => ?_) ?_ h h'
    · exact sideBySide_step (fun h => insertRec_calls (steadyInsert_eq_some h).2)
        (fun h => calls_steadyKeeping h) huv (hcs c hc) hu hv
    · exact ⟨rfl, rfl, rfl⟩
  have hkeeps : KeepsAll E.libc t.tree := keepsAll_run hcs (keepsAll_initMemory _ _ _) h'
  obtain ⟨hrep, hpos, hlists⟩ := remembers_run hcs h
  refine ⟨hside, fun page => ⟨hkeeps.lists page, ?_, ?_, ?_⟩⟩
  · rw [arraysOf_eq hkeeps.tidyTree.tidy hkeeps.pos, hkeeps.lists]
  · have hhistory : t.tree.historyOf page = s.tree.historyOf page := by
      rw [historyOf, historyOf, hside.calls]
    rw [hkeeps.lists, hhistory]
    exact hlists page
  · have hle := length_pageLists_le hrep page
    rw [arraysOf_eq hrep.tidy hpos]
    simp only [pageSize] at hle
    omega

/-- A page with two arrays of records, and one more copy to its beginning. -/
def startAgain : List Call := twoBlocks ++ [.memcpy 0x500000 0x10000 8]

theorem builds_compared_startAgain : ∃ s t,
    runAll (stepWith plainEnv (steadyInsert plainLibc)) startAgain plainInit = some s ∧
    runAll (stepWith plainEnv (steadyKeeping plainLibc)) startAgain plainInit = some t ∧
    (s.tree.pageLists 0x500).length = 1 ∧ (t.tree.pageLists 0x500).length = 40 ∧
    t.tree.arraysOf 0x500 = 2 := by
  have hrun : (runAll (stepWith plainEnv (steadyInsert plainLibc)) startAgain plainInit).any
      fun s => decide ((s.tree.pageLists 0x500).length = 1 ∧
        (s.tree.historyOf 0x500).length = 40) &&
      (runAll (stepWith plainEnv (steadyKeeping plainLibc)) startAgain plainInit).isSome := by
    decide +kernel
  obtain ⟨s, hs, hrun⟩ := (Option.any_eq_true _ _).1 hrun
  obtain ⟨hlengths, hrun⟩ := Bool.and_eq_true_iff.1 hrun
  obtain ⟨hone, hforty⟩ := of_decide_eq_true hlengths
  obtain ⟨t, ht⟩ := Option.isSome_iff_exists.1 hrun
  obtain ⟨hside, hpages⟩ := builds_compared (by decide) hs ht
  obtain ⟨hlist, harrays, -, -⟩ := hpages 0x500
  rw [historyOf, hside.calls] at hforty
  refine ⟨s, t, hs, ht, hone, ?_, ?_⟩
  · rw [hlist]
    exact hforty
  · rw [harrays, show (t.tree.historyOf 0x500).length = 40 from hforty]

end Cidl
