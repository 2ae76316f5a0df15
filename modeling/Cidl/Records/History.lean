import Cidl.Lib.Ascending
import Cidl.Records.Ascent
import Cidl.Records.Runs

/-!
# What the tree remembers of its history

The calls of `insertRec` since `init` determine what the tree holds, whatever
blocks, cursors and pools it takes to hold it: for each page the longest end of
the calls to this page along which the offsets ascend (`reachable_history`).  A
record goes when the program copies to its page at or before the last address it
has copied to there, and then all of the page goes.

This holds of every run without `ts_memcpy_traced` and `ts_realloc`, which cut
pages back, as long as no garbage is reclaimed.  In such a run every current
block holds a record, so the test for clearing a page always sees the last one.
-/

namespace Cidl

open SearchTree Shape

namespace RecTree

variable {L : Libc} {T T' : RecTree} {ofa : ℤ → Option ℕ} {p page : ℕ} {c : InsertCall}

/-! ## Current blocks -/

/-- `writeRec` leaves a record in the current block. -/
theorem idx_pos_writeRec (hp : T.findNode page = some p)
    (hnonneg : 0 ≤ (T.recTreeNodes p).memRecIdx) (h : writeRec L c page p T = some T') :
    0 < (T'.recTreeNodes p).memRecIdx := by
  rcases writeRec_eq_some hp h with ⟨-, rfl⟩ | ⟨-, e, arr, ep, ap, -, -, rfl⟩
  · rw [setCursor_node]
    show 0 < (T.recTreeNodes p).memRecIdx + 1
    omega
  · simp [withBlock]

/-- So does an insertion, on its page. -/
theorem idx_pos_insertRec (ho : Owned L T.shape) (htidy : ∀ q ∈ T.nodes, Tidy T q)
    (hsteady : ¬ (T.findNode (addr2PageNum c.dest) = none ∧ T.needsReclaim))
    (h : insertRec L ofa c T = some T') (hp : T'.findNode (addr2PageNum c.dest) = some p) :
    0 < (T'.recTreeNodes p).memRecIdx := by
  have hoU : Owned L (T.logCall c).shape := ho
  have htidyU : ∀ q ∈ (T.logCall c).nodes, Tidy (T.logCall c) q := fun q hq => by
    obtain ⟨h₁, h₂, h₃⟩ := htidy q hq
    exact ⟨h₁, h₂, h₃⟩
  have hsteadyU : ¬ ((T.logCall c).findNode (addr2PageNum c.dest) = none ∧
      (T.logCall c).needsReclaim) := hsteady
  clear ho htidy hsteady
  simp only [insertRec] at h
  generalize T.logCall c = U at h hoU htidyU hsteadyU
  -- the tree to which the record is written, and its node
  obtain ⟨V, q, hoV, hqV, hnonneg, hwrite⟩ : ∃ V q, Owned L V.shape ∧
      V.findNode (addr2PageNum c.dest) = some q ∧ 0 ≤ (V.recTreeNodes q).memRecIdx ∧
      writeRec L c (addr2PageNum c.dest) q V = some T' := by
    split at h
    · rename_i q hq
      obtain ⟨V, hV, hW⟩ := Option.bind_eq_some_iff.1 h
      have hqn := mem_nodes_of_findNode hq
      refine ⟨V, q, (owned_clearPage hoU hqn hV).1, findNode_clearPage hoU hq hV, ?_, hW⟩
      rcases cleared_clearPage hoU hqn hV with ⟨-, rfl⟩ | ⟨-, hempty⟩
      · exact (htidyU q hqn).idx_nonneg
      · exact hempty.inv.idx_nonneg
    · rename_i hnew
      obtain ⟨⟨q, V⟩, hV, hW⟩ := Option.bind_eq_some_iff.1 h
      obtain ⟨hoV, hqV⟩ := owned_addTreeNode hoU hnew hV
      obtain ⟨W, hWU, hV⟩ := Option.bind_eq_some_iff.1 hV
      rw [reclaimIfNeeded, if_neg fun hneeds => hsteadyU ⟨hnew, hneeds⟩] at hWU
      cases hWU
      exact ⟨V, q, hoV, hqV, (cleared_newTreeNode hoU hV).2.1.idx_nonneg, hW⟩
  rw [findNode_writeRec hoV hqV hwrite] at hp
  cases hp
  exact idx_pos_writeRec hqV hnonneg hwrite

/-! ## The history of a page -/

/-- The records of all calls of `insertRec` to a page. -/
def historyOf (T : RecTree) (page : ℕ) : List MemRec :=
  (callsTo T.calls page).map fun c => recordOf c page

/-- The tree is in order, every current block holds a record, and every page has
the longest ascending end of its history. -/
structure Remembers (L : Libc) (T : RecTree) : Prop where
  rep : Rep L T
  pos : ∀ q ∈ T.nodes, 0 < (T.recTreeNodes q).memRecIdx
  lists : ∀ page, AscendingTail MemRec.pageOffset (T.historyOf page) (T.pageLists page)

theorem Remembers.not_hidesLast (h : Remembers L T) (dest : ℕ) : ¬ T.HidesLast dest := by
  rintro ⟨p, hp, hidx, -⟩
  have := h.pos p (mem_nodes_of_findNode hp)
  omega

/-- The abstract rule continues the longest ascending end, or begins a new one. -/
theorem ascendingTail_appendRec {l t : List MemRec} (h : AscendingTail MemRec.pageOffset l t)
    (r : MemRec) : AscendingTail MemRec.pageOffset (l ++ [r]) (appendRec t r) := by
  unfold appendRec
  split
  · rename_i hover
    exact h.restart hover
  · rename_i hover
    exact h.extend fun b hb => Int.not_le.1 fun hle => hover ⟨b, hb, hle⟩

theorem historyOf_concat (h : T'.calls = T.calls ++ [c]) (page : ℕ) :
    T'.historyOf page = T.historyOf page ++
      if addr2PageNum c.dest = page then [recordOf c page] else [] := by
  rw [historyOf, h, callsTo, List.filter_append, List.map_append, historyOf, callsTo]
  congr 1
  by_cases hpage : addr2PageNum c.dest = page <;> simp [hpage]

/-- Every insertion without a reclaim. -/
theorem Remembers.insert (h : Remembers L T) (hc : steadyInsert L ofa c T = some T') :
    Remembers L T' := by
  obtain ⟨hsteady, hinsert⟩ := steadyInsert_eq_some hc
  have htidy := h.rep.tidyTree
  obtain ⟨hlists, hrep⟩ :=
    refines_of_not_hidesLast h.rep hsteady hinsert (h.not_hidesLast c.dest)
  have hon := htidy.onPage hc
  refine ⟨hrep, fun q hq => ?_, fun page => ?_⟩
  · by_cases hpage : (T'.recTreeNodes q).pageNum = addr2PageNum c.dest
    · exact idx_pos_insertRec htidy.owned htidy.tidy hsteady hinsert
        ((findNode_eq_some hrep.owned).2 ⟨hq, hpage⟩)
    · obtain ⟨hqT, hne⟩ := hon.fresh q hq hpage
      rw [(hon.others q hqT hne).2.node]
      exact h.pos q hqT
  · rw [historyOf_concat (insertRec_calls hinsert), hlists, appendTo]
    by_cases hpage : addr2PageNum c.dest = page
    · subst hpage
      rw [if_pos rfl, Function.update_self]
      exact ascendingTail_appendRec (h.lists _) _
    · rw [if_neg hpage, List.append_nil, Function.update_of_ne (Ne.symm hpage)]
      exact h.lists page

end RecTree

/-! ## Runs -/

variable {E : Env} {s s' : State}

/-- A call that cuts no page back: any but `ts_memcpy_traced` and `ts_realloc`. -/
def CutsNothing : Call → Prop
  | .memcpyTraced .. | .realloc .. => False
  | _ => True

instance : (c : Call) → Decidable (CutsNothing c)
  | .memcpyTraced .. | .realloc .. => instDecidableFalse
  | .open _ | .close .. | .mmap .. | .munmap _ | .memcpy .. | .read .. | .write .. | .fwrite ..
  | .store .. => instDecidableTrue

/-- Such a call makes at most one insertion. -/
theorem stepWith_tree_plain {insert : Insert} {c : Call} (hc : CutsNothing c)
    (h : stepWith E insert c s = some s') :
    s'.tree = s.tree ∨ ∃ ofa call, insert ofa call s.tree = some s'.tree := by
  have hcopy : ∀ {dest src n fmNode} {s : State},
      copyRecorded insert dest src n fmNode s = some s' →
        s'.tree = s.tree ∨ ∃ ofa call, insert ofa call s.tree = some s'.tree := by
    intro dest src n fmNode s h
    cases fmNode with
    | none => cases h; exact Or.inl rfl
    | some x =>
      obtain ⟨T, hT, rfl⟩ := Option.map_eq_some_iff.1 h
      exact Or.inr ⟨_, _, hT⟩
  cases c with
  | «open» a => obtain ⟨M, -, rfl⟩ := Option.map_eq_some_iff.1 h; exact Or.inl rfl
  | close result fd => obtain ⟨M, -, rfl⟩ := Option.map_eq_some_iff.1 h; exact Or.inl rfl
  | mmap ret len prot file off =>
    obtain ⟨M, -, rfl⟩ := Option.map_eq_some_iff.1 h; exact Or.inl rfl
  | munmap addr => obtain ⟨M, -, rfl⟩ := Option.map_eq_some_iff.1 h; exact Or.inl rfl
  | memcpy dest src n => exact hcopy h
  | memcpyTraced dest src n => exact hc.elim
  | realloc ret ptr tail => exact hc.elim
  | read fd buf nbytes pos =>
    obtain ⟨⟨x, M⟩, -, h⟩ := Option.bind_eq_some_iff.1 h
    have hread := hcopy h
    exact hread
  | write buf length => cases h; exact Or.inl rfl
  | fwrite buf size n => cases h; exact Or.inl rfl
  | store addr b => cases h; exact Or.inl rfl

theorem remembers_step {c : Call} (hc : CutsNothing c) (h : RecTree.Remembers E.libc s.tree)
    (hstep : stepWith E (RecTree.steadyInsert E.libc) c s = some s') :
    RecTree.Remembers E.libc s'.tree := by
  rcases stepWith_tree_plain hc hstep with heq | ⟨ofa, call, hinsert⟩
  · rwa [heq]
  · exact h.insert hinsert

theorem remembers_initState (E : Env) (recMem : ℤ → MemRec) (recBlockEntries : ℕ → RecBlockEntry)
    (recTreeNodes : ℕ → RecTreeNode) (fileMapTreeNodes : ℕ → FileMapTreeNode) (mem : ℕ → UInt8) :
    RecTree.Remembers E.libc
      (initState E recMem recBlockEntries recTreeNodes fileMapTreeNodes mem).tree where
  rep := rep_initState
  pos _ hq := absurd hq List.not_mem_nil
  lists _ := AscendingTail.nil

theorem remembers_run {recMem : ℤ → MemRec} {recBlockEntries : ℕ → RecBlockEntry}
    {recTreeNodes : ℕ → RecTreeNode} {fileMapTreeNodes : ℕ → FileMapTreeNode} {mem : ℕ → UInt8}
    {cs : List Call} (hcs : ∀ c ∈ cs, CutsNothing c)
    (h : runAll (stepWith E (RecTree.steadyInsert E.libc)) cs
      (initState E recMem recBlockEntries recTreeNodes fileMapTreeNodes mem) = some s) :
    RecTree.Remembers E.libc s.tree :=
  runAll_invariant (P := fun s => RecTree.Remembers E.libc s.tree)
    (fun c hc _ _ hs hstep => remembers_step (hcs c hc) hs hstep)
    (remembers_initState E _ _ _ _ _) h

/-- After every run without cuts and reclaims the tree is in order and holds, for
each page, the longest ascending end of the insertions there. -/
theorem reachable_history {recMem : ℤ → MemRec} {recBlockEntries : ℕ → RecBlockEntry}
    {recTreeNodes : ℕ → RecTreeNode} {fileMapTreeNodes : ℕ → FileMapTreeNode} {mem : ℕ → UInt8}
    {cs : List Call} (hcs : ∀ c ∈ cs, CutsNothing c)
    (h : runAll (stepWith E (RecTree.steadyInsert E.libc)) cs
      (initState E recMem recBlockEntries recTreeNodes fileMapTreeNodes mem) = some s) :
    RecTree.Rep E.libc s.tree ∧
      ∀ page, AscendingTail MemRec.pageOffset (s.tree.historyOf page) (s.tree.pageLists page) :=
  ⟨(remembers_run hcs h).rep, (remembers_run hcs h).lists⟩

/-- Four copies to one page, of which the third goes back, and one to another page. -/
def goingBack : List Call := openAndMap 3 1 100 0x10000 0x1000 ++
  [.memcpy 0x500000 0x10000 8, .memcpy 0x500100 0x10008 8, .memcpy 0x500080 0x10010 8,
    .memcpy 0x600000 0x10000 8, .memcpy 0x500090 0x10018 8]

theorem reachable_history_goingBack : ∃ s,
    runAll (stepWith plainEnv (RecTree.steadyInsert plainLibc)) goingBack plainInit = some s ∧
    (s.tree.historyOf 0x500).length = 4 ∧ (s.tree.pageLists 0x500).length = 2 ∧
    AscendingTail MemRec.pageOffset (s.tree.historyOf 0x500) (s.tree.pageLists 0x500) := by
  have hrun : (runAll (stepWith plainEnv (RecTree.steadyInsert plainLibc)) goingBack
      plainInit).any fun s => decide ((s.tree.historyOf 0x500).length = 4 ∧
        (s.tree.pageLists 0x500).length = 2) := by
    decide +kernel
  obtain ⟨s, hs, hall⟩ := (Option.any_eq_true _ _).1 hrun
  obtain ⟨hlen, hlen'⟩ := of_decide_eq_true hall
  exact ⟨s, hs, hlen, hlen', (reachable_history (by decide) hs).2 0x500⟩

end Cidl
