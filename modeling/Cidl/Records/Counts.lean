import Cidl.Model.Api
import Cidl.Records.Ownership
import Cidl.Records.Walk

/-!
# No tracking object is lost or shared

The ownership invariant along whole runs of the library: every call keeps it
(`owned_step`), so it holds in every reachable state (`reachable_owned`).
Counting the objects gives `reachable_counts`: what has been taken from the four
pools is exactly what hangs in the tree.
-/

namespace Cidl

open SearchTree Shape

variable {E : Env} {s s' : State}

/-- What a call does to the record tree: nothing, one insertion of a record of a
mapping, or one of the two loops of insertions. -/
theorem stepWith_tree_record {insert : Insert} {c : Call} (h : stepWith E insert c s = some s') :
    s'.tree = s.tree ∨
    (∃ (ofa : ℤ → Option ℕ) (M : FileMaps) (x dest src : ℕ),
      insert ofa (M.recordCall x dest src) s.tree = some s'.tree) ∨
    (∃ ofa dest src n, c = .memcpyTraced dest src n ∧
      s.tree.tsMemcpyTraced E.libc (insert ofa) E.fuel dest src n = some s'.tree) ∨
    (∃ ofa ret ptr tail, s.tree.tsRealloc E.libc (insert ofa) E.fuel ret ptr tail =
      some s'.tree) := by
  have hcopy : ∀ {dest src n fmNode} {s : State},
      copyRecorded insert dest src n fmNode s = some s' → s'.tree = s.tree ∨
        ∃ (ofa : ℤ → Option ℕ) (M : FileMaps) (x dest src : ℕ),
          insert ofa (M.recordCall x dest src) s.tree = some s'.tree := by
    intro dest src n fmNode s h
    cases fmNode with
    | none => cases h; exact Or.inl rfl
    | some x =>
      obtain ⟨T, hT, rfl⟩ := Option.map_eq_some_iff.1 h
      exact Or.inr ⟨_, _, _, _, _, hT⟩
  cases c with
  | «open» a => obtain ⟨M, -, rfl⟩ := Option.map_eq_some_iff.1 h; exact Or.inl rfl
  | close result fd => obtain ⟨M, -, rfl⟩ := Option.map_eq_some_iff.1 h; exact Or.inl rfl
  | mmap ret len prot file off =>
    obtain ⟨M, -, rfl⟩ := Option.map_eq_some_iff.1 h; exact Or.inl rfl
  | munmap addr => obtain ⟨M, -, rfl⟩ := Option.map_eq_some_iff.1 h; exact Or.inl rfl
  | memcpy dest src n => exact (hcopy h).imp_right Or.inl
  | memcpyTraced dest src n =>
    obtain ⟨T, hT, rfl⟩ := Option.map_eq_some_iff.1 h
    exact Or.inr (Or.inr (Or.inl ⟨_, _, _, _, rfl, hT⟩))
  | realloc ret ptr tail =>
    obtain ⟨T, hT, rfl⟩ := Option.map_eq_some_iff.1 h
    exact Or.inr (Or.inr (Or.inr ⟨_, _, _, _, hT⟩))
  | read fd buf nbytes pos =>
    obtain ⟨⟨x, M⟩, -, h⟩ := Option.bind_eq_some_iff.1 h
    exact (hcopy h).imp_right Or.inl
  | write buf length => cases h; exact Or.inl rfl
  | fwrite buf size n => cases h; exact Or.inl rfl
  | store addr b => cases h; exact Or.inl rfl

/-- The same where it does not matter what the one record is of. -/
theorem stepWith_tree {insert : Insert} {c : Call} (h : stepWith E insert c s = some s') :
    s'.tree = s.tree ∨
    (∃ ofa call, insert ofa call s.tree = some s'.tree) ∨
    (∃ ofa dest src n, c = .memcpyTraced dest src n ∧
      s.tree.tsMemcpyTraced E.libc (insert ofa) E.fuel dest src n = some s'.tree) ∨
    (∃ ofa ret ptr tail, s.tree.tsRealloc E.libc (insert ofa) E.fuel ret ptr tail =
      some s'.tree) := by
  rcases stepWith_tree_record h with h | ⟨ofa, M, x, dest, src, h⟩ | h
  · exact Or.inl h
  · exact Or.inr (Or.inl ⟨ofa, _, h⟩)
  · exact Or.inr (Or.inr h)

/-- Every call keeps the ownership invariant. -/
theorem owned_step {c : Call} (ho : Owned E.libc s.tree.shape) (h : step E c s = some s') :
    Owned E.libc s'.tree.shape := by
  have hins : ∀ ofa c T T', RecTree.Copies c T → Owned E.libc (RecTree.shape T) →
      RecTree.insertRec E.libc ofa c T = some T' → Owned E.libc T'.shape :=
    fun _ _ _ _ _ ho h => RecTree.owned_insertRec ho h
  rcases stepWith_tree h with heq | ⟨ofa, call, h⟩ | ⟨ofa, dest, src, n, -, h⟩ |
    ⟨ofa, ret, ptr, tail, h⟩
  · rwa [heq]
  · exact RecTree.owned_insertRec ho h
  · refine RecTree.tsMemcpyTraced_invariant (P := fun T => Owned E.libc T.shape) (hins ofa) ho ?_ h
    intro node e idx _ _ _
    simpa using ho
  · exact RecTree.tsRealloc_invariant (P := fun T => Owned E.libc T.shape) (hins ofa) ho h

theorem reachable_owned (h : Reachable E s) : Owned E.libc s.tree.shape := by
  obtain ⟨recMem, entries, nodes, maps, mem, cs, h⟩ := h
  exact runAll_invariant (P := fun s => Owned E.libc s.tree.shape)
    (fun _ _ _ _ ho h => owned_step ho h) (RecTree.owned_initMemory _ _ _) h

/-- In every reachable state the nodes taken from their pool, the queue heads
taken and the nodes of the tree are equally many, and so are the block entries
taken, the record arrays taken and the blocks of all queues together. -/
theorem reachable_counts (h : Reachable E s) :
    s.tree.recTreeNodePool.taken = s.tree.tailHeadPool.taken ∧
    s.tree.recTreeNodePool.taken = (inorder s.tree.recTreeRoot).length ∧
    s.tree.recBlockEntryPool.taken = s.tree.recArrPool.taken ∧
    s.tree.recBlockEntryPool.taken = ((inorder s.tree.recTreeRoot).map fun p =>
      (s.tree.tailheads (s.tree.recTreeNodes p).listHead).length).sum := by
  have hc := (reachable_owned h).counts
  exact ⟨hc.nodes.trans hc.heads.symm, hc.nodes, hc.entries.trans hc.arrays.symm, hc.entries⟩

/-- Two copies to one page and one to another. -/
def twoPages : List Call := openAndMap 3 1 100 0x10000 0x1000 ++
  [.memcpy 0x500000 0x10000 8, .memcpy 0x500008 0x10010 8, .memcpy 0x600000 0x10000 8]

theorem reachable_counts_twoPages : ∃ s, plainRun twoPages = some s ∧
    s.tree.recTreeNodePool.taken = 2 ∧
    (s.tree.recTreeNodePool.taken = s.tree.tailHeadPool.taken ∧
    s.tree.recTreeNodePool.taken = (inorder s.tree.recTreeRoot).length ∧
    s.tree.recBlockEntryPool.taken = s.tree.recArrPool.taken ∧
    s.tree.recBlockEntryPool.taken = ((inorder s.tree.recTreeRoot).map fun p =>
      (s.tree.tailheads (s.tree.recTreeNodes p).listHead).length).sum) := by
  have hrun : (plainRun twoPages).any fun s => decide (s.tree.recTreeNodePool.taken = 2) := by
    decide +kernel
  obtain ⟨s, hs, htaken⟩ := (Option.any_eq_true _ _).1 hrun
  exact ⟨s, hs, of_decide_eq_true htaken, reachable_counts (reachable_plainRun hs)⟩

end Cidl
