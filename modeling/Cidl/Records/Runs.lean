import Cidl.Records.Invariant

/-!
# Runs that keep the record tree in order

The induction over runs.  `reachable_nodeInv` is the representation invariant in
every state that a run of safe calls from `init` reaches; `cutOlderBlock` is a
run with one unsafe call, a `ts_memcpy_traced` whose source begins in the older
of the two blocks of a page, after which the node does not append to its first
block any more.

`checkedStep` performs a call and fails unless it is safe; it is computable, so
a concrete run is shown to be safe by running it.
-/

namespace Cidl

open SearchTree

variable {E : Env} {s s' : State}

/-- A call succeeds with every insertion function that succeeds where another
one does, and with the same result. -/
theorem stepWith_mono {insert insert' : Insert}
    (hle : ∀ ofa c T T', insert ofa c T = some T' → insert' ofa c T = some T') {c : Call}
    (h : stepWith E insert c s = some s') : stepWith E insert' c s = some s' := by
  have hcopy : ∀ {dest src n fmNode} {s : State},
      copyRecorded insert dest src n fmNode s = some s' →
      copyRecorded insert' dest src n fmNode s = some s' := by
    intro dest src n fmNode s h
    cases fmNode with
    | none => exact h
    | some x =>
      obtain ⟨T, hT, rfl⟩ := Option.map_eq_some_iff.1 h
      exact Option.map_eq_some_iff.2 ⟨T, hle _ _ _ _ hT, rfl⟩
  cases c with
  | memcpy dest src n => exact hcopy h
  | memcpyTraced dest src n =>
    obtain ⟨T, hT, rfl⟩ := Option.map_eq_some_iff.1 h
    exact Option.map_eq_some_iff.2 ⟨T, RecTree.tsMemcpyTraced_mono (hle _) hT, rfl⟩
  | realloc ret ptr tail =>
    obtain ⟨T, hT, rfl⟩ := Option.map_eq_some_iff.1 h
    exact Option.map_eq_some_iff.2 ⟨T, RecTree.tsRealloc_mono (hle _) hT, rfl⟩
  | read fd buf nbytes pos =>
    obtain ⟨⟨x, M⟩, hfind, h⟩ := Option.bind_eq_some_iff.1 h
    exact Option.bind_eq_some_iff.2 ⟨(x, M), hfind, hcopy h⟩
  | _ => exact h

/-- A call, checked to be safe. -/
def checkedStep (E : Env) (c : Call) (s : State) : Option State :=
  if CallCutOk c s then stepWith E (RecTree.checkedInsert E.libc) c s else none

theorem checkedStep_eq_some {c : Call} (h : checkedStep E c s = some s') :
    SafeCall E c s ∧ step E c s = some s' := by
  unfold checkedStep at h
  split at h
  · rename_i hcut
    have hstep : step E c s = some s' :=
      stepWith_mono (fun _ _ _ _ h => (RecTree.checkedInsert_eq_some h).2) h
    exact ⟨⟨hcut, h.trans hstep.symm⟩, hstep⟩
  · cases h

theorem rep_initState {recMem : ℤ → MemRec} {recBlockEntries : ℕ → RecBlockEntry}
    {recTreeNodes : ℕ → RecTreeNode} {fileMapTreeNodes : ℕ → FileMapTreeNode} {mem : ℕ → UInt8} :
    RecTree.Rep E.libc
      (initState E recMem recBlockEntries recTreeNodes fileMapTreeNodes mem).tree where
  owned := RecTree.owned_initMemory _ _ _
  node _ hp := nomatch hp

/-- In every state that a run of safe calls reaches, every node is in order: it
appends to its first block, its index is in range, its other blocks are full,
and the offsets of its records ascend. -/
theorem reachable_nodeInv {recMem : ℤ → MemRec} {recBlockEntries : ℕ → RecBlockEntry}
    {recTreeNodes : ℕ → RecTreeNode} {fileMapTreeNodes : ℕ → FileMapTreeNode} {mem : ℕ → UInt8}
    {cs : List Call}
    (hsafe : Meets (SafeCall E) (step E) cs
      (initState E recMem recBlockEntries recTreeNodes fileMapTreeNodes mem))
    (h : runAll (step E) cs
      (initState E recMem recBlockEntries recTreeNodes fileMapTreeNodes mem) = some s) :
    ∀ p ∈ inorder s.tree.recTreeRoot, RecTree.NodeInv s.tree p := by
  have hrep : RecTree.Rep E.libc s.tree :=
    runAll_guarded (P := fun s => RecTree.Rep E.libc s.tree)
      (fun _ _ _ hrep hsafe h => rep_step hrep hsafe h) rep_initState hsafe h
  exact hrep.node

/-- A page with two blocks: one full, one with a single record. -/
def twoBlocks : List Call := openAndMap 3 1 100 0x10000 0x1000 ++
  (List.range 39).map fun i => .memcpy (0x500000 + 8 * i) 0x10000 8

/-- Moving the last record of that page, writing another one behind it, and then
clearing the page. -/
def moveLast : List Call := twoBlocks ++
  [.memcpyTraced 0x900000 0x500130 8, .memcpy 0x500138 0x10000 8, .memcpy 0x500000 0x10000 8]

theorem reachable_nodeInv_moveLast : ∃ s, plainRun moveLast = some s ∧
    (inorder s.tree.recTreeRoot).length = 2 ∧
    ∀ p ∈ inorder s.tree.recTreeRoot, RecTree.NodeInv s.tree p := by
  have hrun : (runAll (checkedStep plainEnv) moveLast plainInit).any fun s =>
      decide ((inorder s.tree.recTreeRoot).length = 2) := by
    decide +kernel
  obtain ⟨s, hs, hlen⟩ := (Option.any_eq_true _ _).1 hrun
  obtain ⟨hsafe, hrun⟩ := meets_of_checked (fun _ _ _ => checkedStep_eq_some) hs
  exact ⟨s, hrun, of_decide_eq_true hlen, reachable_nodeInv hsafe hrun⟩

/-- Moving the first records of that page: the cut leaves the older block as the
one the node appends to. -/
def cutOlderBlock : List Call := twoBlocks ++ [.memcpyTraced 0x900000 0x500000 100]

theorem cutOlderBlock_breaks : ∃ s, plainRun cutOlderBlock = some s ∧ Reachable plainEnv s ∧
    ∃ p ∈ inorder s.tree.recTreeRoot,
      s.tree.tailqFirst (s.tree.recTreeNodes p).listHead ≠
        some (s.tree.recTreeNodes p).recModEntry ∧ ¬ RecTree.NodeInv s.tree p := by
  have hrun : (plainRun cutOlderBlock).any fun s => (inorder s.tree.recTreeRoot).any fun p =>
      decide (s.tree.tailqFirst (s.tree.recTreeNodes p).listHead ≠
        some (s.tree.recTreeNodes p).recModEntry) := by
    decide +kernel
  obtain ⟨s, hs, hany⟩ := (Option.any_eq_true _ _).1 hrun
  obtain ⟨p, hp, hne⟩ := List.any_eq_true.1 hany
  have hfirst := of_decide_eq_true hne
  exact ⟨s, hs, reachable_plainRun hs, p, hp, hfirst, fun hinv => hfirst hinv.first⟩

end Cidl
