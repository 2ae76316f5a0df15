import Cidl.Model.Insert
import Cidl.Records.Shape

/-!
# No object is lost or shared

`insertRec` keeps the ownership invariant of the tree's shape, whatever reclaims
and pool growths it triggers (`owned_insertRec`), and the invariant holds at the
beginning (`owned_initMemory`).  From it the numbers of objects taken from the
pools can be read off (`Owned.counts`).

Blocks are always given back from the front of a queue.  `Withdrawn` says what
is left unchanged by that, for the loop of `insertRec` and for the one of the
reclaimer alike.
-/

namespace Cidl

open SearchTree Shape

/-! ## The counts -/

/-- The number of objects taken from a pool and not given back. -/
def Pool.taken (p : Pool) : ℤ := (p.size : ℤ) - p.idx

theorem Pool.Owns.taken_eq {width first : ℕ} {S : Slabs width first} {p : Pool} {used : List ℕ}
    (h : p.Owns S used) : p.taken = used.length := by
  have := h.card
  simp only [Pool.taken, Pool.idx]
  omega

/-- What ownership says about numbers: nodes and heads taken are the nodes of
the tree, entries and arrays taken are the blocks of its queues. -/
structure Counts (S : Shape) : Prop where
  nodes : S.nodePool.taken = S.nodes.length
  heads : S.headPool.taken = S.nodes.length
  entries : S.entryPool.taken = (S.nodes.map fun p => (S.blocks p).length).sum
  arrays : S.arrPool.taken = (S.nodes.map fun p => (S.blocks p).length).sum

theorem Shape.Owned.counts {L : Libc} {S : Shape} (h : Owned L S) : Counts S where
  nodes := h.node.taken_eq
  heads := by rw [h.head.taken_eq, heads, List.length_map]
  entries := by rw [h.entry.taken_eq, entries, List.length_flatMap]
  arrays := by rw [h.arr.taken_eq, arrays, List.length_map, entries, List.length_flatMap]

namespace RecTree

variable {L : Libc} {T T' : RecTree} {ofa : ℤ → Option ℕ}

/-! ## Giving blocks back -/

/-- `T'` is `T` after the blocks `pre` at the front of the queue `h` were given
back, leaving `post`. -/
structure Withdrawn (h : ℕ) (pre post : List ℕ) (T T' : RecTree) : Prop where
  tailheads : T'.tailheads = Function.update T.tailheads h post
  entries : ∀ f, f ∉ pre → T'.recBlockEntries f = T.recBlockEntries f
  recMem : T'.recMem = T.recMem
  recTreeNodes : T'.recTreeNodes = T.recTreeNodes
  recTreeRoot : T'.recTreeRoot = T.recTreeRoot
  nodePool : T'.recTreeNodePool = T.recTreeNodePool
  headPool : T'.tailHeadPool = T.tailHeadPool
  threshold : T'.recTreeNodeThreshold = T.recTreeNodeThreshold
  walks : T'.walks = T.walks
  calls : T'.calls = T.calls

theorem Withdrawn.refl (h : ℕ) : Withdrawn h [] (T.tailheads h) T T where
  tailheads := (Function.update_eq_self ..).symm
  entries _ _ := rfl
  recMem := rfl
  recTreeNodes := rfl
  recTreeRoot := rfl
  nodePool := rfl
  headPool := rfl
  threshold := rfl
  walks := rfl
  calls := rfl

/-- One block given back: ownership stays, and `Withdrawn` grows by it. -/
theorem owned_withdrawBlock (ho : Owned L T.shape) {p : ℕ} (hp : p ∈ T.nodes) {e : ℕ}
    {rest : List ℕ} (hb : T.blocks p = e :: rest)
    (h : T.withdrawBlock (T.recTreeNodes p).listHead e = some T') :
    Owned L T'.shape ∧ Withdrawn (T.recTreeNodes p).listHead [e] rest T T' := by
  obtain ⟨ap, ep, ha, he, rfl⟩ := withdrawBlock_eq_some.1 h
  have hq : T.tailheads (T.recTreeNodes p).listHead = e :: rest := hb
  have herase : (T.tailheads (T.recTreeNodes p).listHead).erase e = rest := by
    rw [hq, List.erase_cons_head]
  constructor
  · have hshape : ({ T.tailqRemove (T.recTreeNodes p).listHead e with
        recArrPool := ap, recBlockEntryPool := ep } : RecTree).shape =
        T.shape.removeBlock p e rest ep ap := by
      simp [tailqRemove, setQueue, setEntry, shape, removeBlock, herase, Function.comp_update]
    rw [hshape]
    exact ho.block_gone hp hb he ha
  · refine { tailheads := ?_, entries := ?_, recMem := rfl, recTreeNodes := rfl, recTreeRoot := rfl,
             nodePool := rfl, headPool := rfl, threshold := rfl, walks := rfl, calls := rfl }
    · simp [tailqRemove, setQueue, setEntry, herase]
    · intro f hf
      exact Function.update_of_ne (by simpa using hf) _ _

theorem Withdrawn.nodes {h : ℕ} {pre post : List ℕ} (w : Withdrawn h pre post T T') :
    T'.nodes = T.nodes := by
  simp only [RecTree.nodes, Shape.nodes, shape, w.recTreeRoot]

theorem Withdrawn.blocks {p : ℕ} {pre post : List ℕ}
    (w : Withdrawn (T.recTreeNodes p).listHead pre post T T') : T'.blocks p = post := by
  simp [RecTree.blocks, Shape.blocks, shape, w.tailheads, w.recTreeNodes]

theorem Withdrawn.trans {h : ℕ} {pre pre' post post' : List ℕ} {T'' : RecTree}
    (w : Withdrawn h pre post T T') (w' : Withdrawn h pre' post' T' T'') :
    Withdrawn h (pre ++ pre') post' T T'' where
  tailheads := by rw [w'.tailheads, w.tailheads, Function.update_idem]
  entries f hf := by
    rw [List.mem_append, not_or] at hf
    rw [w'.entries f hf.2, w.entries f hf.1]
  recMem := w'.recMem.trans w.recMem
  recTreeNodes := w'.recTreeNodes.trans w.recTreeNodes
  recTreeRoot := w'.recTreeRoot.trans w.recTreeRoot
  nodePool := w'.nodePool.trans w.nodePool
  headPool := w'.headPool.trans w.headPool
  threshold := w'.threshold.trans w.threshold
  walks := w'.walks.trans w.walks
  calls := w'.calls.trans w.calls

/-- Give back the blocks `es` of a queue, in this order. -/
def withdrawBlocks (head : ℕ) (es : List ℕ) (T : RecTree) : Option RecTree :=
  runAll (fun e U => U.withdrawBlock head e) es T

/-- The blocks at the front of a queue given back one after the other. -/
theorem owned_withdrawBlocks (ho : Owned L T.shape) {p : ℕ} (hp : p ∈ T.nodes)
    {pre post : List ℕ} (hb : T.blocks p = pre ++ post)
    (h : withdrawBlocks (T.recTreeNodes p).listHead pre T = some T') :
    Owned L T'.shape ∧ Withdrawn (T.recTreeNodes p).listHead pre post T T' := by
  induction pre generalizing T with
  | nil =>
    cases h
    refine ⟨ho, ?_⟩
    rw [List.nil_append] at hb
    exact hb ▸ Withdrawn.refl _
  | cons e pre ih =>
    obtain ⟨U, hU, hrest⟩ := runAll_cons_eq_some.1 h
    obtain ⟨hoU, wU⟩ := owned_withdrawBlock ho hp hb hU
    rw [← wU.recTreeNodes] at hrest
    obtain ⟨ho', w'⟩ := ih hoU (wU.nodes ▸ hp) wU.blocks hrest
    rw [wU.recTreeNodes] at w'
    exact ⟨ho', wU.trans w'⟩

/-- The loop of `insertRec` gives back all blocks but the last. -/
theorem withdrawNewer_eq (head : ℕ) (es : List ℕ) (T : RecTree) :
    withdrawNewer head es T = withdrawBlocks head es.dropLast T := by
  induction es generalizing T with
  | nil => rfl
  | cons e es ih =>
    cases es with
    | nil => rfl
    | cons e' es =>
      rw [withdrawNewer, List.dropLast_cons_cons, withdrawBlocks, runAll_cons]
      exact Option.bind_congr fun U _ => ih U

/-- The loop of the reclaimer gives back the blocks in front of `keepEnt`. -/
theorem withdrawUntil_eq_some {head keepEnt : ℕ} {es : List ℕ}
    (h : withdrawUntil head keepEnt es T = some T') :
    ∃ pre post, es = pre ++ keepEnt :: post ∧ withdrawBlocks head pre T = some T' := by
  induction es generalizing T with
  | nil => cases h
  | cons e es ih =>
    rw [withdrawUntil] at h
    split at h
    · rename_i heq
      exact ⟨[], es, by rw [heq]; rfl, h⟩
    · obtain ⟨U, hU, hrest⟩ := Option.bind_eq_some_iff.1 h
      obtain ⟨pre, post, rfl, hrun⟩ := ih hrest
      exact ⟨e :: pre, post, rfl, runAll_cons_eq_some.2 ⟨U, hU, hrun⟩⟩

/-! ## Adding nodes and blocks -/

/-- The state after `newTreeNode` has taken its four objects. -/
def withNode (L : Libc) (pageNum p head e arr : ℕ) (nodePool headPool entryPool arrPool : Pool)
    (T : RecTree) : RecTree :=
  { T with
    recBlockEntries := Function.update T.recBlockEntries e
      { recArr := arr, queue := some head, filled := 0 }
    tailheads := Function.update T.tailheads head [e]
    recTreeNodes := Function.update T.recTreeNodes p
      { pageNum := pageNum, listHead := head, recModEntry := e, memRecIdx := 0 }
    recTreeRoot := L.search.tsearch (byKey (fun q => (Function.update T.recTreeNodes p
      { pageNum := pageNum, listHead := head, recModEntry := e, memRecIdx := 0 } q).pageNum)
      pageNum) p T.recTreeRoot
    recTreeNodePool := nodePool
    tailHeadPool := headPool
    recBlockEntryPool := entryPool
    recArrPool := arrPool }

theorem newTreeNode_eq_some {pageNum p : ℕ} (h : newTreeNode L pageNum T = some (p, T')) :
    ∃ head e arr nodePool headPool entryPool arrPool,
      T.recTreeNodePool.pop = some (p, nodePool) ∧
      T.tailHeadPool.take L.headSlabs = some (head, headPool) ∧
      T.recBlockEntryPool.take L.entrySlabs = some (e, entryPool) ∧
      T.recArrPool.take L.arrSlabs = some (arr, arrPool) ∧
      T' = withNode L pageNum p head e arr nodePool headPool entryPool arrPool T := by
  simp only [newTreeNode, allocateRecTreeNode, allocateTailHead, allocateRecBlockEntry,
    allocateMemRecArr, Option.bind_eq_bind, Option.bind_eq_some_iff, Option.map_eq_some_iff] at h
  obtain ⟨-, ⟨⟨p, np⟩, hn, rfl⟩, -, ⟨⟨head, hp⟩, hh, rfl⟩, -, ⟨⟨e, ep⟩, he, rfl⟩, -,
    ⟨⟨arr, ap⟩, ha, rfl⟩, hfin⟩ := h
  simp only [Option.some.injEq, Prod.mk.injEq] at hfin
  obtain ⟨rfl, rfl⟩ := hfin
  refine ⟨head, e, arr, np, hp, ep, ap, hn, hh, he, ha, ?_⟩
  simp only [withNode, tailqInit, setQueue, setEntry, setNode, setCursor, tailqInsertHead,
    Function.update_idem, Function.update_self]

theorem owned_newTreeNode (ho : Owned L T.shape) {pageNum p : ℕ}
    (hnew : T.findNode pageNum = none) (h : newTreeNode L pageNum T = some (p, T')) :
    Owned L T'.shape ∧ T'.nodes.Perm (p :: T.nodes) := by
  obtain ⟨head, e, arr, np, hp, ep, ap, hn, hh, he, ha, rfl⟩ := newTreeNode_eq_some h
  have hkey : (fun q => (Function.update T.recTreeNodes p
      { pageNum := pageNum, listHead := head, recModEntry := e, memRecIdx := 0 } q).pageNum) =
      Function.update T.shape.pageNum p pageNum := by
    funext q
    by_cases hq : q = p <;> simp [hq, shape]
  have hshape : (withNode L pageNum p head e arr np hp ep ap T).shape =
      T.shape.addNode L pageNum p head e arr np hp ep ap := by
    simp only [withNode, hkey]
    simp [shape, addNode, Function.comp_update]
  rw [RecTree.nodes, hshape]
  exact ho.node_added ((tfind_byKey_none ho.sorted _).1 hnew) hn hh he ha

/-- The state after `writeRec` has put a new block in front of a node. -/
def withBlock (r : MemRec) (p e arr : ℕ) (entryPool arrPool : Pool) (T : RecTree) : RecTree :=
  { T with
    recMem := Function.update T.recMem arr r
    recBlockEntries := Function.update T.recBlockEntries e
      { recArr := arr, queue := some (T.recTreeNodes p).listHead, filled := 1 }
    tailheads := Function.update T.tailheads (T.recTreeNodes p).listHead
      (e :: T.tailheads (T.recTreeNodes p).listHead)
    recTreeNodes := Function.update T.recTreeNodes p
      { T.recTreeNodes p with recModEntry := e, memRecIdx := 1 }
    recBlockEntryPool := entryPool
    recArrPool := arrPool }

/-- The two ways `writeRec` can succeed. -/
theorem writeRec_eq_some {c : InsertCall} {pageNum p : ℕ} (hp : T.findNode pageNum = some p)
    (h : writeRec L c pageNum p T = some T') :
    ((T.recTreeNodes p).memRecIdx < memRecPerEntry ∧
      T' = (T.setRec (T.curArr p + (T.recTreeNodes p).memRecIdx) (recordOf c pageNum)).setCursor p
        (T.recTreeNodes p).recModEntry ((T.recTreeNodes p).memRecIdx + 1)) ∨
    ((memRecPerEntry : ℤ) ≤ (T.recTreeNodes p).memRecIdx ∧ ∃ e arr entryPool arrPool,
      T.recBlockEntryPool.take L.entrySlabs = some (e, entryPool) ∧
      T.recArrPool.take L.arrSlabs = some (arr, arrPool) ∧
      T' = withBlock (recordOf c pageNum) p e arr entryPool arrPool T) := by
  simp only [writeRec] at h
  split at h
  · rename_i hidx
    cases h
    exact Or.inl ⟨hidx, rfl⟩
  · rename_i hidx
    refine Or.inr ⟨Int.not_lt.1 hidx, ?_⟩
    simp only [hp, allocateRecBlockEntry, allocateMemRecArr, Option.bind_eq_bind,
      Option.bind_eq_some_iff, Option.map_eq_some_iff, Option.some.injEq] at h
    obtain ⟨-, rfl, -, ⟨⟨arr, ap⟩, ha, rfl⟩, -, ⟨⟨e, ep⟩, he, rfl⟩, rfl⟩ := h
    refine ⟨e, arr, ep, ap, he, ha, ?_⟩
    simp only [withBlock, setQueue, setEntry, setNode, setCursor, setRec, tailqInsertHead,
      Function.update_idem, Function.update_self]

theorem mem_nodes_of_findNode {pageNum p : ℕ} (h : T.findNode pageNum = some p) : p ∈ T.nodes :=
  (tfind_eq_some h).1

theorem owned_writeRec (ho : Owned L T.shape) {c : InsertCall} {pageNum p : ℕ}
    (hp : T.findNode pageNum = some p) (h : writeRec L c pageNum p T = some T') :
    Owned L T'.shape := by
  rcases writeRec_eq_some hp h with ⟨-, rfl⟩ | ⟨-, e, arr, ep, ap, he, ha, rfl⟩
  · simpa using ho
  · have hshape : (withBlock (recordOf c pageNum) p e arr ep ap T).shape =
        T.shape.addBlock p e arr ep ap := by
      simp [withBlock, shape, addBlock, Function.comp_update]
    rw [hshape]
    exact ho.block_added (mem_nodes_of_findNode hp) he ha

/-! ## Clearing a page -/

/-- What `clearPage` runs: nothing, or it gives back all blocks of the node but
the oldest one and sets the cursor to the beginning of that. -/
theorem clearPage_run {p dest : ℕ} (h : clearPage p dest T = some T') :
    0 ≤ (T.recTreeNodes p).memRecIdx ∧ ((¬ T.mustClear p dest ∧ T' = T) ∨
      (T.mustClear p dest ∧ ∃ U oldest,
        withdrawBlocks (T.recTreeNodes p).listHead (T.blocks p).dropLast T = some U ∧
        U.tailqFirst (T.recTreeNodes p).listHead = some oldest ∧ T' = U.setCursor p oldest 0)) := by
  unfold clearPage at h
  split at h
  · cases h
  · rename_i hidx
    refine ⟨Int.not_lt.1 hidx, ?_⟩
    split at h
    · rename_i hclear
      simp only [Option.bind_eq_bind, Option.bind_eq_some_iff, Option.some.injEq] at h
      obtain ⟨U, hU, oldest, hfirst, rfl⟩ := h
      rw [withdrawNewer_eq] at hU
      exact Or.inr ⟨hclear, U, oldest, hU, hfirst, rfl⟩
    · rename_i hclear
      cases h
      exact Or.inl ⟨hclear, rfl⟩

/-- The blocks of the node, when it is cleared. -/
theorem clearPage_blocks (ho : Owned L T.shape) {p dest : ℕ} (hp : p ∈ T.nodes)
    (h : clearPage p dest T = some T') :
    (¬ T.mustClear p dest ∧ T' = T) ∨
      (T.mustClear p dest ∧ ∃ newer oldest U, T.blocks p = newer ++ [oldest] ∧
        withdrawBlocks (T.recTreeNodes p).listHead newer T = some U ∧
        T' = U.setCursor p oldest 0) := by
  obtain ⟨-, hkeep | ⟨hclear, U, oldest, hU, hfirst, rfl⟩⟩ := clearPage_run h
  · exact Or.inl hkeep
  · refine Or.inr ⟨hclear, ?_⟩
    rcases List.eq_nil_or_concat' (T.blocks p) with hb | ⟨newer, oldest', hb⟩
    · rw [hb] at hU
      cases hU
      rw [tailqFirst, show T.tailheads (T.recTreeNodes p).listHead = [] from hb] at hfirst
      cases hfirst
    · rw [hb, List.dropLast_concat] at hU
      obtain ⟨-, w⟩ := owned_withdrawBlocks ho hp hb hU
      rw [tailqFirst, w.tailheads, Function.update_self] at hfirst
      cases hfirst
      exact ⟨newer, _, U, hb, hU, rfl⟩

/-- What is left after that. -/
theorem clearPage_eq_some (ho : Owned L T.shape) {p dest : ℕ} (hp : p ∈ T.nodes)
    (h : clearPage p dest T = some T') :
    0 ≤ (T.recTreeNodes p).memRecIdx ∧ ((¬ T.mustClear p dest ∧ T' = T) ∨
      (T.mustClear p dest ∧ ∃ newer oldest U, T.blocks p = newer ++ [oldest] ∧
        Withdrawn (T.recTreeNodes p).listHead newer [oldest] T U ∧ Owned L U.shape ∧
        T' = U.setCursor p oldest 0)) := by
  refine ⟨(clearPage_run h).1, ?_⟩
  rcases clearPage_blocks ho hp h with hkeep | ⟨hclear, newer, oldest, U, hb, hU, rfl⟩
  · exact Or.inl hkeep
  · obtain ⟨hoU, w⟩ := owned_withdrawBlocks ho hp hb hU
    exact Or.inr ⟨hclear, newer, oldest, U, hb, w, hoU, rfl⟩

theorem owned_clearPage (ho : Owned L T.shape) {p dest : ℕ} (hp : p ∈ T.nodes)
    (h : clearPage p dest T = some T') :
    Owned L T'.shape ∧ T'.nodes = T.nodes ∧ T'.shape.pageNum = T.shape.pageNum ∧
      T'.recTreeRoot = T.recTreeRoot := by
  obtain ⟨-, ⟨-, rfl⟩ | ⟨-, newer, oldest, U, -, w, hoU, rfl⟩⟩ := clearPage_eq_some ho hp h
  · exact ⟨ho, rfl, rfl, rfl⟩
  · refine ⟨by simpa using hoU, by simp [RecTree.nodes, ← w.nodes], ?_, w.recTreeRoot⟩
    simp only [shape_setCursor]
    simp only [shape, w.recTreeNodes]

/-- Clearing a page keeps its node. -/
theorem findNode_clearPage (ho : Owned L T.shape) {p page dest : ℕ}
    (hp : T.findNode page = some p) (h : clearPage p dest T = some T') :
    T'.findNode page = some p := by
  obtain ⟨-, -, hpage, hroot⟩ := owned_clearPage ho (mem_nodes_of_findNode hp) h
  rw [← hp, findNode, hroot]
  exact congrArg (fun key => tfind (byKey key page) T.recTreeRoot) hpage

/-! ## Reclaiming garbage -/

/-- The compaction loop moves records and cursors only. -/
theorem shape_reclaimLoop {node fuel : ℕ} {keep search : Cursor}
    (h : reclaimLoop ofa node fuel keep search T = some T') : T'.shape = T.shape := by
  induction fuel generalizing keep search T with
  | zero =>
    rw [reclaimLoop] at h
    split at h <;> cases h
    rfl
  | succ fuel ih =>
    rw [reclaimLoop] at h
    split at h
    · cases h
      rfl
    · simp only [Option.bind_eq_bind] at h
      split at h
      · split at h
        · obtain ⟨search', -, h⟩ := Option.bind_eq_some_iff.1 h
          exact ih h
        · obtain ⟨keeped, -, h⟩ := Option.bind_eq_some_iff.1 h
          obtain ⟨keep', -, h⟩ := Option.bind_eq_some_iff.1 h
          obtain ⟨search', -, h⟩ := Option.bind_eq_some_iff.1 h
          rw [ih h, shape_setRec]
      · obtain ⟨keepEnt, -, h⟩ := Option.bind_eq_some_iff.1 h
        obtain ⟨keep', -, h⟩ := Option.bind_eq_some_iff.1 h
        obtain ⟨search', -, h⟩ := Option.bind_eq_some_iff.1 h
        rw [ih h, shape_setCursor]

/-- What `compactNode` does after its loop. -/
theorem compactNode_eq_some (ho : Owned L T.shape) {p : ℕ} (hp : p ∈ T.nodes)
    (h : compactNode ofa p T = some T') :
    ∃ ent U newer older, T.tailqLast (T.recTreeNodes p).listHead = some ent ∧
      reclaimLoop ofa p ((T.blocks p).length * 32768) (T.enterBlock p ent) (T.enterBlock p ent) T =
        some U ∧
      T.blocks p = newer ++ (U.recTreeNodes p).recModEntry :: older ∧ Owned L T'.shape ∧
      Withdrawn (U.recTreeNodes p).listHead newer
        ((U.recTreeNodes p).recModEntry :: older) U T' := by
  simp only [compactNode, Option.bind_eq_bind, Option.bind_eq_some_iff] at h
  obtain ⟨ent, hent, U, hU, h⟩ := h
  have hshape := shape_reclaimLoop hU
  obtain ⟨newer, older, hq, hrun⟩ := withdrawUntil_eq_some h
  have hlist : (U.recTreeNodes p).listHead = (T.recTreeNodes p).listHead :=
    congrFun (congrArg Shape.listHead hshape) p
  have hb : U.blocks p = newer ++ (U.recTreeNodes p).recModEntry :: older := by
    rw [← hq]
    exact congrArg U.tailheads hlist
  have hoU : Owned L U.shape := by rwa [hshape]
  have hpU : p ∈ U.nodes := by rwa [RecTree.nodes, hshape]
  rw [← hlist] at hrun
  obtain ⟨ho', w⟩ := owned_withdrawBlocks hoU hpU hb hrun
  exact ⟨ent, U, newer, older, hent, hU, by rw [← hb, RecTree.blocks, ← hshape], ho', w⟩

/-- `T'` has no node that `T` does not have, and its nodes kept their pages. -/
def Shrunk (T T' : RecTree) : Prop :=
  ∀ q ∈ T'.nodes, q ∈ T.nodes ∧ (T'.recTreeNodes q).pageNum = (T.recTreeNodes q).pageNum

theorem Shrunk.trans {T'' : RecTree} (h : Shrunk T T') (h' : Shrunk T' T'') : Shrunk T T'' :=
  fun q hq => ⟨(h q (h' q hq).1).1, (h' q hq).2.trans (h q (h' q hq).1).2⟩

theorem shrunk_of_eq (hroot : T'.recTreeRoot = T.recTreeRoot)
    (hpage : T'.shape.pageNum = T.shape.pageNum) : Shrunk T T' := by
  intro q hq
  refine ⟨?_, congrFun hpage q⟩
  rwa [RecTree.nodes, Shape.nodes, show T'.shape.root = T.shape.root from hroot] at hq

theorem Shrunk.findNode_none (ho : Owned L T.shape) (ho' : Owned L T'.shape) (h : Shrunk T T')
    {pageNum : ℕ} (hn : T.findNode pageNum = none) : T'.findNode pageNum = none := by
  refine (tfind_byKey_none ho'.sorted _).2 fun q hq => ?_
  rw [show T'.shape.pageNum q = T.shape.pageNum q from (h q hq).2]
  exact (tfind_byKey_none ho.sorted _).1 hn q (h q hq).1

theorem owned_withdrawNode (ho : Owned L T.shape) {p e : ℕ} (hp : p ∈ T.nodes)
    (hb : T.blocks p = [e]) (h : withdrawNode L p e T = some T') :
    Owned L T'.shape ∧ Shrunk T T' ∧ p ∉ T'.nodes := by
  simp only [withdrawNode, withdrawTailHead, withdrawRecTreeNode, Option.bind_eq_bind,
    Option.bind_eq_some_iff, Option.map_eq_some_iff, Option.some.injEq] at h
  obtain ⟨U, hU, -, ⟨hpool, hh, rfl⟩, -, ⟨npool, hn, rfl⟩, rfl⟩ := h
  obtain ⟨hoU, w⟩ := owned_withdrawBlock ho hp hb hU
  rw [← w.recTreeNodes] at hh
  have hpage : (T.recTreeNodes p).pageNum = U.shape.pageNum p := by
    rw [← w.recTreeNodes]
    rfl
  have hpU : p ∈ U.nodes := by rwa [w.nodes]
  rw [hpage]
  have hfind : tfind (byKey U.shape.pageNum (U.shape.pageNum p)) U.recTreeRoot = some p :=
    (tfind_byKey hoU.sorted _ p).2 ⟨hpU, rfl⟩
  have hmem := fun q => (L.search.mem_tdelete hfind hoU.nodup_nodes q).1
  refine ⟨?_, fun q hq => ?_, fun hp' => (hmem p hp').2 rfl⟩
  · have hgone := hoU.node_gone hpU w.blocks hh hn
    convert hgone using 1
    simp [shape, setNode, removeNode, Function.comp_update]
    rfl
  · obtain ⟨hqU, hne⟩ := hmem q hq
    refine ⟨w.nodes ▸ hqU, ?_⟩
    simp only [setNode, Function.update_of_ne hne, w.recTreeNodes]

theorem owned_reclaimRecTreeNode (ho : Owned L T.shape) {p : ℕ}
    (h : reclaimRecTreeNode L ofa p T = some T') : Owned L T'.shape ∧ Shrunk T T' := by
  unfold reclaimRecTreeNode at h
  split at h
  · rename_i hp
    unfold reclaimSpecialRecTreeNode at h
    split at h
    · cases h
    · rename_i e rest hq
      split at h
      · rename_i hempty
        rw [hempty.2] at hq
        obtain ⟨ho', hs, -⟩ := owned_withdrawNode ho hp hq h
        exact ⟨ho', hs⟩
      · obtain ⟨_, U, _, _, -, hU, -, ho', w⟩ := compactNode_eq_some ho hp h
        have hshape := shape_reclaimLoop hU
        refine ⟨ho', shrunk_of_eq ?_ ?_⟩
        · rw [w.recTreeRoot]
          exact congrArg Shape.root hshape
        · rw [← hshape]
          simp only [shape, w.recTreeNodes]
  · cases h
    exact ⟨ho, fun q hq => ⟨hq, rfl⟩⟩

theorem owned_reclaimIfNeeded (ho : Owned L T.shape) (h : reclaimIfNeeded L ofa T = some T') :
    Owned L T'.shape ∧ Shrunk T T' := by
  unfold reclaimIfNeeded at h
  split at h
  · simp only [recTreeNodeGrabageReclaim, Option.bind_eq_bind, Option.bind_eq_some_iff,
      Option.some.injEq] at h
    obtain ⟨U, hU, rfl⟩ := h
    refine runAll_invariant (P := fun U => Owned L U.shape ∧ Shrunk T U) ?_
      ⟨ho, fun q hq => ⟨hq, rfl⟩⟩ hU
    intro p _ V V' hV hstep
    obtain ⟨hoV', hs⟩ := owned_reclaimRecTreeNode hV.1 hstep
    exact ⟨hoV', hV.2.trans hs⟩
  · cases h
    exact ⟨ho, fun q hq => ⟨hq, rfl⟩⟩

/-! ## Inserting a record -/

theorem owned_addTreeNode (ho : Owned L T.shape) {pageNum p : ℕ}
    (hnew : T.findNode pageNum = none) (h : addTreeNode L ofa pageNum T = some (p, T')) :
    Owned L T'.shape ∧ T'.findNode pageNum = some p := by
  obtain ⟨U, hU, h⟩ := Option.bind_eq_some_iff.1 h
  obtain ⟨hoU, hs⟩ := owned_reclaimIfNeeded ho hU
  obtain ⟨ho', hperm⟩ := owned_newTreeNode hoU (hs.findNode_none ho hoU hnew) h
  refine ⟨ho', (tfind_byKey ho'.sorted _ p).2 ⟨hperm.symm.subset (List.mem_cons_self ..), ?_⟩⟩
  obtain ⟨head, e, arr, np, hp, ep, ap, -, -, -, -, rfl⟩ := newTreeNode_eq_some h
  simp [withNode, shape]

theorem owned_insertRec (ho : Owned L T.shape) {c : InsertCall}
    (h : insertRec L ofa c T = some T') : Owned L T'.shape := by
  have hlog : Owned L (T.logCall c).shape := ho
  simp only [insertRec] at h
  generalize T.logCall c = U₀ at h hlog
  split at h
  · rename_i p hp
    obtain ⟨U, hU, h⟩ := Option.bind_eq_some_iff.1 h
    have hoU := (owned_clearPage hlog (mem_nodes_of_findNode hp) hU).1
    exact owned_writeRec hoU (findNode_clearPage hlog hp hU) h
  · rename_i hnew
    obtain ⟨⟨p, V⟩, hV, h⟩ := Option.bind_eq_some_iff.1 h
    obtain ⟨hoV, hp⟩ := owned_addTreeNode hlog hnew hV
    exact owned_writeRec hoV hp h

theorem owned_initMemory (recMem : ℤ → MemRec) (recBlockEntries : ℕ → RecBlockEntry)
    (recTreeNodes : ℕ → RecTreeNode) :
    Owned L (initMemory L recMem recBlockEntries recTreeNodes).shape where
  sorted := List.Pairwise.nil
  node := Pool.owns_start
  head := Pool.owns_start
  entry := Pool.owns_start
  arr := Pool.owns_start
  linked p hp := by cases hp

end RecTree

end Cidl
