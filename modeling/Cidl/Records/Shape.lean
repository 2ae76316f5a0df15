import Cidl.Model.Insert

/-!
# The shape of a record tree

Every tree node owns one queue head, every entry of its queue, and the array of
every such entry; nothing is owned twice, and what is not owned lies on the
free stack of its pool.  `Shape` is the part of a record tree that this is
about: which objects hang together, whatever the records and cursors in them.

* `Owned L S` is the invariant.
* `Owned.block_gone`, `Owned.block_added`, `Owned.node_gone`,
  `Owned.node_added` — the four changes of shape that the code makes.
* `RecTree.shape` — the shape of a record tree, and what the operations of the
  model do to it.
-/

namespace Cidl

open SearchTree

/-! ## Shapes -/

/-- Which objects hang together. -/
structure Shape where
  root : BinaryTree ℕ
  pageNum : ℕ → ℕ
  listHead : ℕ → ℕ
  queues : ℕ → List ℕ
  recArr : ℕ → ℕ
  queueOf : ℕ → Option ℕ
  nodePool : Pool
  headPool : Pool
  entryPool : Pool
  arrPool : Pool

namespace Shape

variable (S : Shape)

/-- The nodes of the tree. -/
def nodes : List ℕ := inorder S.root

/-- The blocks of a node, newest first. -/
def blocks (p : ℕ) : List ℕ := S.queues (S.listHead p)

/-- The queue heads of all nodes. -/
def heads : List ℕ := S.nodes.map S.listHead

/-- The blocks of all nodes. -/
def entries : List ℕ := S.nodes.flatMap S.blocks

/-- The arrays of all blocks. -/
def arrays : List ℕ := S.entries.map S.recArr

/-- The shape after the first block `e` of `p` was given back, leaving `rest`. -/
def removeBlock (p e : ℕ) (rest : List ℕ) (entryPool arrPool : Pool) : Shape :=
  { S with
    queues := Function.update S.queues (S.listHead p) rest
    queueOf := Function.update S.queueOf e none
    entryPool := entryPool
    arrPool := arrPool }

/-- The shape after the block `e` with the array `arr` was put in front of `p`. -/
def addBlock (p e arr : ℕ) (entryPool arrPool : Pool) : Shape :=
  { S with
    queues := Function.update S.queues (S.listHead p) (e :: S.queues (S.listHead p))
    recArr := Function.update S.recArr e arr
    queueOf := Function.update S.queueOf e (some (S.listHead p))
    entryPool := entryPool
    arrPool := arrPool }

/-- The shape after the node `p` left the tree and was zeroed. -/
def removeNode (L : Libc) (p : ℕ) (nodePool headPool : Pool) : Shape :=
  { S with
    root := L.search.tdelete (byKey S.pageNum (S.pageNum p)) S.root
    pageNum := Function.update S.pageNum p 0
    listHead := Function.update S.listHead p 0
    nodePool := nodePool
    headPool := headPool }

/-- The shape after the node `p` with one block entered the tree. -/
def addNode (L : Libc) (pageNum p head e arr : ℕ) (nodePool headPool entryPool arrPool : Pool) :
    Shape where
  root := L.search.tsearch (byKey (Function.update S.pageNum p pageNum) pageNum) p S.root
  pageNum := Function.update S.pageNum p pageNum
  listHead := Function.update S.listHead p head
  queues := Function.update S.queues head [e]
  recArr := Function.update S.recArr e arr
  queueOf := Function.update S.queueOf e (some head)
  nodePool := nodePool
  headPool := headPool
  entryPool := entryPool
  arrPool := arrPool

/-- Everything in use has exactly one owner, and the rest is free. -/
structure Owned (L : Libc) (S : Shape) : Prop where
  sorted : Sorted S.pageNum S.root
  node : S.nodePool.Owns L.nodeSlabs S.nodes
  head : S.headPool.Owns L.headSlabs S.heads
  entry : S.entryPool.Owns L.entrySlabs S.entries
  arr : S.arrPool.Owns L.arrSlabs S.arrays
  linked : ∀ p ∈ S.nodes, ∀ e ∈ S.blocks p, S.queueOf e = some (S.listHead p)

/-- When the image of one element of a duplicate-free list changes, the rest of
a `flatMap` stays. -/
theorem flatMap_perm_at {l : List ℕ} (hnd : l.Nodup) {p : ℕ} (hp : p ∈ l) (f : ℕ → List ℕ) :
    ∃ rest, ∀ f' : ℕ → List ℕ, (∀ q ∈ l, q ≠ p → f' q = f q) →
      (l.flatMap f').Perm (f' p ++ rest) := by
  obtain ⟨a, b, rfl⟩ := List.append_of_mem hp
  have hpn : p ∉ a ++ b := (List.nodup_cons.1 (List.nodup_middle.1 hnd)).1
  refine ⟨a.flatMap f ++ b.flatMap f, fun f' hf' => ?_⟩
  have hne : ∀ q ∈ a ++ b, f' q = f q := by
    intro q hq
    refine hf' q ?_ fun h => hpn (h ▸ hq)
    rcases List.mem_append.1 hq with h | h
    · exact List.mem_append_left _ h
    · exact List.mem_append_right _ (List.mem_cons_of_mem _ h)
  have ha : a.flatMap f' = a.flatMap f :=
    List.flatMap_congr fun q hq => hne q (List.mem_append_left _ hq)
  have hb : b.flatMap f' = b.flatMap f :=
    List.flatMap_congr fun q hq => hne q (List.mem_append_right _ hq)
  rw [List.flatMap_append, List.flatMap_cons, ha, hb, ← List.append_assoc, ← List.append_assoc]
  exact List.perm_append_comm.append_right _

namespace Owned

variable {L : Libc} {S S' : Shape} {p : ℕ}

theorem nodup_nodes (h : Owned L S) : S.nodes.Nodup := h.node.nodup_used

theorem nodup_entries (h : Owned L S) : S.entries.Nodup := h.entry.nodup_used

/-- Two nodes never share a queue head. -/
theorem listHead_inj (h : Owned L S) {q : ℕ} (hp : p ∈ S.nodes) (hq : q ∈ S.nodes)
    (heq : S.listHead p = S.listHead q) : p = q :=
  List.inj_on_of_nodup_map h.head.nodup_used hp hq heq

theorem mem_entries (hp : p ∈ S.nodes) {e : ℕ} (he : e ∈ S.blocks p) : e ∈ S.entries :=
  List.mem_flatMap.2 ⟨p, hp, he⟩

theorem nodup_blocks (h : Owned L S) (hp : p ∈ S.nodes) : (S.blocks p).Nodup :=
  (List.nodup_flatMap.1 h.nodup_entries).1 p hp

/-- A block belongs to one node. -/
theorem owner_unique (h : Owned L S) {q e : ℕ} (hp : p ∈ S.nodes) (hq : q ∈ S.nodes)
    (hep : e ∈ S.blocks p) (heq : e ∈ S.blocks q) : p = q := by
  have h₁ := h.linked p hp e hep
  rw [h.linked q hq e heq, Option.some.injEq] at h₁
  exact h.listHead_inj hp hq h₁.symm

/-- Two blocks never share an array. -/
theorem recArr_inj (h : Owned L S) {e e' : ℕ} (he : e ∈ S.entries) (he' : e' ∈ S.entries)
    (heq : S.recArr e = S.recArr e') : e = e' :=
  List.inj_on_of_nodup_map h.arr.nodup_used he he' heq

/-- The arrays of two blocks do not overlap. -/
theorem recArr_apart (h : Owned L S) {e e' : ℕ} (he : e ∈ S.entries) (he' : e' ∈ S.entries)
    (hne : e ≠ e') :
    S.recArr e + memRecPerEntry ≤ S.recArr e' ∨ S.recArr e' + memRecPerEntry ≤ S.recArr e :=
  h.arr.apart (List.mem_map_of_mem he) (List.mem_map_of_mem he')
    fun heq => hne (h.recArr_inj he he' heq)

/-! ## The changes of shape -/

/-- The first block of a node leaves: array and entry go back to their pools. -/
theorem block_gone (h : Owned L S) (hp : p ∈ S.nodes) {e : ℕ} {rest : List ℕ}
    (hb : S.blocks p = e :: rest) {entryPool arrPool : Pool}
    (he : S.entryPool.push e = some entryPool)
    (ha : S.arrPool.push (S.recArr e) = some arrPool) :
    Owned L (S.removeBlock p e rest entryPool arrPool) := by
  set S' := S.removeBlock p e rest entryPool arrPool with hS'
  obtain ⟨others, hperm⟩ := flatMap_perm_at h.nodup_nodes hp S.blocks
  have hblocks : ∀ q ∈ S.nodes, q ≠ p → S'.blocks q = S.blocks q := by
    intro q hq hne
    exact Function.update_of_ne (fun heq => hne (h.listHead_inj hq hp heq)) _ _
  have hself : S'.blocks p = rest := Function.update_self ..
  have hent : S.entries.Perm (e :: (rest ++ others)) := by
    have := hperm S.blocks fun _ _ _ => rfl
    rwa [hb] at this
  have hent' : S'.entries.Perm (rest ++ others) := by
    have := hperm S'.blocks hblocks
    rwa [hself] at this
  have hgone : e ∉ rest ++ others :=
    (List.nodup_cons.1 (hent.nodup_iff.1 h.nodup_entries)).1
  refine ⟨h.sorted, h.node, h.head, ?_, ?_, ?_⟩
  · exact ((h.entry.perm hent).push he).perm hent'.symm
  · exact ((h.arr.perm (hent.map S.recArr)).push ha).perm (hent'.map S.recArr).symm
  · intro q hq f hf
    have hfe : f ≠ e := by
      rintro rfl
      exact hgone (hent'.subset (mem_entries (S := S') hq hf))
    have hfq : f ∈ S.blocks q := by
      by_cases hqp : q = p
      · subst hqp
        rw [hself] at hf
        rw [hb]
        exact List.mem_cons_of_mem _ hf
      · rwa [hblocks q hq hqp] at hf
    exact (Function.update_of_ne hfe _ _).trans (h.linked q hq f hfq)

/-- A fresh block with a fresh array becomes the first one of a node. -/
theorem block_added (h : Owned L S) (hp : p ∈ S.nodes) {e arr : ℕ} {entryPool arrPool : Pool}
    (he : S.entryPool.take L.entrySlabs = some (e, entryPool))
    (ha : S.arrPool.take L.arrSlabs = some (arr, arrPool)) :
    Owned L (S.addBlock p e arr entryPool arrPool) := by
  set S' := S.addBlock p e arr entryPool arrPool with hS'
  obtain ⟨others, hperm⟩ := flatMap_perm_at h.nodup_nodes hp S.blocks
  have hblocks : ∀ q ∈ S.nodes, q ≠ p → S'.blocks q = S.blocks q := by
    intro q hq hne
    exact Function.update_of_ne (fun heq => hne (h.listHead_inj hq hp heq)) _ _
  have hself : S'.blocks p = e :: S.blocks p := Function.update_self ..
  have hent' : S'.entries.Perm (e :: S.entries) := by
    have h₁ := hperm S'.blocks hblocks
    rw [hself] at h₁
    exact h₁.trans ((hperm S.blocks fun _ _ _ => rfl).symm.cons e)
  have hfresh : ∀ f ∈ S.entries, f ≠ e := by
    rintro f hf rfl
    exact h.entry.fresh he hf
  have harr : S.entries.map S'.recArr = S.arrays :=
    List.map_congr_left fun f hf => Function.update_of_ne (hfresh f hf) _ _
  have harr' : S'.arrays.Perm (arr :: S.arrays) := by
    have h₁ := hent'.map S'.recArr
    rw [List.map_cons, harr, show S'.recArr e = arr from Function.update_self ..] at h₁
    exact h₁
  refine ⟨h.sorted, h.node, h.head, (h.entry.take he).perm hent'.symm,
    (h.arr.take ha).perm harr'.symm, ?_⟩
  intro q hq f hf
  by_cases hfe : f = e
  · subst hfe
    have hqp : q = p := by
      by_contra hne
      rw [hblocks q hq hne] at hf
      exact hfresh f (mem_entries (S := S) hq hf) rfl
    subst hqp
    exact Function.update_self ..
  · have hfq : f ∈ S.blocks q := by
      by_cases hqp : q = p
      · subst hqp
        rw [hself] at hf
        exact (List.mem_cons.1 hf).resolve_left hfe
      · rwa [hblocks q hq hqp] at hf
    exact (Function.update_of_ne hfe _ _).trans (h.linked q hq f hfq)

/-- A node without blocks leaves the tree: head and node go back to their pools. -/
theorem node_gone (h : Owned L S) (hp : p ∈ S.nodes) (hb : S.blocks p = [])
    {nodePool headPool : Pool} (hh : S.headPool.push (S.listHead p) = some headPool)
    (hn : S.nodePool.push p = some nodePool) : Owned L (S.removeNode L p nodePool headPool) := by
  set S' := S.removeNode L p nodePool headPool with hS'
  have hfind : tfind (byKey S.pageNum (S.pageNum p)) S.root = some p :=
    (tfind_byKey h.sorted _ p).2 ⟨hp, rfl⟩
  have hnodes : S.nodes.Perm (p :: S'.nodes) := L.search.perm_tdelete hfind
  have hmem : ∀ q ∈ S'.nodes, q ∈ S.nodes ∧ q ≠ p := fun q hq =>
    (L.search.mem_tdelete hfind h.nodup_nodes q).1 hq
  have hhead : ∀ q ∈ S'.nodes, S'.listHead q = S.listHead q := fun q hq =>
    Function.update_of_ne (hmem q hq).2 _ _
  have hheads : S.heads.Perm (S.listHead p :: S'.heads) := by
    have h₁ := hnodes.map S.listHead
    rwa [List.map_cons, ← List.map_congr_left hhead] at h₁
  have hblocks : ∀ q ∈ S'.nodes, S'.blocks q = S.blocks q := by
    intro q hq
    rw [blocks, blocks, hhead q hq]
    rfl
  have hent : S.entries.Perm S'.entries := by
    have h₁ := hnodes.flatMap_right S.blocks
    rw [List.flatMap_cons, hb, List.nil_append] at h₁
    refine h₁.trans (List.Perm.of_eq ?_)
    exact List.flatMap_congr fun q hq => (hblocks q hq).symm
  refine ⟨?_, (h.node.perm hnodes).push hn, (h.head.perm hheads).push hh, h.entry.perm hent,
    h.arr.perm (hent.map S.recArr), ?_⟩
  · exact (L.search.sorted_tdelete h.sorted _).congr fun q hq =>
      Function.update_of_ne (hmem q hq).2 _ _
  · intro q hq f hf
    rw [hblocks q hq] at hf
    rw [hhead q hq]
    exact h.linked q (hmem q hq).1 f hf

/-- A fresh node with a fresh head, block and array enters the tree. -/
theorem node_added (h : Owned L S) {pageNum head e arr : ℕ}
    (hnew : ∀ q ∈ S.nodes, S.pageNum q ≠ pageNum) {nodePool headPool entryPool arrPool : Pool}
    (hn : S.nodePool.pop = some (p, nodePool))
    (hh : S.headPool.take L.headSlabs = some (head, headPool))
    (he : S.entryPool.take L.entrySlabs = some (e, entryPool))
    (ha : S.arrPool.take L.arrSlabs = some (arr, arrPool)) :
    Owned L (S.addNode L pageNum p head e arr nodePool headPool entryPool arrPool) ∧
      (S.addNode L pageNum p head e arr nodePool headPool entryPool arrPool).nodes.Perm
        (p :: S.nodes) := by
  set S' := S.addNode L pageNum p head e arr nodePool headPool entryPool arrPool with hS'
  have hpn : p ∉ S.nodes := (List.nodup_cons.1 (h.node.pop hn).nodup_used).1
  have hhn : head ∉ S.heads := h.head.fresh hh
  have hen : ∀ f ∈ S.entries, f ≠ e := by
    rintro f hf rfl
    exact h.entry.fresh he hf
  have hne : ∀ q ∈ S.nodes, q ≠ p := fun q hq heq => hpn (heq ▸ hq)
  have hkey : S'.pageNum p = pageNum := Function.update_self ..
  have hsorted : Sorted S'.pageNum S.root :=
    h.sorted.congr fun q hq => Function.update_of_ne (hne q hq) _ _
  have hnew' : ∀ q ∈ inorder S.root, S'.pageNum q ≠ S'.pageNum p := by
    intro q hq
    rw [hkey, show S'.pageNum q = S.pageNum q from Function.update_of_ne (hne q hq) _ _]
    exact hnew q hq
  have hnodes : S'.nodes.Perm (p :: S.nodes) := by
    have h₁ := L.search.perm_tsearch hsorted hnew'
    rwa [hkey] at h₁
  have hheadp : S'.listHead p = head := Function.update_self ..
  have hheadq : ∀ q ∈ S.nodes, S'.listHead q = S.listHead q := fun q hq =>
    Function.update_of_ne (hne q hq) _ _
  have hheads : S'.heads.Perm (head :: S.heads) := by
    have h₁ := hnodes.map S'.listHead
    rwa [List.map_cons, hheadp, List.map_congr_left hheadq] at h₁
  have hblocksp : S'.blocks p = [e] := by
    rw [blocks, hheadp]
    exact Function.update_self ..
  have hblocksq : ∀ q ∈ S.nodes, S'.blocks q = S.blocks q := by
    intro q hq
    rw [blocks, hheadq q hq]
    refine Function.update_of_ne (fun heq => hhn ?_) _ _
    exact heq ▸ List.mem_map_of_mem hq
  have hent : S'.entries.Perm (e :: S.entries) := by
    have h₁ := hnodes.flatMap_right S'.blocks
    rw [List.flatMap_cons, hblocksp] at h₁
    refine h₁.trans (List.Perm.of_eq ?_)
    rw [List.singleton_append, entries, List.flatMap_congr hblocksq]
  have harr : S'.arrays.Perm (arr :: S.arrays) := by
    have h₁ := hent.map S'.recArr
    rw [List.map_cons, show S'.recArr e = arr from Function.update_self ..] at h₁
    refine h₁.trans (List.Perm.of_eq ?_)
    congr 1
    exact List.map_congr_left fun f hf => Function.update_of_ne (hen f hf) _ _
  refine ⟨⟨?_, (h.node.pop hn).perm hnodes.symm, (h.head.take hh).perm hheads.symm,
    (h.entry.take he).perm hent.symm, (h.arr.take ha).perm harr.symm, ?_⟩, hnodes⟩
  · have h₁ := L.search.sorted_tsearch hsorted p
    rwa [hkey] at h₁
  · intro q hq f hf
    rcases List.mem_cons.1 (hnodes.subset hq) with rfl | hq
    · rw [hblocksp, List.mem_singleton] at hf
      rw [hheadp, hf]
      exact Function.update_self ..
    · rw [hblocksq q hq] at hf
      rw [hheadq q hq]
      exact (Function.update_of_ne (hen f (mem_entries hq hf)) _ _).trans (h.linked q hq f hf)

end Owned

end Shape

/-! ## The shape of the model's tree -/

namespace RecTree

/-- The shape of a record tree. -/
def shape (T : RecTree) : Shape where
  root := T.recTreeRoot
  pageNum := RecTreeNode.pageNum ∘ T.recTreeNodes
  listHead := RecTreeNode.listHead ∘ T.recTreeNodes
  queues := T.tailheads
  recArr := RecBlockEntry.recArr ∘ T.recBlockEntries
  queueOf := RecBlockEntry.queue ∘ T.recBlockEntries
  nodePool := T.recTreeNodePool
  headPool := T.tailHeadPool
  entryPool := T.recBlockEntryPool
  arrPool := T.recArrPool

/-- The nodes of the tree. -/
abbrev nodes (T : RecTree) : List ℕ := T.shape.nodes

/-- The blocks of a node, newest first. -/
abbrev blocks (T : RecTree) (p : ℕ) : List ℕ := T.shape.blocks p

variable {T T' : RecTree} {L : Libc}

@[simp] theorem shape_setRec (a : ℤ) (r : MemRec) : (T.setRec a r).shape = T.shape := rfl

@[simp] theorem shape_setCursor (p e : ℕ) (idx : ℤ) : (T.setCursor p e idx).shape = T.shape := by
  simp [shape, setCursor, setNode, setEntry, Function.comp_update]

/-- What `withdrawBlock` does when its pools accept the objects. -/
theorem withdrawBlock_eq_some {h e : ℕ} : T.withdrawBlock h e = some T' ↔
    ∃ arrPool entryPool, T.recArrPool.push (T.recBlockEntries e).recArr = some arrPool ∧
      T.recBlockEntryPool.push e = some entryPool ∧
      T' = { T.tailqRemove h e with recArrPool := arrPool, recBlockEntryPool := entryPool } := by
  simp only [withdrawBlock, withdrawMemRecArr, withdrawRecBlockEntry, Option.bind_eq_bind,
    Option.bind_eq_some_iff, Option.map_eq_some_iff]
  constructor
  · rintro ⟨-, ⟨ap, ha, rfl⟩, ep, he, rfl⟩
    exact ⟨ap, ep, ha, he, rfl⟩
  · rintro ⟨ap, ep, ha, he, rfl⟩
    exact ⟨_, ⟨ap, ha, rfl⟩, ep, he, rfl⟩

end RecTree

end Cidl
