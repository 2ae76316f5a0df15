import Cidl.Records.Invariant

/-!
# What every insertion keeps within bounds

Whatever an insertion reclaims, clears and adds, no index of a node goes beyond
the end of a block, and the pool of block entries does not grow beyond a bound
that is not below what the pools can reach (`Bounded`).  So the list of blocks
of a page is never longer than that bound (`Bounded.length_blocks_le`).
-/

namespace Cidl

open SearchTree Shape

namespace RecTree

variable {L : Libc} {T T' : RecTree} {ofa : ℤ → Option ℕ} {p : ℕ} {B : ℕ}

/-! ## The pool of block entries -/

theorem room_withdrawBlocks {h : ℕ} {es : List ℕ} (hT : withdrawBlocks h es T = some T') :
    T'.recBlockEntryPool.size = T.recBlockEntryPool.size := by
  refine runAll_invariant (P := fun U : RecTree =>
    U.recBlockEntryPool.size = T.recBlockEntryPool.size) (fun e _ U V hU hV => ?_) rfl hT
  obtain ⟨ap, ep, -, he, rfl⟩ := withdrawBlock_eq_some.1 hV
  exact (Pool.size_push he).trans hU

theorem room_clearPage {dest : ℕ} (h : clearPage p dest T = some T') :
    T'.recBlockEntryPool.size = T.recBlockEntryPool.size := by
  obtain ⟨-, ⟨-, rfl⟩ | ⟨-, U, oldest, hU, -, rfl⟩⟩ := clearPage_run h
  · rfl
  · exact (room_withdrawBlocks hU :)

theorem room_reclaimRecTreeNode (h : reclaimRecTreeNode L ofa p T = some T') :
    T'.recBlockEntryPool.size = T.recBlockEntryPool.size := by
  unfold reclaimRecTreeNode at h
  split at h
  case isFalse => cases h; rfl
  unfold reclaimSpecialRecTreeNode at h
  split at h
  · cases h
  · split at h
    · simp only [withdrawNode, withdrawTailHead, withdrawRecTreeNode, Option.bind_eq_bind,
        Option.bind_eq_some_iff, Option.map_eq_some_iff, Option.some.injEq] at h
      obtain ⟨U, hU, -, ⟨hp, -, rfl⟩, -, ⟨np, -, rfl⟩, rfl⟩ := h
      obtain ⟨ap, ep, -, he, rfl⟩ := withdrawBlock_eq_some.1 hU
      exact Pool.size_push he
    · simp only [compactNode, Option.bind_eq_bind, Option.bind_eq_some_iff] at h
      obtain ⟨ent, -, U, hU, h⟩ := h
      obtain ⟨pre, post, -, hrun⟩ := withdrawUntil_eq_some h
      rw [room_withdrawBlocks hrun]
      exact congrArg (fun S => S.entryPool.size) (shape_reclaimLoop hU)

theorem room_reclaimIfNeeded (h : reclaimIfNeeded L ofa T = some T') :
    T'.recBlockEntryPool.size = T.recBlockEntryPool.size := by
  unfold reclaimIfNeeded at h
  split at h
  · simp only [recTreeNodeGrabageReclaim, Option.bind_eq_bind, Option.bind_eq_some_iff,
      Option.some.injEq] at h
    obtain ⟨U, hU, rfl⟩ := h
    have hrun : U.recBlockEntryPool.size = T.recBlockEntryPool.size :=
      runAll_invariant (P := fun V : RecTree =>
        V.recBlockEntryPool.size = T.recBlockEntryPool.size)
        (fun _ _ _ _ hP h => (room_reclaimRecTreeNode h).trans hP) rfl hU
    exact hrun
  · cases h
    rfl

/-! ## The index of a node -/

theorem idx_nextSlot {c c' : Cursor} {k : ℤ} (hk : 0 ≤ k) (hcap : memRecPerEntry - 1 ≤ k)
    (hnode : (T.recTreeNodes p).memRecIdx - 1 ≤ k) (hidx : c.idx ≤ k) (hmax : c.maxIdx ≤ k)
    (h : T.nextSlot p c = some c') : c'.idx ≤ k ∧ c'.maxIdx ≤ k := by
  unfold nextSlot at h
  split at h
  · cases h
    exact ⟨by dsimp only; omega, hmax⟩
  · obtain ⟨e, -, h⟩ := Option.bind_eq_some_iff.1 h
    split at h
    · cases h
      exact ⟨hidx, hmax⟩
    · cases h
      refine ⟨hk, ?_⟩
      unfold enterBlock maxIdxOf
      dsimp only
      split
      · exact hcap
      · exact hnode

/-- The compaction loop sets the index of its node only, and not beyond a block. -/
theorem idx_reclaimLoop {fuel : ℕ} {keep search : Cursor}
    (hnode : (T.recTreeNodes p).memRecIdx ≤ memRecPerEntry)
    (hidx : keep.idx ≤ memRecPerEntry - 1) (hmax : keep.maxIdx ≤ memRecPerEntry - 1)
    (h : reclaimLoop ofa p fuel keep search T = some T') :
    (T'.recTreeNodes p).memRecIdx ≤ memRecPerEntry ∧
      ∀ q, q ≠ p → T'.recTreeNodes q = T.recTreeNodes q := by
  have hcap : (0 : ℤ) ≤ memRecPerEntry - 1 := by decide
  induction fuel generalizing keep search T with
  | zero =>
    rw [reclaimLoop] at h
    split at h <;> cases h
    exact ⟨hnode, fun _ _ => rfl⟩
  | succ fuel ih =>
    rw [reclaimLoop] at h
    split at h
    · cases h
      exact ⟨hnode, fun _ _ => rfl⟩
    · split at h
      · split at h
        · obtain ⟨search', -, h⟩ := Option.bind_eq_some_iff.1 h
          exact ih hnode hidx hmax h
        · obtain ⟨keeped, -, h⟩ := Option.bind_eq_some_iff.1 h
          obtain ⟨keep', hkeep', h⟩ := Option.bind_eq_some_iff.1 h
          obtain ⟨search', -, h⟩ := Option.bind_eq_some_iff.1 h
          obtain ⟨hidx', hmax'⟩ := idx_nextSlot hcap le_rfl
            (sub_le_sub_right hnode 1) hidx hmax hkeep'
          exact ih (T := T.setRec keeped (T.recMem _)) hnode hidx' hmax' h
      · obtain ⟨keepEnt, -, h⟩ := Option.bind_eq_some_iff.1 h
        obtain ⟨keep', hkeep', h⟩ := Option.bind_eq_some_iff.1 h
        obtain ⟨search', -, h⟩ := Option.bind_eq_some_iff.1 h
        have hnode' : ((T.setCursor p keepEnt keep.idx).recTreeNodes p).memRecIdx ≤
            memRecPerEntry := by
          rw [setCursor_node]
          exact hidx.trans (by decide)
        obtain ⟨hidx', hmax'⟩ := idx_nextSlot hcap le_rfl
          (sub_le_sub_right hnode' 1) hidx hmax hkeep'
        obtain ⟨hp', hothers⟩ := ih hnode' hidx' hmax' h
        refine ⟨hp', fun q hq => (hothers q hq).trans ?_⟩
        exact Function.update_of_ne hq _ _

/-- No index of a node is behind the end of a block. -/
def IdxLe (T : RecTree) : Prop := ∀ q ∈ T.nodes, (T.recTreeNodes q).memRecIdx ≤ memRecPerEntry

/-- No index, of a node of the tree or of another one, has gone behind the end of
a block. -/
def IdxKept (T T' : RecTree) : Prop :=
  ∀ q, (T.recTreeNodes q).memRecIdx ≤ memRecPerEntry →
    (T'.recTreeNodes q).memRecIdx ≤ memRecPerEntry

/-- One node has changed. -/
theorem idxKept_update {n : RecTreeNode} (hn : n.memRecIdx ≤ memRecPerEntry)
    (h : T'.recTreeNodes = Function.update T.recTreeNodes p n) : IdxKept T T' := by
  intro q hq
  rw [h]
  by_cases hne : q = p
  · rw [hne, Function.update_self]
    exact hn
  · rwa [Function.update_of_ne hne]

theorem idxKept_reclaimRecTreeNode (ho : Owned L T.shape) (hidx : T.IdxLe)
    (h : reclaimRecTreeNode L ofa p T = some T') : IdxKept T T' := by
  unfold reclaimRecTreeNode at h
  split at h
  case isFalse => cases h; exact fun q hq => hq
  rename_i hp
  unfold reclaimSpecialRecTreeNode at h
  split at h
  · cases h
  · split at h
    · simp only [withdrawNode, withdrawTailHead, withdrawRecTreeNode, Option.bind_eq_bind,
        Option.bind_eq_some_iff, Option.map_eq_some_iff, Option.some.injEq] at h
      obtain ⟨U, hU, -, ⟨hpool, -, rfl⟩, -, ⟨np, -, rfl⟩, rfl⟩ := h
      obtain ⟨ap, ep, -, -, rfl⟩ := withdrawBlock_eq_some.1 hU
      exact idxKept_update (Int.natCast_nonneg 38) rfl
    · obtain ⟨ent, U, newer, older, -, hU, -, -, w⟩ := compactNode_eq_some ho hp h
      have hmax : (T.enterBlock p ent).maxIdx ≤ memRecPerEntry - 1 := by
        unfold enterBlock maxIdxOf
        dsimp only
        split
        · exact le_rfl
        · exact sub_le_sub_right (hidx p hp) 1
      obtain ⟨hp', hothers⟩ := idx_reclaimLoop (hidx p hp) (show (0 : ℤ) ≤ _ by decide) hmax hU
      intro q hq
      rw [w.recTreeNodes]
      by_cases hne : q = p
      · exact hne ▸ hp'
      · rwa [hothers q hne]

theorem idxLe_reclaimRecTreeNode (ho : Owned L T.shape) (hidx : T.IdxLe)
    (h : reclaimRecTreeNode L ofa p T = some T') : T'.IdxLe := fun q hq =>
  idxKept_reclaimRecTreeNode ho hidx h q (hidx q ((owned_reclaimRecTreeNode ho h).2 q hq).1)

theorem idxLe_reclaimIfNeeded (ho : Owned L T.shape) (hidx : T.IdxLe)
    (h : reclaimIfNeeded L ofa T = some T') : T'.IdxLe := by
  unfold reclaimIfNeeded at h
  split at h
  · simp only [recTreeNodeGrabageReclaim, Option.bind_eq_bind, Option.bind_eq_some_iff,
      Option.some.injEq] at h
    obtain ⟨U, hU, rfl⟩ := h
    exact (runAll_invariant (P := fun U : RecTree => Owned L U.shape ∧ U.IdxLe)
      (fun _ _ _ _ hP h => ⟨(owned_reclaimRecTreeNode hP.1 h).1,
        idxLe_reclaimRecTreeNode hP.1 hP.2 h⟩)
      ⟨ho, hidx⟩ hU).2
  · cases h
    exact hidx

theorem idxKept_clearPage (ho : Owned L T.shape) (hp : p ∈ T.nodes) {dest : ℕ}
    (h : clearPage p dest T = some T') : IdxKept T T' := by
  obtain ⟨-, ⟨-, rfl⟩ | ⟨-, newer, oldest, U, -, w, -, rfl⟩⟩ := clearPage_eq_some ho hp h
  · exact fun q hq => hq
  · refine idxKept_update (p := p) (n := { T.recTreeNodes p with
      recModEntry := oldest, memRecIdx := 0 }) (Int.natCast_nonneg 38) ?_
    rw [← w.recTreeNodes]
    rfl

theorem idxLe_newTreeNode (ho : Owned L T.shape) {pageNum : ℕ} (hnew : T.findNode pageNum = none)
    (hidx : T.IdxLe) (h : newTreeNode L pageNum T = some (p, T')) : T'.IdxLe := by
  obtain ⟨-, hinv, hsame⟩ := cleared_newTreeNode ho h
  intro q hq
  rcases List.mem_cons.1 ((owned_newTreeNode ho hnew h).2.subset hq) with rfl | hq
  · exact hinv.idx_le
  · rw [(hsame q hq).node]
    exact hidx q hq

theorem nodes_writeRec {c : InsertCall} {pageNum : ℕ} (hp : T.findNode pageNum = some p)
    (h : writeRec L c pageNum p T = some T') : T'.nodes = T.nodes := by
  rcases writeRec_eq_some hp h with ⟨-, rfl⟩ | ⟨-, e, arr, ep, ap, -, -, rfl⟩
  · simp [RecTree.nodes]
  · rfl

theorem idxKept_writeRec {c : InsertCall} {pageNum : ℕ} (hp : T.findNode pageNum = some p)
    (h : writeRec L c pageNum p T = some T') : IdxKept T T' := by
  rcases writeRec_eq_some hp h with ⟨hlt, rfl⟩ | ⟨-, e, arr, ep, ap, -, -, rfl⟩
  · exact idxKept_update (n := { T.recTreeNodes p with
      memRecIdx := (T.recTreeNodes p).memRecIdx + 1 }) hlt rfl
  · exact idxKept_update (n := { T.recTreeNodes p with recModEntry := e, memRecIdx := 1 })
      (show (1 : ℤ) ≤ memRecPerEntry by decide) rfl

/-! ## The invariant -/

/-- Ownership, indices in range, and a pool of block entries that has not grown
beyond `B`. -/
structure Bounded (L : Libc) (B : ℕ) (T : RecTree) : Prop where
  owned : Owned L T.shape
  idx_le : T.IdxLe
  room : T.recBlockEntryPool.size ≤ B

theorem Bounded.length_blocks_le (h : Bounded L B T) (hp : p ∈ T.nodes) :
    (T.blocks p).length ≤ B := by
  have hsub : (T.blocks p).length ≤ T.shape.entries.length :=
    ((h.owned.nodup_blocks hp).subperm fun e he => Owned.mem_entries hp he).length_le
  have hcard : T.shape.entries.length + T.recBlockEntryPool.ptr.length =
    T.recBlockEntryPool.size := h.owned.entry.card
  have := h.room
  omega

theorem bounded_clearPage (hT : Bounded L B T) (hp : p ∈ T.nodes) {dest : ℕ}
    (h : clearPage p dest T = some T') : Bounded L B T' where
  owned := (owned_clearPage hT.owned hp h).1
  idx_le q hq := idxKept_clearPage hT.owned hp h q
    (hT.idx_le q ((owned_clearPage hT.owned hp h).2.1 ▸ hq))
  room := (room_clearPage h).trans_le hT.room

theorem bounded_addTreeNode (hB : 2 ^ 32 ≤ B) (hT : Bounded L B T) {pageNum : ℕ}
    (hnew : T.findNode pageNum = none) (h : addTreeNode L ofa pageNum T = some (p, T')) :
    Bounded L B T' := by
  have ho' := (owned_addTreeNode hT.owned hnew h).1
  obtain ⟨U, hU, h⟩ := Option.bind_eq_some_iff.1 h
  obtain ⟨hoU, hshrunk⟩ := owned_reclaimIfNeeded hT.owned hU
  refine ⟨ho', idxLe_newTreeNode hoU (hshrunk.findNode_none hT.owned hoU hnew)
    (idxLe_reclaimIfNeeded hT.owned hT.idx_le hU) h, ?_⟩
  have hroom := (room_reclaimIfNeeded hU).trans_le hT.room
  obtain ⟨head, e, arr, np, hp, ep, ap, -, -, he, -, rfl⟩ := newTreeNode_eq_some h
  exact Pool.size_take_le hB hroom he

theorem bounded_writeRec (hB : 2 ^ 32 ≤ B) (hT : Bounded L B T) {c : InsertCall} {pageNum : ℕ}
    (hp : T.findNode pageNum = some p) (h : writeRec L c pageNum p T = some T') :
    Bounded L B T' where
  owned := owned_writeRec hT.owned hp h
  idx_le q hq := idxKept_writeRec hp h q (hT.idx_le q (nodes_writeRec hp h ▸ hq))
  room := by
    rcases writeRec_eq_some hp h with ⟨-, rfl⟩ | ⟨-, e, arr, ep, ap, he, -, rfl⟩
    · exact hT.room
    · exact Pool.size_take_le hB hT.room he

theorem bounded_insertRec (hB : 2 ^ 32 ≤ B) {c : InsertCall} (hT : Bounded L B T)
    (h : insertRec L ofa c T = some T') : Bounded L B T' := by
  have hU : Bounded L B (T.logCall c) := ⟨hT.owned, hT.idx_le, hT.room⟩
  simp only [insertRec] at h
  clear hT
  generalize T.logCall c = U at h hU
  split at h
  · rename_i p hp
    obtain ⟨V, hV, h⟩ := Option.bind_eq_some_iff.1 h
    exact bounded_writeRec hB (bounded_clearPage hU (mem_nodes_of_findNode hp) hV)
      (findNode_clearPage hU.owned hp hV) h
  · rename_i hnew
    obtain ⟨⟨p, V⟩, hV, h⟩ := Option.bind_eq_some_iff.1 h
    exact bounded_writeRec hB (bounded_addTreeNode hB hU hnew hV)
      (owned_addTreeNode hU.owned hnew hV).2 h

end RecTree

end Cidl
