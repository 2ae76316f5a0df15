import Cidl.Records.Ownership

/-!
# What an insertion leaves alone

Whatever else happens inside `insertRec`, the log of its calls grows by one
entry, and every slot of the record arrays afterwards holds the new record or
what some slot held before: records are moved by the reclaimer, but never made
up.  `Quiet` is this property for the parts of `insertRec` that do not write the
new record, and `insertRec_calls` and `insertRec_slots` are the results.
-/

namespace Cidl

open SearchTree

namespace RecTree

variable {L : Libc} {T T' T'' : RecTree} {ofa : ℤ → Option ℕ}

/-- No call was made and no record appeared. -/
structure Quiet (T T' : RecTree) : Prop where
  calls : T'.calls = T.calls
  slots : ∀ a, ∃ b, T'.recMem a = T.recMem b

theorem Quiet.refl (T : RecTree) : Quiet T T where
  calls := rfl
  slots a := ⟨a, rfl⟩

theorem Quiet.trans (h : Quiet T T') (h' : Quiet T' T'') : Quiet T T'' where
  calls := h'.calls.trans h.calls
  slots a := by
    obtain ⟨b, hb⟩ := h'.slots a
    obtain ⟨c, hc⟩ := h.slots b
    exact ⟨c, hb.trans hc⟩

theorem quiet_of_eq (hcalls : T'.calls = T.calls) (hmem : T'.recMem = T.recMem) : Quiet T T' where
  calls := hcalls
  slots a := ⟨a, congrFun hmem a⟩

theorem quiet_setCursor (p e : ℕ) (idx : ℤ) : Quiet T (T.setCursor p e idx) := quiet_of_eq rfl rfl

/-- Copying a record to another slot. -/
theorem quiet_copy (a b : ℤ) : Quiet T (T.setRec a (T.recMem b)) where
  calls := rfl
  slots i := by
    by_cases h : i = a
    · subst h
      exact ⟨b, Function.update_self ..⟩
    · exact ⟨i, Function.update_of_ne h _ _⟩

theorem quiet_withdrawBlock {h e : ℕ} (hT : T.withdrawBlock h e = some T') : Quiet T T' := by
  obtain ⟨ap, ep, -, -, rfl⟩ := withdrawBlock_eq_some.1 hT
  exact quiet_of_eq rfl rfl

theorem quiet_withdrawBlocks {h : ℕ} {es : List ℕ} (hT : withdrawBlocks h es T = some T') :
    Quiet T T' :=
  runAll_invariant (P := fun U => Quiet T U)
    (fun _ _ _ _ hq hU => hq.trans (quiet_withdrawBlock hU)) (Quiet.refl T) hT

theorem quiet_withdrawUntil {h keepEnt : ℕ} {es : List ℕ}
    (hT : withdrawUntil h keepEnt es T = some T') : Quiet T T' := by
  obtain ⟨pre, post, -, hrun⟩ := withdrawUntil_eq_some hT
  exact quiet_withdrawBlocks hrun

theorem quiet_withdrawNode {p e : ℕ} (hT : withdrawNode L p e T = some T') : Quiet T T' := by
  simp only [withdrawNode, withdrawTailHead, withdrawRecTreeNode, Option.bind_eq_bind,
    Option.bind_eq_some_iff, Option.map_eq_some_iff, Option.some.injEq] at hT
  obtain ⟨U, hU, -, ⟨hp, -, rfl⟩, -, ⟨np, -, rfl⟩, rfl⟩ := hT
  exact (quiet_withdrawBlock hU).trans (quiet_of_eq rfl rfl)

/-! ## The reclaimer -/

theorem quiet_reclaimLoop {node fuel : ℕ} {keep search : Cursor}
    (h : reclaimLoop ofa node fuel keep search T = some T') : Quiet T T' := by
  induction fuel generalizing keep search T with
  | zero =>
    rw [reclaimLoop] at h
    split at h <;> cases h
    exact Quiet.refl _
  | succ fuel ih =>
    rw [reclaimLoop] at h
    split at h
    · cases h
      exact Quiet.refl _
    · split at h
      · split at h
        · obtain ⟨search', -, h⟩ := Option.bind_eq_some_iff.1 h
          exact ih h
        · obtain ⟨keeped, -, h⟩ := Option.bind_eq_some_iff.1 h
          obtain ⟨keep', -, h⟩ := Option.bind_eq_some_iff.1 h
          obtain ⟨search', -, h⟩ := Option.bind_eq_some_iff.1 h
          exact (quiet_copy _ _).trans (ih h)
      · obtain ⟨keepEnt, -, h⟩ := Option.bind_eq_some_iff.1 h
        obtain ⟨keep', -, h⟩ := Option.bind_eq_some_iff.1 h
        obtain ⟨search', -, h⟩ := Option.bind_eq_some_iff.1 h
        exact (quiet_setCursor _ _ _).trans (ih h)

theorem quiet_reclaimRecTreeNode {p : ℕ} (h : reclaimRecTreeNode L ofa p T = some T') :
    Quiet T T' := by
  unfold reclaimRecTreeNode at h
  split at h
  · unfold reclaimSpecialRecTreeNode at h
    split at h
    · cases h
    · split at h
      · exact quiet_withdrawNode h
      · simp only [compactNode, Option.bind_eq_bind, Option.bind_eq_some_iff] at h
        obtain ⟨ent, -, U, hU, h⟩ := h
        exact (quiet_reclaimLoop hU).trans (quiet_withdrawUntil h)
  · cases h
    exact Quiet.refl T

theorem quiet_reclaimIfNeeded (h : reclaimIfNeeded L ofa T = some T') : Quiet T T' := by
  unfold reclaimIfNeeded at h
  split at h
  · simp only [recTreeNodeGrabageReclaim, Option.bind_eq_bind, Option.bind_eq_some_iff,
      Option.some.injEq] at h
    obtain ⟨U, hU, rfl⟩ := h
    have hrun : Quiet T U := runAll_invariant (P := fun U => Quiet T U)
      (fun _ _ _ _ hq hU => hq.trans (quiet_reclaimRecTreeNode hU)) (Quiet.refl T) hU
    exact hrun.trans (quiet_of_eq rfl rfl)
  · cases h
    exact Quiet.refl T

/-! ## Insertion -/

theorem quiet_clearPage {node dest : ℕ} (h : clearPage node dest T = some T') : Quiet T T' := by
  unfold clearPage at h
  split at h
  · cases h
  · split at h
    · simp only [Option.bind_eq_bind, Option.bind_eq_some_iff, Option.some.injEq] at h
      obtain ⟨U, hU, first, -, rfl⟩ := h
      rw [withdrawNewer_eq] at hU
      exact (quiet_withdrawBlocks hU).trans (quiet_setCursor _ _ _)
    · cases h
      exact Quiet.refl T

theorem quiet_addTreeNode {pageNum p : ℕ} (h : addTreeNode L ofa pageNum T = some (p, T')) :
    Quiet T T' := by
  obtain ⟨U, hU, hnew⟩ := Option.bind_eq_some_iff.1 h
  obtain ⟨head, e, arr, np, hp, ep, ap, -, -, -, -, rfl⟩ := newTreeNode_eq_some hnew
  exact (quiet_reclaimIfNeeded hU).trans (quiet_of_eq rfl rfl)

/-- What `writeRec` does: it writes the record at one address. -/
theorem writeRec_slots {c : InsertCall} {pageNum p : ℕ} (h : writeRec L c pageNum p T = some T') :
    T'.calls = T.calls ∧ ∃ a, T'.recMem = Function.update T.recMem a (recordOf c pageNum) := by
  unfold writeRec at h
  dsimp only at h
  split at h
  · cases h
    exact ⟨rfl, _, rfl⟩
  · simp only [allocateMemRecArr, allocateRecBlockEntry, Option.bind_eq_bind,
      Option.bind_eq_some_iff, Option.map_eq_some_iff, Option.some.injEq] at h
    obtain ⟨q, -, ⟨arr, A⟩, ⟨r, -, hr⟩, ⟨rbe, B⟩, ⟨r', -, hr'⟩, rfl⟩ := h
    cases hr
    cases hr'
    exact ⟨rfl, _, rfl⟩

/-- `insertRec` without its last part. -/
theorem insertRec_eq_some {c : InsertCall} (h : insertRec L ofa c T = some T') :
    ∃ U p, Quiet (T.logCall c) U ∧ writeRec L c (addr2PageNum c.dest) p U = some T' := by
  simp only [insertRec] at h
  split at h
  · rename_i p _
    obtain ⟨U, hU, h⟩ := Option.bind_eq_some_iff.1 h
    exact ⟨U, p, quiet_clearPage hU, h⟩
  · obtain ⟨⟨p, U⟩, hU, h⟩ := Option.bind_eq_some_iff.1 h
    exact ⟨U, p, quiet_addTreeNode hU, h⟩

theorem insertRec_calls {c : InsertCall} (h : insertRec L ofa c T = some T') :
    T'.calls = T.calls ++ [c] := by
  obtain ⟨U, p, hq, hwrite⟩ := insertRec_eq_some h
  rw [(writeRec_slots hwrite).1, hq.calls]
  rfl

theorem insertRec_slots {c : InsertCall} (h : insertRec L ofa c T = some T') (a : ℤ) :
    T'.recMem a = recordOf c (addr2PageNum c.dest) ∨ ∃ b, T'.recMem a = T.recMem b := by
  obtain ⟨U, p, hq, hwrite⟩ := insertRec_eq_some h
  obtain ⟨-, i, hmem⟩ := writeRec_slots hwrite
  rw [hmem]
  by_cases hai : a = i
  · subst hai
    exact Or.inl (Function.update_self ..)
  · rw [Function.update_of_ne hai]
    exact Or.inr (hq.slots a)

end RecTree

end Cidl
