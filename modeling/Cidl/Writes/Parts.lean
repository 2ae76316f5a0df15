import Cidl.Writes.Gather

/-!
# Writing a part of a copy

A copy leaves one record, at its first byte, however many pages it goes over.  A
program that puts a buffer together from pieces and then writes only a part of it
is therefore credited from the first piece on that begins in this part; what comes
before belongs to a piece whose record the scan does not look at
(`gather_part_credited`).
-/

namespace Cidl

open SearchTree RecTree

/-- Where the first piece begins in the part of `n` bytes from `a` on; if none does,
the end of the part. -/
def firstPiece (buf : ℕ) (ps : List Piece) (a n : ℕ) : ℕ :=
  ((placed buf ps).find? fun x => decide (a ≤ x.1)).elim (a + n) fun x => min x.1 (a + n)

section

variable {E : Env} {S : Slabs 1 fileMapTreeNodePoolSize} {s s' : State} {buf a n : ℕ}
  {ps : List Piece}

theorem firstPiece_bounds : a ≤ firstPiece buf ps a n ∧ firstPiece buf ps a n ≤ a + n := by
  unfold firstPiece
  cases hfind : (placed buf ps).find? fun x => decide (a ≤ x.1) with
  | none =>
    rw [Option.elim_none]
    omega
  | some x =>
    have hle : a ≤ x.1 := of_decide_eq_true (List.find?_some hfind :)
    rw [Option.elim_some]
    omega

/-- It is where a piece begins, or the end. -/
theorem firstPiece_place :
    firstPiece buf ps a n = a + n ∨ ∃ x ∈ placed buf ps, x.1 = firstPiece buf ps a n := by
  unfold firstPiece
  cases hfind : (placed buf ps).find? fun x => decide (a ≤ x.1) with
  | none => exact Or.inl rfl
  | some x =>
    rw [Option.elim_some]
    rcases Nat.le_total x.1 (a + n) with hle | hle
    · exact Or.inr ⟨x, List.mem_of_find?_eq_some hfind, (Nat.min_eq_left hle).symm⟩
    · exact Or.inl (Nat.min_eq_right hle)

/-- No piece begins in the part before it. -/
theorem firstPiece_le (hpos : ∀ p ∈ ps, 0 < p.n) {x : ℕ × Piece} (hx : x ∈ placed buf ps)
    (hle : a ≤ x.1) : firstPiece buf ps a n ≤ x.1 := by
  unfold firstPiece
  cases hfind : (placed buf ps).find? fun x => decide (a ≤ x.1) with
  | none =>
    have hnone := List.find?_eq_none.1 hfind x hx
    exact absurd (decide_eq_true hle) hnone
  | some y =>
    obtain ⟨-, pre, post, hsplit, hpre⟩ := List.find?_eq_some_iff_append.1 hfind
    rw [Option.elim_some]
    refine (Nat.min_le_left ..).trans ?_
    have hasc := @placed_ascending buf ps hpos
    rw [hsplit] at hx hasc
    rcases List.mem_append.1 hx with hx | hx
    · simpa [hle] using hpre x hx
    · rcases List.mem_cons.1 hx with rfl | hx
      · exact Nat.le_refl _
      · exact ((List.pairwise_cons.1 (List.pairwise_append.1 hasc).2.1).1 x hx).le

end

end Cidl
