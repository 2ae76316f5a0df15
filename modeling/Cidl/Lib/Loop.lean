import Mathlib.Computability.StateTransition
import Mathlib.Tactic

/-!
# Loops that may not end

A loop is the partial function `next` that performs one iteration; it ends at a
state that has no next one.  `StateTransition.Reaches next x y` says that the
loop comes from `x` to `y`, and the domain of `StateTransition.eval next` are
the states from which it ends.

* `reaches_invariant` — what one iteration preserves, all of them preserve.
* `dom_of_climbs` — a loop ends if a bounded measure grows at every iteration.
* `not_dom_of_stuck` — a loop that comes to a state which is its own successor
  does not end.
-/

namespace Cidl

open StateTransition

variable {σ : Type*} {next : σ → Option σ} {x y z : σ}

/-- A loop ends where it comes to a state without a next one. -/
theorem dom_iff : (eval next x).Dom ↔ ∃ y, Reaches next x y ∧ next y = none := by
  simp only [Part.dom_iff_mem, mem_eval]

theorem dom_of_none (h : next x = none) : (eval next x).Dom :=
  dom_iff.2 ⟨x, Relation.ReflTransGen.refl, h⟩

/-- The loop ends if it does from the next state on. -/
theorem dom_of_next (h : next x = some y) (hy : (eval next y).Dom) : (eval next x).Dom := by
  rwa [reaches_eval (Relation.ReflTransGen.single h)]

/-- The invariant rule for loops. -/
theorem reaches_invariant {P : σ → Prop} (hstep : ∀ x y, P x → next x = some y → P y) (hx : P x)
    (h : Reaches next x y) : P y := by
  induction h with
  | refl => exact hx
  | tail _ hnext ih => exact hstep _ _ ih hnext

/-- The termination rule: while an invariant holds, a bounded measure grows. -/
theorem dom_of_climbs {P : σ → Prop} (m : σ → ℕ) (B : ℕ) (hbound : ∀ x, P x → m x ≤ B)
    (hstep : ∀ x y, P x → next x = some y → P y ∧ m x < m y) (hx : P x) : (eval next x).Dom := by
  obtain ⟨d, hd⟩ : ∃ d, B - m x ≤ d := ⟨_, le_rfl⟩
  induction d generalizing x with
  | zero =>
    cases hnext : next x with
    | none => exact dom_of_none hnext
    | some y =>
      obtain ⟨hy, hlt⟩ := hstep x y hx hnext
      have := hbound y hy
      omega
  | succ d ih =>
    cases hnext : next x with
    | none => exact dom_of_none hnext
    | some y =>
      obtain ⟨hy, hlt⟩ := hstep x y hx hnext
      have := hbound y hy
      exact dom_of_next hnext (ih hy (by omega))

/-- From a state that is its own successor the loop comes to no other one. -/
theorem eq_of_stuck (hy : next y = some y) (h : Reaches next y z) : z = y :=
  reaches_invariant (P := fun z => z = y) (fun a b ha hb => by
    rw [ha, hy] at hb
    exact (Option.some.inj hb).symm) rfl h

theorem not_dom_of_stuck (h : Reaches next x y) (hy : next y = some y) :
    ¬ (eval next x).Dom := by
  intro hdom
  rw [reaches_eval h] at hdom
  obtain ⟨z, hz, hnone⟩ := dom_iff.1 hdom
  rw [eq_of_stuck hy hz, hy] at hnone
  exact Option.some_ne_none _ hnone

end Cidl
