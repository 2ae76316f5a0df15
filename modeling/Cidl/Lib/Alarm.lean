import Mathlib.Data.Nat.Count
import Mathlib.Tactic

/-!
# A stack with an alarm

A stack of free objects rings an alarm when an object is taken while fewer are
free than a level, and whenever it rings, the level is set anew from the number
of free objects.  If that never raises the level above the number of free
objects, the alarm rings at fixed fillings of the stack, whatever else is going
on: at `levels reset first k - 1` free objects for the `k`-th time.

* `Alarm.Kept` is the invariant, and `Kept.take` its step lemma.
* `Kept.rings_eq` counts the rings by the number of free objects alone.
-/

namespace Cidl

/-- How many objects are free, the level of the alarm, and how often it rang. -/
structure Alarm where
  free : ℕ
  level : ℕ
  rings : ℕ

namespace Alarm

/-- The levels, each set when the alarm rings with one object less than the level
before. -/
def levels (reset : ℕ → ℕ) (first : ℕ) : ℕ → ℕ
  | 0 => first
  | k + 1 => reset (levels reset first k - 1)

/-- Take an object. -/
def take (reset : ℕ → ℕ) (a : Alarm) : Alarm :=
  if a.free < a.level ∨ a.free = 0 then
    { free := a.free - 1, level := reset a.free, rings := a.rings + 1 }
  else { a with free := a.free - 1 }

/-- The level is the one after as many rings, not yet passed by more than one
object, and all earlier ones are behind. -/
structure Kept (reset : ℕ → ℕ) (first : ℕ) (a : Alarm) : Prop where
  level : a.level = levels reset first a.rings
  ahead : a.level ≤ a.free + 1
  behind : ∀ k < a.rings, a.free + 2 ≤ levels reset first k

variable {reset : ℕ → ℕ} {first : ℕ} {a : Alarm}

theorem kept_start (h : a.rings = 0) (hlevel : a.level = first) (hfree : first ≤ a.free + 1) :
    Kept reset first a where
  level := by rw [h, hlevel, levels]
  ahead := hlevel ▸ hfree
  behind k hk := by omega

/-- As long as there is an object to take. -/
theorem Kept.take (hreset : ∀ n, reset n ≤ n) (h : Kept reset first a) (hfree : 0 < a.free) :
    Kept reset first (a.take reset) := by
  have hlevel := h.level
  have hahead := h.ahead
  unfold Alarm.take
  split
  · rename_i hrings
    -- the alarm rings at the first object below the level
    have hat : a.free = levels reset first a.rings - 1 := by omega
    refine ⟨by rw [levels, ← hat], ?_, fun k hk => ?_⟩
    · have := hreset a.free
      dsimp only
      omega
    · dsimp only
      rcases Nat.lt_succ_iff_lt_or_eq.1 hk with hk | rfl
      · have := h.behind k hk
        omega
      · omega
  · refine ⟨hlevel, ?_, fun k hk => ?_⟩
    · dsimp only
      omega
    · have := h.behind k hk
      dsimp only
      omega

theorem levels_antitone (hreset : ∀ n, reset n ≤ n) : Antitone (levels reset first) :=
  antitone_nat_of_succ_le fun _ => (hreset _).trans (Nat.sub_le ..)

/-- The number of rings, when no level is left after `bound` of them. -/
theorem Kept.rings_eq (hreset : ∀ n, reset n ≤ n) {bound : ℕ}
    (hbound : levels reset first bound ≤ 1)
    (h : Kept reset first a) :
    a.rings = Nat.count (fun k => a.free + 2 ≤ levels reset first k) bound := by
  have hle : a.rings ≤ bound := by
    by_contra hlt
    have := h.behind bound (Nat.not_le.1 hlt)
    omega
  obtain ⟨later, rfl⟩ := Nat.exists_eq_add_of_le hle
  have hlater : ∀ k < later, ¬ a.free + 2 ≤ levels reset first (a.rings + k) := by
    intro k _
    have hanti := @levels_antitone reset first hreset _ _ (Nat.le_add_right a.rings k)
    have hahead := h.ahead
    rw [h.level] at hahead
    omega
  rw [Nat.count_add, Nat.count_iff_forall.2 h.behind, Nat.count_iff_forall_not.2 hlater,
    Nat.add_zero]

end Alarm

end Cidl
