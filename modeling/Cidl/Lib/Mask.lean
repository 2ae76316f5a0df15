import Mathlib.Tactic

/-!
# Bit masks of a comparison

A vector comparison leaves a mask, one bit for each position that is equal.
Whether all are equal, and otherwise which is the first that is not, is found by
subtracting the mask of all ones and counting the zeros at the end of the
difference: below the first unequal position the subtraction borrows through
(`sub_allOnes_eq_zero`, `trailingZeros_sub_allOnes`).
-/

namespace Cidl

/-- The number whose lowest `w` bits are the given ones. -/
def maskOf : ℕ → (ℕ → Bool) → ℕ
  | 0, _ => 0
  | w + 1, bits => (bits 0).toNat + 2 * maskOf w fun i => bits (i + 1)

/-- How many of the lowest `w` bits are zero before the first one, `w` if there is none. -/
def trailingZeros (w x : ℕ) : ℕ := ((List.range w).find? fun i => x.testBit i).getD w

variable {w k : ℕ} {bits : ℕ → Bool}

theorem maskOf_lt (w : ℕ) (bits : ℕ → Bool) : maskOf w bits < 2 ^ w := by
  induction w generalizing bits with
  | zero => exact Nat.one_pos
  | succ w ih =>
    have hrest := ih fun i => bits (i + 1)
    have hbit := Bool.toNat_lt (bits 0)
    rw [maskOf, Nat.pow_succ]
    omega

theorem maskOf_all (h : ∀ i < w, bits i = true) : maskOf w bits + 1 = 2 ^ w := by
  induction w generalizing bits with
  | zero => rfl
  | succ w ih =>
    have hrest := ih fun i hi => h (i + 1) (by omega)
    rw [maskOf, h 0 (by omega), Nat.pow_succ]
    simp only [Bool.toNat_true]
    omega

/-- Below the first position that is not set the mask is made of ones. -/
theorem maskOf_first (hk : k < w) (hbelow : ∀ i < k, bits i = true) (hat : bits k = false) :
    ∃ q, maskOf w bits + 1 = 2 ^ k * (2 * q + 1) := by
  induction k generalizing w bits with
  | zero =>
    obtain ⟨w, rfl⟩ := Nat.exists_eq_succ_of_ne_zero (Nat.ne_of_gt hk)
    refine ⟨maskOf w fun i => bits (i + 1), ?_⟩
    rw [maskOf, hat]
    simp only [Bool.toNat_false]
    omega
  | succ k ih =>
    obtain ⟨w, rfl⟩ := Nat.exists_eq_succ_of_ne_zero (Nat.ne_of_gt (Nat.zero_lt_of_lt hk))
    obtain ⟨q, hq⟩ := ih (w := w) (by omega)
      (fun i hi => hbelow (i + 1) (by omega)) hat
    refine ⟨q, ?_⟩
    rw [maskOf, hbelow 0 (by omega), Nat.pow_succ, Nat.mul_right_comm, ← hq]
    simp only [Bool.toNat_true]
    omega

theorem trailingZeros_eq (hk : k < w) (q : ℕ) : trailingZeros w (2 ^ k * (2 * q + 1)) = k := by
  have hfind : (List.range w).find? (fun i => (2 ^ k * (2 * q + 1)).testBit i) = some k := by
    rw [List.find?_range_eq_some]
    refine ⟨?_, List.mem_range.2 hk, fun j hj => ?_⟩
    · rw [Nat.testBit_two_pow_mul]
      simp
    · rw [Nat.testBit_two_pow_mul]
      simp [Nat.not_le.2 hj]
  rw [trailingZeros, hfind]
  rfl

section

variable {n : ℕ} (hw : w ≤ n)

include hw

/-- The mask of all ones subtracted, in `n` bits. -/
theorem sub_allOnes (bits : ℕ → Bool) : (maskOf w bits + (2 ^ n - (2 ^ w - 1))) % 2 ^ n =
    (maskOf w bits + 1 + (2 ^ n - 2 ^ w)) % 2 ^ n := by
  have hle : 2 ^ w ≤ 2 ^ n := Nat.pow_le_pow_right (by decide) hw
  have hpos : 0 < 2 ^ w := Nat.two_pow_pos w
  congr 1
  omega

theorem sub_allOnes_eq_zero (h : ∀ i < w, bits i = true) :
    (maskOf w bits + (2 ^ n - (2 ^ w - 1))) % 2 ^ n = 0 := by
  have hle : 2 ^ w ≤ 2 ^ n := Nat.pow_le_pow_right (by decide) hw
  rw [sub_allOnes hw, maskOf_all h, Nat.add_sub_cancel' hle, Nat.mod_self]

theorem sub_allOnes_first (hk : k < w) (hbelow : ∀ i < k, bits i = true) (hat : bits k = false) :
    ∃ q, (maskOf w bits + (2 ^ n - (2 ^ w - 1))) % 2 ^ n = 2 ^ k * (2 * q + 1) := by
  obtain ⟨q, hq⟩ := maskOf_first hk hbelow hat
  obtain ⟨d, rfl⟩ : ∃ d, w = k + 1 + d := ⟨w - (k + 1), by omega⟩
  obtain ⟨c, rfl⟩ : ∃ c, n = k + 1 + d + c := ⟨n - (k + 1 + d), by omega⟩
  have hsmall : 2 ^ (k + 1 + d) = 2 ^ k * (2 * 2 ^ d) := by
    rw [Nat.pow_add, Nat.pow_succ, Nat.mul_assoc]
  have hlarge : 2 ^ (k + 1 + d + c) = 2 ^ k * (2 * (2 ^ d * 2 ^ c)) := by
    rw [Nat.pow_add, hsmall, Nat.mul_assoc, Nat.mul_assoc]
  have hle : 2 ^ d ≤ 2 ^ d * 2 ^ c := Nat.le_mul_of_pos_right _ (Nat.two_pow_pos c)
  have hlt : maskOf (k + 1 + d) bits + 1 < 2 ^ (k + 1 + d) := by
    refine Nat.lt_of_le_of_ne (maskOf_lt _ bits) fun heq => ?_
    rw [hq, hsmall] at heq
    have := Nat.eq_of_mul_eq_mul_left (Nat.two_pow_pos k) heq
    omega
  refine ⟨q + (2 ^ d * 2 ^ c - 2 ^ d), ?_⟩
  have hdiff : 2 ^ (k + 1 + d + c) - 2 ^ (k + 1 + d) = 2 ^ k * (2 * (2 ^ d * 2 ^ c - 2 ^ d)) := by
    rw [hlarge, hsmall, ← Nat.mul_sub, ← Nat.mul_sub]
  have hpow : 2 ^ (k + 1 + d) ≤ 2 ^ (k + 1 + d + c) :=
    Nat.pow_le_pow_right (by decide) (Nat.le_add_right _ _)
  rw [sub_allOnes hw, Nat.mod_eq_of_lt (by omega), hdiff, hq, ← Nat.mul_add]
  congr 1
  omega

variable (bits) in
/-- Where the difference has its first bit the comparison has its first difference. -/
theorem trailingZeros_sub_allOnes (hk : k < w) (hbelow : ∀ i < k, bits i = true)
    (hat : bits k = false) : (maskOf w bits + (2 ^ n - (2 ^ w - 1))) % 2 ^ n ≠ 0 ∧
      trailingZeros n ((maskOf w bits + (2 ^ n - (2 ^ w - 1))) % 2 ^ n) = k := by
  obtain ⟨q, hq⟩ := sub_allOnes_first hw hk hbelow hat
  rw [hq]
  exact ⟨Nat.ne_of_gt (Nat.mul_pos (Nat.two_pow_pos k) (Nat.succ_pos (2 * q))),
    trailingZeros_eq (by omega) q⟩

end

end Cidl
