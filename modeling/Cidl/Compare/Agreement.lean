import Cidl.Compare.Long
import Cidl.Compare.Short
import Cidl.Model.Write

/-!
# The assembly and the C comparator

`BYTE_COMPARE` swaps `memcmp_avx2_asm` for a byte loop in C.  The two agree on
all arrays but those of two or three equal bytes of which the second is not
zero: there the assembly returns that byte, shifted, instead of zero
(`memcmpAvx2Asm_agrees_iff`).
-/

namespace Cidl

variable {mem : ℕ → UInt8} {a b n : ℕ}

/-- The lengths and contents for which a wrong result is returned. -/
def StaleSecondByte (mem : ℕ → UInt8) (s1 s2 n : ℕ) : Prop :=
  (n = 2 ∨ n = 3) ∧ Same mem s1 s2 n ∧ mem (s1 + 1) ≠ 0

instance (mem : ℕ → UInt8) (s1 s2 n : ℕ) : Decidable (StaleSecondByte mem s1 s2 n) :=
  inferInstanceAs (Decidable (_ ∧ _))

theorem StaleSecondByte.lt (h : StaleSecondByte mem a b n) : n < vecSize := by
  obtain ⟨hn, -⟩ := h
  simp only [vecSize]
  omega

/-- The assembly returns, and reports the first difference unless the second
byte is left over. -/
theorem memcmpAvx2Asm_reports (mem : ℕ → UInt8) (ha : a + n ≤ wordSize) (hb : b + n ≤ wordSize) :
    ∃ r, memcmpAvx2Asm mem a b n = some r ∧
      (Reports mem a b n r ↔ ¬ StaleSecondByte mem a b n) := by
  simp only [memcmpAvx2Asm, Traced.memcmpAvx2Asm, Traced.result_ite, Traced.result_bind,
    Traced.returns_result]
  by_cases hshort : n < vecSize
  · rw [if_pos hshort]
    exact ⟨_, rfl, reports_lessVec_iff ha hb hshort⟩
  rw [if_neg hshort]
  have hok : ∀ {o : Option Ret}, (∃ r, o = some r ∧ Reports mem a b n r) →
      ∃ r, o = some r ∧ (Reports mem a b n r ↔ ¬ StaleSecondByte mem a b n) := by
    rintro o ⟨r, hr, hreport⟩
    exact ⟨r, hr, iff_of_true hreport fun h => hshort h.lt⟩
  refine hok ?_
  simp only [vecSize] at hshort
  have hnone : Same mem a b 0 := fun i hi => absurd hi (Nat.not_lt_zero i)
  have ha₀ : wadd a 0 = a := wadd_of_lt (by omega)
  have hb₀ : wadd b 0 = b := wadd_of_lt (by omega)
  have hcheck := cmpVec_cases (j := 0) ha hb 0 (by omega) hnone (Nat.le_refl _) rfl
  rw [ha₀, hb₀] at hcheck
  rcases hcheck with ⟨hzero, hfirst⟩ | ⟨hne, hreport⟩
  swap
  · rw [if_pos hne]
    exact ⟨_, rfl, hreport⟩
  rw [if_neg (not_not_intro hzero)]
  by_cases h₂ : n ≤ vecSize * 2
  · rw [if_pos h₂]
    simp only [vecSize] at h₂
    have := reports_lastVec (j := 0) ha hb (Nat.zero_add n).symm (by omega) hfirst (by omega)
    rw [ha₀, hb₀] at this
    exact ⟨_, rfl, this⟩
  rw [if_neg h₂]
  by_cases h₈ : vecSize * 8 < n
  · rw [if_pos h₈]
    exact reports_more8xVec ha hb h₈
  rw [if_neg h₈]
  simp only [vecSize] at h₂ h₈
  by_cases h₄ : n < vecSize * 4
  · rw [if_pos h₄]
    simp only [vecSize] at h₄
    have := reports_last4xVec (j := 0) ha hb (Nat.zero_add n).symm (by omega) (by omega) hnone
    rw [ha₀, hb₀] at this
    exact ⟨_, rfl, this⟩
  rw [if_neg h₄]
  simp only [vecSize] at h₄
  -- up to 256 bytes: the first 128 and the last 128
  have hround := fourVecs_cases (j := 0) ha hb joins_vpandPairs (by omega) hnone
  rw [ha₀, hb₀] at hround
  rcases hround with ⟨hnext, hall⟩ | ⟨r, hr, hreport⟩
  swap
  · rw [hr]
    exact ⟨r, rfl, hreport⟩
  have hend : ∀ x, x + n ≤ wordSize → wsub (wadd x n) (vecSize * 4) = wadd x (n - 128) :=
    fun x hx => by
      simp only [wsub, wadd, vecSize, wordSize] at *
      omega
  rw [hnext]
  simp only [hend a ha, hend b hb, Traced.result_bind]
  rcases fourVecs_cases (j := n - 128) ha hb joins_vpandChain (by omega)
    (hall.mono (by omega)) with ⟨hnext', hall'⟩ | ⟨r, hr, hreport⟩
  · rw [hnext']
    exact ⟨_, rfl, Or.inl ⟨rfl, hall'.mono (by omega)⟩⟩
  · rw [hr]
    exact ⟨r, rfl, hreport⟩

/-- What is asked of the two routines: the assembly returns; it answers zero
exactly when the C version does, which is when the arrays are equal; and
otherwise it stores the same address, that of the first difference. -/
def AgreesWithC (mem : ℕ → UInt8) (s1 s2 n : ℕ) : Prop :=
  ∃ r, memcmpAvx2Asm mem s1 s2 n = some r ∧
    (r.eax = 0 ↔ (memcmpC mem s1 s2 n).1 = 0) ∧
    ((memcmpC mem s1 s2 n).1 = 0 ↔ Same mem s1 s2 n) ∧
    ((memcmpC mem s1 s2 n).1 ≠ 0 → r.diffPos = (memcmpC mem s1 s2 n).2 ∧
      ∃ i < n, DiffAt mem s1 s2 i ∧ r.diffPos = some (s1 + i))

theorem reports_iff_agrees {r : Ret} : Reports mem a b n r ↔
    (r.eax = 0 ↔ (memcmpC mem a b n).1 = 0) ∧
    ((memcmpC mem a b n).1 = 0 ↔ Same mem a b n) ∧
    ((memcmpC mem a b n).1 ≠ 0 → r.diffPos = (memcmpC mem a b n).2 ∧
      ∃ i < n, DiffAt mem a b i ∧ r.diffPos = some (a + i)) := by
  have hequal : (memcmpC mem a b n).1 = 0 ↔ Same mem a b n := memcmpC_equal mem a b n
  constructor
  · rintro (⟨hzero, hsame⟩ | ⟨hne, i, hi, hdiff, hpos⟩)
    · have hc := hequal.2 hsame
      exact ⟨iff_of_true hzero hc, hequal, fun h => absurd hc h⟩
    · have hnot := hdiff.not_same hi
      refine ⟨iff_of_false hne (mt hequal.1 hnot), hequal, fun h => ⟨?_, i, hi, hdiff, hpos⟩⟩
      obtain ⟨k, hk, hpos', hneq, hbelow⟩ := memcmpC_first mem a b n h
      -- there is only one first difference
      have hki : k = i := by
        rcases Nat.lt_trichotomy k i with hlt | rfl | hlt
        · exact absurd (hdiff.below k hlt) hneq
        · rfl
        · exact absurd (hbelow i hlt) hdiff.differ
      rw [hpos, hpos', hki]
  · rintro ⟨hiff, -, hpos⟩
    by_cases hc : (memcmpC mem a b n).1 = 0
    · exact Or.inl ⟨hiff.2 hc, hequal.1 hc⟩
    · obtain ⟨-, i, hi, hdiff, heq⟩ := hpos hc
      exact Or.inr ⟨fun hzero => hc (hiff.1 hzero), i, hi, hdiff, heq⟩

/-- The two routines agree on all arrays but those of two or three equal bytes
with a second byte that is not zero. -/
theorem memcmpAvx2Asm_agrees_iff (mem : ℕ → UInt8) {s1 s2 n : ℕ} (h₁ : s1 + n ≤ wordSize)
    (h₂ : s2 + n ≤ wordSize) : AgreesWithC mem s1 s2 n ↔ ¬ StaleSecondByte mem s1 s2 n := by
  obtain ⟨r, hr, hreport⟩ := memcmpAvx2Asm_reports mem h₁ h₂
  rw [← hreport, reports_iff_agrees, AgreesWithC]
  constructor
  · rintro ⟨r', hr', hagrees⟩
    rw [hr, Option.some.injEq] at hr'
    exact hr' ▸ hagrees
  · intro hagrees
    exact ⟨r, hr, hagrees⟩

/-- Bytes that count up from each array's start. -/
def countingMem : ℕ → UInt8 := fun addr => UInt8.ofNat (addr % 1000)

theorem memcmpAvx2Asm_agrees_iff_fourBytes :
    4000 + 4 ≤ wordSize ∧ 8000 + 4 ≤ wordSize ∧ AgreesWithC countingMem 4000 8000 4 :=
  ⟨by decide, by decide,
    (memcmpAvx2Asm_agrees_iff countingMem (by decide) (by decide)).2 (by decide)⟩

/-- Two equal arrays, `0 1` both, that the assembly reports as different. -/
theorem equalBytes_reported_different :
    (memcmpAvx2Asm countingMem 4000 8000 2).map Ret.eax = some 256 ∧
      (memcmpC countingMem 4000 8000 2).1 = 0 ∧ ¬ AgreesWithC countingMem 4000 8000 2 := by
  refine ⟨by decide, by decide, ?_⟩
  rintro ⟨r, hr, hiff, -⟩
  have hc : (memcmpC countingMem 4000 8000 2).1 = 0 := by decide
  have hzero := hiff.2 hc
  have hrun : (memcmpAvx2Asm countingMem 4000 8000 2).map Ret.eax = some 256 := by decide
  rw [hr, Option.map_some, hzero] at hrun
  exact absurd hrun (by decide)

end Cidl
