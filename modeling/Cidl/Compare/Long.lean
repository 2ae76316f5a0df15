import Cidl.Compare.Vectors

/-!
# Comparing 32 bytes and more

The labels of `memcmp_avx2_asm` for long arrays, from the exits back to the
loop.  A label is entered with its registers somewhere in the arrays, `wadd a j`
and `wadd b j`, with as many bytes left as are missing to the end, and with the
bytes before `j` known to be equal; each of them then reports for the whole
arrays.  Overlapping loads at the end look at some of the equal bytes again.
-/

namespace Cidl

variable {mem : ℕ → UInt8} {a b n e j : ℕ}

/-! ## Four vectors -/

theorem vpcmpeqb_eq (x y : Vec) (i : ℕ) : vpcmpeqb x y i = 0xff ↔ x i = y i := by
  unfold vpcmpeqb
  split
  · exact iff_of_true rfl ‹_›
  · exact iff_of_false (by decide) ‹_›

theorem vpand_eq (x y : Vec) (i : ℕ) : vpand x y i = 0xff ↔ x i = 0xff ∧ y i = 0xff :=
  UInt8.and_eq_neg_one_iff

theorem vptest_ymm0 (y : Vec) : vptest ymm0 y = true ↔ ∀ i < 32, y i = 0xff := by
  have hbyte : ∀ x : UInt8, (ymm0 0 &&& ~~~ x == 0) = true ↔ x = 0xff := fun x => by
    rw [beq_iff_eq, show ymm0 0 = -1 from rfl, UInt8.neg_one_and, UInt8.not_eq_comm]
    exact Iff.rfl
  rw [vptest, List.all_eq_true]
  constructor
  · intro h i hi
    exact (hbyte (y i)).1 (h i (List.mem_range.2 hi))
  · intro h i hi
    exact (hbyte (y i)).2 (h i (List.mem_range.1 hi))

/-- A way of joining four vectors that is all ones where they are. -/
def Joins (join : Vec → Vec → Vec → Vec → Vec) : Prop :=
  ∀ x₁ x₂ x₃ x₄ i, join x₁ x₂ x₃ x₄ i = 0xff ↔
    x₁ i = 0xff ∧ x₂ i = 0xff ∧ x₃ i = 0xff ∧ x₄ i = 0xff

theorem joins_vpandChain : Joins vpandChain := by
  intro x₁ x₂ x₃ x₄ i
  simp only [vpandChain, vpand_eq, and_assoc]

theorem joins_vpandPairs : Joins vpandPairs := by
  intro x₁ x₂ x₃ x₄ i
  simp only [vpandPairs, vpand_eq, and_assoc]

section

variable (ha : a + n ≤ wordSize) (hb : b + n ≤ wordSize)

include ha hb

/-- `l4x_vec_end` is right when one of its vectors has a difference. -/
theorem reports_l4xVecEnd (hjn : j + 128 ≤ n) (hsame : Same mem a b j)
    (hdiff : ¬ Same mem a b (j + 128)) :
    Reports mem a b n (Traced.l4xVecEnd mem (wadd a j) (wadd b j)
      (Traced.cmpVec mem 0 (wadd a j) (wadd b j)).result
      (Traced.cmpVec mem vecSize (wadd a j) (wadd b j)).result
      (Traced.cmpVec mem (vecSize * 2) (wadd a j) (wadd b j)).result
      (Traced.cmpVec mem (vecSize * 3) (wadd a j) (wadd b j)).result).result := by
  simp only [Traced.l4xVecEnd, Traced.result_ite]
  refine reports_cmpVec ha hb 0 (by omega) hsame (Nat.le_refl _) fun _ h₁ => ?_
  refine reports_cmpVec ha hb 32 (by omega) h₁ (by omega) fun _ h₂ => ?_
  refine reports_cmpVec ha hb 64 (by omega) h₂ (by omega) fun _ h₃ => ?_
  -- the last vector is not tested: if the others are equal it has the difference
  rcases cmpVec_cases ha hb 96 (by omega) h₃ (by omega) rfl with ⟨-, h₄⟩ | ⟨-, hreport⟩
  · exact absurd (h₄.mono (by omega)) hdiff
  · exact hreport

theorem cmpVec_allOnes {disp : ℕ} (hjn : j + disp + 32 ≤ n) :
    (∀ i < 32, (Traced.cmpVec mem disp (wadd a j) (wadd b j)).result i = 0xff) ↔
      ∀ i < 32, mem (a + (j + disp + i)) = mem (b + (j + disp + i)) := by
  have hx : Holds mem (a + (j + disp)) 32 32 (vmovdqu mem (wadd a (j + disp))) :=
    holds_vmovdqu (by omega)
  have hy : Holds mem (b + (j + disp)) 32 32 (vmovdqu mem (wadd b (j + disp))) :=
    holds_vmovdqu (by omega)
  refine forall₂_congr fun i hi => ?_
  rw [cmpVec_eq, wadd_wadd, wadd_wadd, vpcmpeqb_eq, hx.inside i hi, hy.inside i hi,
    Nat.add_assoc a, Nat.add_assoc b, eq_comm]

/-- The test of the joined vectors passes when all 128 bytes are the same. -/
theorem vptest_join {join : Vec → Vec → Vec → Vec → Vec} (hjoin : Joins join) (hjn : j + 128 ≤ n)
    (hsame : Same mem a b j) :
    vptest ymm0 (join (Traced.cmpVec mem 0 (wadd a j) (wadd b j)).result
      (Traced.cmpVec mem vecSize (wadd a j) (wadd b j)).result
      (Traced.cmpVec mem (vecSize * 2) (wadd a j) (wadd b j)).result
      (Traced.cmpVec mem (vecSize * 3) (wadd a j) (wadd b j)).result) = true ↔
        Same mem a b (j + 128) := by
  have hvec : ∀ disp, disp + 32 ≤ 128 → Same mem a b (j + 128) →
      ∀ i < 32, (Traced.cmpVec mem disp (wadd a j) (wadd b j)).result i = 0xff := fun disp hle h =>
    (cmpVec_allOnes ha hb (by omega)).2 fun i hi => h _ (by omega)
  rw [vptest_ymm0]
  constructor
  · intro h i hi
    by_cases hij : i < j
    · exact hsame i hij
    obtain ⟨k, rfl⟩ := Nat.exists_eq_add_of_le (Nat.not_lt.1 hij)
    have hat : ∀ disp, disp + 32 ≤ 128 → disp ≤ k → k < disp + 32 →
        (∀ i < 32, (Traced.cmpVec mem disp (wadd a j) (wadd b j)).result i = 0xff) →
        mem (a + (j + k)) = mem (b + (j + k)) := by
      intro disp hle hk hk' hones
      have := (cmpVec_allOnes ha hb (by omega)).1 hones (k - disp) (by omega)
      rwa [show j + disp + (k - disp) = j + k by omega] at this
    have hone := fun i hi => (hjoin _ _ _ _ i).1 (h i hi)
    rcases Nat.lt_or_ge k 32 with h₁ | h₁
    · exact hat 0 (by omega) (by omega) (by omega) fun i hi => (hone i hi).1
    rcases Nat.lt_or_ge k 64 with h₂ | h₂
    · exact hat 32 (by omega) (by omega) (by omega) fun i hi => (hone i hi).2.1
    rcases Nat.lt_or_ge k 96 with h₃ | h₃
    · exact hat 64 (by omega) (by omega) (by omega) fun i hi => (hone i hi).2.2.1
    · exact hat 96 (by omega) (by omega) (by omega) fun i hi => (hone i hi).2.2.2
  · intro h i hi
    exact (hjoin _ _ _ _ i).2 ⟨hvec 0 (by omega) h i hi, hvec 32 (by omega) h i hi,
      hvec 64 (by omega) h i hi, hvec 96 (by omega) h i hi⟩

/-- Four vectors of each array, at the registers. -/
theorem fourVecs_cases {join : Vec → Vec → Vec → Vec → Vec} (hjoin : Joins join)
    (hjn : j + 128 ≤ n) (hsame : Same mem a b j) :
    ((Traced.fourVecs mem join (wadd a j) (wadd b j)).result = none ∧ Same mem a b (j + 128)) ∨
      ∃ r, (Traced.fourVecs mem join (wadd a j) (wadd b j)).result = some r ∧
        Reports mem a b n r := by
  have hall := vptest_join ha hb hjoin hjn hsame
  simp only [Traced.fourVecs, Traced.result_bind, Traced.result_ite, Traced.result_pure]
  by_cases h : Same mem a b (j + 128)
  · exact Or.inl ⟨if_pos (hall.2 h), h⟩
  · exact Or.inr ⟨_, if_neg fun htest => h (hall.1 htest), reports_l4xVecEnd ha hb hjn hsame h⟩

/-! ## The ends -/

/-- `last_vec`, with all but the last 32 bytes known to be equal. -/
theorem reports_lastVec {rdx : ℕ} (hn : n = j + rdx) (hle : 32 ≤ n) (hsame : Same mem a b e)
    (he : n ≤ e + 32) :
    Reports mem a b n (Traced.lastVec mem (wadd a j) (wadd b j) rdx).result := by
  simp only [Traced.lastVec, Traced.result_bind, Traced.result_ite, Traced.result_pure]
  rw [wsub_wadd a (by simp only [vecSize]; omega),
    wsub_wadd b (by simp only [vecSize]; omega), ← hn]
  refine reports_cmpVec ha hb 0 (by simp only [vecSize]; omega) hsame
    (by simp only [vecSize]; omega) fun hzero hall => ?_
  exact Or.inl ⟨hzero, hall.mono (by simp only [vecSize]; omega)⟩

/-- `last_2x_vec`, for up to 64 bytes. -/
theorem reports_last2xVec {rdx : ℕ} (hn : n = j + rdx) (hlo : 32 ≤ rdx) (hhi : rdx ≤ 64)
    (hsame : Same mem a b j) :
    Reports mem a b n (Traced.last2xVec mem (wadd a j) (wadd b j) rdx).result := by
  simp only [Traced.last2xVec, Traced.result_bind, Traced.result_ite]
  refine reports_cmpVec ha hb 0 (by omega) hsame (Nat.le_refl _) fun _ hall => ?_
  exact reports_lastVec ha hb hn (by omega) hall (by omega)

/-- `last_4x_vec`, for 64 to 128 bytes. -/
theorem reports_last4xVec {rdx : ℕ} (hn : n = j + rdx) (hlo : 64 ≤ rdx) (hhi : rdx ≤ 128)
    (hsame : Same mem a b j) :
    Reports mem a b n (Traced.last4xVec mem (wadd a j) (wadd b j) rdx).result := by
  simp only [Traced.last4xVec, Traced.result_bind, Traced.result_ite, Traced.result_pure]
  refine reports_cmpVec ha hb 0 (by omega) hsame (Nat.le_refl _) fun _ h₁ => ?_
  rw [wadd_wadd, wadd_wadd]
  refine reports_cmpVec ha hb 0 (by simp only [vecSize]; omega) h₁ (Nat.le_refl _) fun _ h₂ => ?_
  -- from here on the last 64 bytes are looked at
  rw [wsub_wadd a (by simp only [vecSize]; omega), wsub_wadd b (by simp only [vecSize]; omega)]
  refine reports_cmpVec ha hb 0 (by simp only [vecSize]; omega) h₂
    (by simp only [vecSize]; omega) fun _ h₃ => ?_
  rw [wadd_wadd, wadd_wadd]
  refine reports_cmpVec ha hb 0 (by simp only [vecSize]; omega) h₃ (Nat.le_refl _)
    fun hzero h₄ => ?_
  exact Or.inl ⟨hzero, h₄.mono (by simp only [vecSize]; omega)⟩

/-! ## The loop -/

/-- `loop_4x_vec` reports, and ends when the fuel is as large as the length. -/
theorem reports_loop4xVec {fuel rdx : ℕ} (hn : n = j + rdx) (hlo : 128 ≤ rdx) (hfuel : rdx ≤ fuel)
    (hsame : Same mem a b j) :
    ∃ r, (Traced.loop4xVec mem fuel (wadd a j) (wadd b j) rdx).result = some r ∧
      Reports mem a b n r := by
  induction fuel generalizing j rdx with
  | zero => omega
  | succ fuel ih =>
    rw [Traced.loop4xVec, Traced.result_bind]
    rcases fourVecs_cases ha hb joins_vpandChain (by omega) hsame with
      ⟨hnone, hall⟩ | ⟨r, hr, hreport⟩
    swap
    · rw [hr]
      exact ⟨r, rfl, hreport⟩
    have hrdx : wsub rdx (vecSize * 4) = rdx - 128 := by
      simp only [wsub, vecSize, wordSize] at *
      omega
    rw [hnone]
    simp only [hrdx, wadd_wadd, Traced.result_ite, Traced.returns_result]
    by_cases h₀ : vecSize * 4 ≤ rdx - 128
    · rw [if_pos h₀]
      exact ih (by simp only [vecSize]; omega) h₀ (by omega) hall
    rw [if_neg h₀]
    by_cases h₁ : rdx - 128 ≤ vecSize
    · rw [if_pos h₁]
      exact ⟨_, rfl, reports_lastVec ha hb (by simp only [vecSize]; omega) (by omega) hall
        (by simp only [vecSize] at h₁; omega)⟩
    rw [if_neg h₁]
    simp only [vecSize] at h₀ h₁
    by_cases h₂ : rdx - 128 ≤ vecSize * 2
    · rw [if_pos h₂]
      exact ⟨_, rfl, reports_last2xVec ha hb (by simp only [vecSize]; omega) (by omega) h₂ hall⟩
    · rw [if_neg h₂]
      simp only [vecSize] at h₂
      exact ⟨_, rfl, reports_last4xVec ha hb (by simp only [vecSize]; omega) (by omega)
        (by omega) hall⟩

/-- `more_8x_vec`: the first array is advanced to its next multiple of 32, over
bytes that have been compared. -/
theorem reports_more8xVec (hlo : 256 < n) :
    ∃ r, (Traced.more8xVec mem a b n).result = some r ∧ Reports mem a b n r := by
  have hstart : Same mem a b 0 := fun i hi => absurd hi (Nat.not_lt_zero i)
  have ha₀ : wadd a 0 = a := wadd_of_lt (by omega)
  have hb₀ : wadd b 0 = b := wadd_of_lt (by omega)
  have hcheck := cmpVec_cases (j := 0) ha hb 0 (by omega) hstart (Nat.le_refl _) rfl
  rw [ha₀, hb₀] at hcheck
  simp only [Traced.more8xVec, Traced.result_bind, Traced.result_ite, Traced.returns_result]
  rcases hcheck with ⟨hzero, hall⟩ | ⟨hne, hreport⟩
  swap
  · rw [if_pos hne]
    exact ⟨_, rfl, hreport⟩
  rw [if_neg (not_not_intro hzero)]
  have hmod : a &&& (vecSize - 1) = a % 32 := Nat.and_two_pow_sub_one_eq_mod a 5
  have hr8 : wsub (a % 32) vecSize = wordSize - (32 - a % 32) := by
    simp only [wsub, vecSize, wordSize]
    omega
  have hstep : ∀ x, wsub x (wordSize - (32 - a % 32)) = wadd x (32 - a % 32) := fun x => by
    simp only [wsub, wadd, wordSize]
    omega
  have hrdx : wadd n (wordSize - (32 - a % 32)) = n - (32 - a % 32) := by
    simp only [wadd, wordSize] at *
    omega
  simp only [hmod, hr8, hstep, hrdx]
  exact reports_loop4xVec ha hb (by omega) (by omega) (Nat.le_refl _) (hall.mono (by omega))

end

end Cidl
