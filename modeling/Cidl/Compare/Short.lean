import Cidl.Compare.Vectors

/-!
# Comparing fewer than 32 bytes

The labels of `memcmp_avx2_asm` for short arrays.

* `reports_between47` — four to seven bytes, by two overlapping words and then
  two bytes at a time.
* `reports_between23_iff` — two or three bytes.  When the first two are equal
  only the lowest byte of the result is overwritten, so the second byte of the
  array stays in it: arrays that are equal are reported as equal only if that
  byte is zero.
-/

namespace Cidl

variable {mem : ℕ → UInt8} {a b n k : ℕ}

/-! ## Words -/

theorem load8_lt (mem : ℕ → UInt8) (addr : ℕ) : load8 mem addr < 256 := (mem addr).toNat_lt

theorem load8_eq_iff {x y : ℕ} : load8 mem x = load8 mem y ↔ mem x = mem y := UInt8.toNat_inj

theorem subBits_eq_zero {w x y : ℕ} (hx : x < 2 ^ w) (hy : y < 2 ^ w) :
    subBits w x y = 0 ↔ x = y := by
  constructor
  · intro h
    by_contra hne
    exact subBits_ne_zero hx hy hne h
  · rintro rfl
    exact subBits_self w x

theorem subBits_mod (w x y : ℕ) : subBits w (x % 2 ^ w) (y % 2 ^ w) = subBits w x y := by
  rw [subBits, subBits, Nat.mod_mod, Nat.mod_mod]

theorem load16_lt (mem : ℕ → UInt8) (addr : ℕ) : load16 mem addr < 2 ^ 16 := by
  have h₀ := load8_lt mem addr
  have h₁ := load8_lt mem (wadd addr 1)
  simp only [load16]
  omega

theorem load16_eq_iff {x y : ℕ} : load16 mem x = load16 mem y ↔
    load8 mem x = load8 mem y ∧ load8 mem (wadd x 1) = load8 mem (wadd y 1) := by
  have hx := load8_lt mem x
  have hy := load8_lt mem y
  simp only [load16]
  omega

theorem load16_mod (mem : ℕ → UInt8) (addr : ℕ) : load16 mem addr % 2 ^ 8 = load8 mem addr := by
  have h := load8_lt mem addr
  simp only [load16]
  omega

/-- The lowest bytes of two words are subtracted. -/
theorem subBits_load16 (mem : ℕ → UInt8) (x y : ℕ) :
    subBits 8 (load16 mem x) (load16 mem y) = 0 ↔ load8 mem x = load8 mem y := by
  rw [← subBits_mod, load16_mod, load16_mod,
    subBits_eq_zero (load8_lt mem x) (load8_lt mem y)]

theorem movbe_lt (mem : ℕ → UInt8) (addr : ℕ) : movbe mem addr < 2 ^ 32 := by
  have h₀ := load8_lt mem addr
  have h₁ := load8_lt mem (wadd addr 1)
  have h₂ := load8_lt mem (wadd addr 2)
  have h₃ := load8_lt mem (wadd addr 3)
  simp only [movbe]
  omega

theorem movbe_eq_iff {x y : ℕ} : movbe mem x = movbe mem y ↔
    load8 mem x = load8 mem y ∧ load8 mem (wadd x 1) = load8 mem (wadd y 1) ∧
      load8 mem (wadd x 2) = load8 mem (wadd y 2) ∧
        load8 mem (wadd x 3) = load8 mem (wadd y 3) := by
  have hx₁ := load8_lt mem (wadd x 1)
  have hx₂ := load8_lt mem (wadd x 2)
  have hx₃ := load8_lt mem (wadd x 3)
  have hy₁ := load8_lt mem (wadd y 1)
  have hy₂ := load8_lt mem (wadd y 2)
  have hy₃ := load8_lt mem (wadd y 3)
  simp only [movbe]
  omega

/-- The result of a word step is not zero, whatever the earlier subtraction left. -/
theorem setLow_mod_ne_zero {rax diff : ℕ} (h : diff % 2 ^ 16 ≠ 0) :
    setLow 16 rax diff % 2 ^ 32 ≠ 0 := by
  simp only [setLow]
  omega

/-- A word in the upper half of a register and one in the lower half. -/
theorem or_upper {x y : ℕ} (hx : x < 2 ^ 32) (hy : y < 2 ^ 32) :
    x * 2 ^ 32 % 2 ^ 64 ||| y = x * 2 ^ 32 + y := by
  rw [Nat.mod_eq_of_lt (by omega), Nat.mul_comm, Nat.two_pow_add_eq_or_of_lt hy]

/-! ## One byte -/

theorem reports_le1 (hn : n = 1) : Reports mem a b n (Traced.le1 mem a b).result := by
  have h₀ : subBits 32 (load8 mem a) (load8 mem b) = 0 ↔ mem a = mem b := by
    rw [subBits_eq_zero (Nat.lt_trans (load8_lt mem a) (by decide))
      (Nat.lt_trans (load8_lt mem b) (by decide)), load8_eq_iff]
  by_cases h : mem a = mem b
  · refine Or.inl ⟨h₀.2 h, fun i hi => ?_⟩
    rw [show i = 0 by omega]
    exact h
  · exact Or.inr ⟨fun hzero => h (h₀.1 hzero), 0, by omega,
      ⟨fun i hi => absurd hi (Nat.not_lt_zero i), h⟩, rfl⟩

/-! ## Two or three bytes -/

/-- When the first two bytes are equal the second one stays in the result, above
the difference of the last ones. -/
theorem between23_equal (h : load16 mem a = load16 mem b) (rdx : ℕ) :
    (Traced.between23 mem a b rdx).result =
      ⟨load8 mem (wadd a 1) * 2 ^ 8 + subBits 8 (load8 mem (wsub (wadd a rdx) 1))
        (load8 mem (wsub (wadd b rdx) 1)), some (wsub (wadd rdx a) 1)⟩ := by
  have hx := load8_lt mem (wsub (wadd a rdx) 1)
  have hy := load8_lt mem (wsub (wadd b rdx) 1)
  have ha₀ := load8_lt mem a
  have hlow : ∀ x v, v < 256 → setLow 8 x v % 2 ^ 8 = v := fun x v hv => by
    simp only [setLow]
    omega
  have hsub : ∀ x y v w, v < 256 → w < 256 →
      subBits 8 (setLow 8 x v) (setLow 8 y w) = subBits 8 v w := fun x y v w hv hw => by
    rw [← subBits_mod, hlow x v hv, hlow y w hw]
  have hhigh : ∀ v w, v < 2 ^ 8 → setLow 8 (setLow 8 (load16 mem a) w) v =
      load8 mem (wadd a 1) * 2 ^ 8 + v := fun v w hv => by
    simp only [setLow, load16]
    omega
  simp only [Traced.between23, Traced.result_bind, Traced.load16_result, h, subBits_self, ne_eq,
    not_true_eq_false, if_false, Traced.load8_result, Traced.result_pure]
  have hlt : subBits 8 (load8 mem (wsub (wadd a rdx) 1)) (load8 mem (wsub (wadd b rdx) 1)) <
      2 ^ 8 := Nat.mod_lt _ (by decide)
  rw [hsub _ _ _ _ hx hy, ← h, hhigh _ _ hlt]

section

variable (ha : a + n ≤ wordSize) (hb : b + n ≤ wordSize)

include ha hb

/-- A byte of the arrays. -/
theorem load8_same {i : ℕ} (hi : i < n) :
    load8 mem (wadd a i) = load8 mem (wadd b i) ↔ mem (a + i) = mem (b + i) := by
  rw [load8_eq_iff, wadd_of_lt (by omega), wadd_of_lt (by omega)]

/-- A difference in the first two bytes is reported. -/
theorem reports_sameLess2 (hlo : 2 ≤ n) (h : load16 mem a ≠ load16 mem b) :
    Reports mem a b n (Traced.between23 mem a b n).result ∧ ¬ Same mem a b n := by
  have hfirst : load8 mem a = load8 mem b ↔ mem a = mem b := load8_eq_iff
  have hsecond : load8 mem (wadd a 1) = load8 mem (wadd b 1) ↔ mem (a + 1) = mem (b + 1) :=
    load8_same ha hb (by omega)
  have hne : subBits 32 (load16 mem a) (load16 mem b) ≠ 0 :=
    subBits_ne_zero (Nat.lt_trans (load16_lt ..) (by decide))
      (Nat.lt_trans (load16_lt ..) (by decide)) h
  simp only [Traced.between23, Traced.result_bind, Traced.load16_result]
  rw [if_pos hne, Traced.result_pure, sameLess2]
  by_cases h₀ : load8 mem a = load8 mem b
  · have hdiff : DiffAt mem a b 1 := ⟨fun i hi => by rw [Nat.lt_one_iff.1 hi]; exact hfirst.1 h₀,
      fun heq => h (load16_eq_iff.2 ⟨h₀, hsecond.2 heq⟩)⟩
    rw [if_neg (not_not_intro ((subBits_load16 mem a b).2 h₀))]
    exact ⟨Or.inr ⟨hne, 1, by omega, hdiff, congrArg some (wadd_of_lt (by omega))⟩,
      hdiff.not_same (by omega)⟩
  · have hdiff : DiffAt mem a b 0 :=
      ⟨fun i hi => absurd hi (Nat.not_lt_zero i), fun heq => h₀ (hfirst.2 heq)⟩
    rw [if_pos fun hz => h₀ ((subBits_load16 mem a b).1 hz), firstDiff23]
    exact ⟨Or.inr ⟨hne, 0, by omega, hdiff, rfl⟩, hdiff.not_same (by omega)⟩

theorem reports_between23_iff (hlo : 2 ≤ n) (hhi : n ≤ 3) :
    Reports mem a b n (Traced.between23 mem a b n).result ↔
      ¬ (Same mem a b n ∧ mem (a + 1) ≠ 0) := by
  have hfirst : load8 mem a = load8 mem b ↔ mem a = mem b := load8_eq_iff
  have hsecond : load8 mem (wadd a 1) = load8 mem (wadd b 1) ↔ mem (a + 1) = mem (b + 1) :=
    load8_same ha hb (by omega)
  have hlast : load8 mem (wadd a (n - 1)) = load8 mem (wadd b (n - 1)) ↔
      mem (a + (n - 1)) = mem (b + (n - 1)) := load8_same ha hb (by omega)
  by_cases h : load16 mem a = load16 mem b
  · obtain ⟨h₀, h₁⟩ := load16_eq_iff.1 h
    have htwo : ∀ i < 2, mem (a + i) = mem (b + i) := fun i hi => by
      obtain rfl | rfl : i = 0 ∨ i = 1 := by omega
      · exact hfirst.1 h₀
      · exact hsecond.1 h₁
    have hend : ∀ x, x + n ≤ wordSize → wsub (wadd x n) 1 = wadd x (n - 1) := fun x hx => by
      simp only [wsub, wadd, wordSize] at *
      omega
    rw [between23_equal h, hend a ha, hend b hb]
    by_cases hl : load8 mem (wadd a (n - 1)) = load8 mem (wadd b (n - 1))
    · have hall : Same mem a b n := fun i hi => by
        obtain hi | rfl : i < 2 ∨ i = n - 1 := by omega
        · exact htwo i hi
        · exact hlast.1 hl
      have hzero : load8 mem (wadd a 1) * 2 ^ 8 + 0 = 0 ↔ mem (a + 1) = 0 := by
        rw [load8_wadd (by omega), ← UInt8.toNat_inj, UInt8.toNat_zero]
        omega
      rw [hl, subBits_self]
      constructor
      · rintro (⟨hz, -⟩ | ⟨-, i, hi, hdiff, -⟩) ⟨-, hne⟩
        · exact hne (hzero.1 hz)
        · exact hdiff.not_same hi hall
      · intro hno
        exact Or.inl ⟨hzero.2 (by_contra fun hne => hno ⟨hall, hne⟩), hall⟩
    · have hdiff : DiffAt mem a b (n - 1) :=
        ⟨fun i hi => htwo i (by omega), fun heq => hl (hlast.2 heq)⟩
      have hne : subBits 8 (load8 mem (wadd a (n - 1))) (load8 mem (wadd b (n - 1))) ≠ 0 :=
        subBits_ne_zero (load8_lt ..) (load8_lt ..) hl
      have haddr : wsub (wadd n a) 1 = a + (n - 1) := by
        simp only [wsub, wadd, wordSize] at *
        omega
      refine iff_of_true (Or.inr ⟨?_, n - 1, by omega, hdiff, congrArg some haddr⟩)
        fun hbad => hdiff.not_same (by omega) hbad.1
      show load8 mem (wadd a 1) * 2 ^ 8 + _ ≠ 0
      omega
  · obtain ⟨hreport, hnot⟩ := reports_sameLess2 ha hb hlo h
    exact iff_of_true hreport fun hbad => hnot hbad.1

/-! ## Four to seven bytes -/

/-- Two bytes in front of which there is no difference. -/
theorem reports_wordStep (disp rax : ℕ) {next : Traced Ret} (hdiff : DiffAt mem a b k) (hk : k < n)
    (hdk : disp ≤ k) (hnext : disp + 2 ≤ k → Reports mem a b n next.result) :
    Reports mem a b n (Traced.wordStep mem disp a b rax next).result := by
  have hlow : load8 mem (wadd a disp) = load8 mem (wadd b disp) ↔
      mem (a + disp) = mem (b + disp) := load8_same ha hb (by omega)
  have hword : load16 mem (wadd a disp) = load16 mem (wadd b disp) ↔
      load8 mem (wadd a disp) = load8 mem (wadd b disp) ∧
        load8 mem (wadd a (disp + 1)) = load8 mem (wadd b (disp + 1)) := by
    rw [load16_eq_iff, wadd_wadd, wadd_wadd]
  simp only [Traced.wordStep, Traced.result_bind, Traced.load16_result, Traced.result_ite,
    Traced.result_pure]
  by_cases h : load16 mem (wadd a disp) = load16 mem (wadd b disp)
  · rw [h, subBits_self, if_pos rfl]
    obtain ⟨h₀, h₁⟩ := hword.1 h
    refine hnext ?_
    by_contra hlt
    obtain rfl | rfl : k = disp ∨ k = disp + 1 := by omega
    · exact hdiff.differ (hlow.1 h₀)
    · exact hdiff.differ ((load8_same ha hb hk).1 h₁)
  · have hne : subBits 16 (load16 mem (wadd a disp)) (load16 mem (wadd b disp)) ≠ 0 :=
      subBits_ne_zero (load16_lt ..) (load16_lt ..) h
    have hmod : subBits 16 (load16 mem (wadd a disp)) (load16 mem (wadd b disp)) % 2 ^ 16 ≠ 0 := by
      rwa [subBits, Nat.mod_mod]
    rw [if_neg hne]
    by_cases h₀ : load8 mem (wadd a disp) = load8 mem (wadd b disp)
    · rw [if_neg (not_not_intro ((subBits_load16 mem _ _).2 h₀))]
      have hk₁ : k = disp + 1 := by
        have hk₀ : k ≠ disp := fun heq => hdiff.differ (heq ▸ hlow.1 h₀)
        by_contra hne₁
        refine h (hword.2 ⟨h₀, (load8_same ha hb (by omega)).2 (hdiff.below (disp + 1) ?_)⟩)
        omega
      subst hk₁
      exact Or.inr ⟨setLow_mod_ne_zero hmod, _, hk, hdiff, congrArg some (wadd_of_lt (by omega))⟩
    · rw [if_pos fun hz => h₀ ((subBits_load16 mem _ _).1 hz)]
      have hk₀ : k = disp := by
        by_contra hne₀
        exact h₀ (hlow.2 (hdiff.below disp (by omega)))
      subst hk₀
      exact Or.inr ⟨setLow_mod_ne_zero hmod, _, hk, hdiff, congrArg some (wadd_of_lt (by omega))⟩

/-- Four bytes from `i` on, as one word. -/
theorem movbe_same {i : ℕ} (hi : i + 4 ≤ n) :
    movbe mem (wadd a i) = movbe mem (wadd b i) ↔
      ∀ j < 4, mem (a + (i + j)) = mem (b + (i + j)) := by
  have hbyte : ∀ j < 4, load8 mem (wadd a (i + j)) = load8 mem (wadd b (i + j)) ↔
      mem (a + (i + j)) = mem (b + (i + j)) := fun j hj => load8_same ha hb (by omega)
  rw [movbe_eq_iff]
  simp only [wadd_wadd]
  rw [show wadd a i = wadd a (i + 0) from rfl, show wadd b i = wadd b (i + 0) from rfl,
    hbyte 0 (by omega), hbyte 1 (by omega), hbyte 2 (by omega), hbyte 3 (by omega)]
  constructor
  · rintro ⟨h₀, h₁, h₂, h₃⟩ j hj
    obtain rfl | rfl | rfl | rfl : j = 0 ∨ j = 1 ∨ j = 2 ∨ j = 3 := by omega
    exacts [h₀, h₁, h₂, h₃]
  · intro h
    exact ⟨h 0 (by omega), h 1 (by omega), h 2 (by omega), h 3 (by omega)⟩

theorem reports_between47 (hlo : 4 ≤ n) (hhi : n ≤ 7) :
    Reports mem a b n (Traced.between47 mem a b n).result := by
  have hend : ∀ x, x + n ≤ wordSize → wsub (wadd x n) 4 = wadd x (n - 4) := fun x hx => by
    simp only [wsub, wadd, wordSize] at *
    omega
  have hfirst : movbe mem a = movbe mem b ↔ ∀ j < 4, mem (a + (0 + j)) = mem (b + (0 + j)) := by
    rw [← movbe_same ha hb (by omega), wadd_of_lt (by omega), wadd_of_lt (by omega)]
    exact Iff.rfl
  have hlast : movbe mem (wadd a (n - 4)) = movbe mem (wadd b (n - 4)) ↔
      ∀ j < 4, mem (a + (n - 4 + j)) = mem (b + (n - 4 + j)) := movbe_same ha hb (by omega)
  have hx := movbe_lt mem a
  have hy := movbe_lt mem b
  have hx' := movbe_lt mem (wadd a (n - 4))
  have hy' := movbe_lt mem (wadd b (n - 4))
  simp only [Traced.between47, Traced.result_bind, Traced.movbe_result, Traced.result_ite,
    Traced.result_pure]
  rw [hend a ha, hend b hb, or_upper hx hx', or_upper hy hy']
  by_cases h : Same mem a b n
  · have h₀ : movbe mem a = movbe mem b := hfirst.2 fun j hj => h _ (by omega)
    have h₁ : movbe mem (wadd a (n - 4)) = movbe mem (wadd b (n - 4)) :=
      hlast.2 fun j hj => h _ (by omega)
    rw [h₀, h₁, subBits_self, if_pos rfl]
    exact Or.inl ⟨rfl, h⟩
  · obtain ⟨k, hk, hdiff⟩ := exists_diffAt h
    have hne : movbe mem a * 2 ^ 32 + movbe mem (wadd a (n - 4)) ≠
        movbe mem b * 2 ^ 32 + movbe mem (wadd b (n - 4)) := fun heq => by
      rcases Nat.lt_or_ge k 4 with hk₄ | hk₄
      · have := hfirst.1 (by omega) k hk₄
        rw [Nat.zero_add] at this
        exact hdiff.differ this
      · have := hlast.1 (by omega) (k - (n - 4)) (by omega)
        rw [show n - 4 + (k - (n - 4)) = k by omega] at this
        exact hdiff.differ this
    rw [if_neg (subBits_ne_zero (by omega) (by omega) hne)]
    refine reports_wordStep ha hb 0 _ hdiff hk (Nat.zero_le k) fun h₂ => ?_
    refine reports_wordStep ha hb 2 _ hdiff hk h₂ fun h₄ => ?_
    refine reports_wordStep ha hb 4 _ hdiff hk h₄ fun h₆ => ?_
    -- only the last of seven bytes is left, and the lower halves hold it
    have hk₆ : k = 6 := by omega
    subst hk₆
    have h₀ : movbe mem a = movbe mem b := hfirst.2 fun j hj => hdiff.below _ (by omega)
    refine Or.inr ⟨?_, 6, hk, hdiff, congrArg some (wadd_of_lt (by omega))⟩
    show subBits 64 _ _ % 2 ^ 32 ≠ 0
    simp only [subBits]
    omega

/-! ## Eight to thirty-one bytes -/

theorem reports_between1631 (hlo : 16 ≤ n) (hhi : n ≤ 32) :
    Reports mem a b n (Traced.between1631 mem a b n).result := by
  have hend : ∀ x, x + n ≤ wordSize → wsub (wadd x n) 16 = wadd x (n - 16) := fun x hx => by
    simp only [wsub, wadd, wordSize] at *
    omega
  simp only [Traced.between1631, Traced.result_bind, Traced.vmovdqu_result, Traced.result_ite,
    Traced.result_pure, hend a ha, hend b hb]
  refine reports_checkStart ha hb (by decide) (Nat.le_refl 16) (holds_vmovdqu_start (by omega))
    (holds_vmovdqu_start (by omega)) (by decide) hlo fun _ h₁ => ?_
  refine reports_check ha hb (by decide) (Nat.le_refl 16) (holds_vmovdqu (by omega))
    (holds_vmovdqu (by omega)) (by omega) h₁ (by omega) fun hzero h₂ => ?_
  exact Or.inl ⟨hzero, h₂.mono (by omega)⟩

/-- `less_vec`: only two or three equal bytes can be reported wrongly. -/
theorem reports_lessVec_iff (hn : n < 32) : Reports mem a b n (Traced.lessVec mem a b n).result ↔
    ¬ ((n = 2 ∨ n = 3) ∧ Same mem a b n ∧ mem (a + 1) ≠ 0) := by
  have hdl : n % 2 ^ 8 = n := Nat.mod_eq_of_lt (by omega)
  have hnone : Same mem a b 0 := fun i hi => absurd hi (Nat.not_lt_zero i)
  simp only [Traced.lessVec, hdl, Traced.result_ite, Traced.result_bind, Traced.vmovq_result,
    Traced.result_pure]
  by_cases h₁ : n = 1
  · rw [if_pos h₁]
    exact iff_of_true (reports_le1 h₁) (by omega)
  rw [if_neg h₁]
  by_cases h₀ : n < 1
  · rw [if_pos h₀]
    exact iff_of_true (Or.inl ⟨rfl, hnone.mono (by omega)⟩) (by omega)
  rw [if_neg h₀]
  by_cases h₄ : n < 4
  · rw [if_pos h₄, reports_between23_iff ha hb (by omega) (by omega)]
    have h₂₃ : n = 2 ∨ n = 3 := by omega
    simp only [h₂₃, true_and]
  rw [if_neg h₄]
  refine iff_of_true ?_ (by omega)
  by_cases h₈ : n < 8
  · rw [if_pos h₈]
    exact reports_between47 ha hb (by omega) (by omega)
  rw [if_neg h₈]
  by_cases h₁₆ : 16 ≤ n
  · rw [if_pos h₁₆]
    exact reports_between1631 ha hb h₁₆ (by omega)
  rw [if_neg h₁₆]
  have hend : ∀ x, x + n ≤ wordSize → wsub (wadd x n) 8 = wadd x (n - 8) := fun x hx => by
    simp only [wsub, wadd, wordSize] at *
    omega
  rw [hend a ha, hend b hb]
  refine reports_checkStart ha hb (by decide) (by decide : 8 ≤ 16) (holds_vmovq_start (by omega))
    (holds_vmovq_start (by omega)) (by decide) (by omega) fun _ hs => ?_
  refine reports_check ha hb (by decide) (by decide : 8 ≤ 16) (holds_vmovq (by omega))
    (holds_vmovq (by omega)) (by omega) hs (by omega) fun hzero hs' => ?_
  exact Or.inl ⟨hzero, hs'.mono (by omega)⟩

end

end Cidl
