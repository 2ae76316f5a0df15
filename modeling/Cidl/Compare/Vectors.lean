import Cidl.Model.Memcmp

/-!
# What the vector comparisons find

Every exit of `memcmp_avx2_asm` must say one of two things: the arrays are equal
and the result is zero, or the result is not zero and the address of the first
difference is stored (`Reports`).

* `maskDiff_cases` — the mask of one vector comparison tells whether the bytes
  are equal, and otherwise where the first difference is.
* `reports_check`, `reports_cmpVec` — one comparison with its jump: either the
  exit reports, or the bytes it has loaded are added to those known to be equal.

Registers are kept in the form `wadd a j`: the start of an array and a distance.
-/

namespace Cidl

variable {mem : ℕ → UInt8} {a b n e i j k w len : ℕ}

/-! ## Answers -/

/-- The first `n` bytes of the arrays are the same. -/
def Same (mem : ℕ → UInt8) (a b n : ℕ) : Prop := ∀ i < n, mem (a + i) = mem (b + i)

/-- The arrays differ at `i` for the first time. -/
structure DiffAt (mem : ℕ → UInt8) (a b i : ℕ) : Prop where
  below : Same mem a b i
  differ : mem (a + i) ≠ mem (b + i)

/-- What is left when `n` bytes have been compared. -/
def Reports (mem : ℕ → UInt8) (a b n : ℕ) (r : Ret) : Prop :=
  (r.eax = 0 ∧ Same mem a b n) ∨
    (r.eax ≠ 0 ∧ ∃ i < n, DiffAt mem a b i ∧ r.diffPos = some (a + i))

instance (mem : ℕ → UInt8) (a b n : ℕ) : Decidable (Same mem a b n) :=
  inferInstanceAs (Decidable (∀ i < n, mem (a + i) = mem (b + i)))

theorem Same.mono (h : Same mem a b n) (hle : k ≤ n) : Same mem a b k :=
  fun i hi => h i (Nat.lt_of_lt_of_le hi hle)

theorem DiffAt.not_same (h : DiffAt mem a b i) (hi : i < n) : ¬ Same mem a b n :=
  fun hsame => h.differ (hsame i hi)

/-- Arrays that are not the same differ somewhere for the first time. -/
theorem exists_diffAt (h : ¬ Same mem a b n) : ∃ i < n, DiffAt mem a b i := by
  induction n with
  | zero => exact absurd (fun i hi => absurd hi (Nat.not_lt_zero i)) h
  | succ n ih =>
    by_cases hsame : Same mem a b n
    · refine ⟨n, Nat.lt_succ_self n, hsame, fun hn => h fun i hi => ?_⟩
      rcases Nat.lt_succ_iff_lt_or_eq.1 hi with hi | rfl
      · exact hsame i hi
      · exact hn
    · obtain ⟨i, hi, hdiff⟩ := ih hsame
      exact ⟨i, Nat.lt_succ_of_lt hi, hdiff⟩

/-! ## Addresses -/

theorem wadd_wadd (a i j : ℕ) : wadd (wadd a i) j = wadd a (i + j) := by
  simp only [wadd, wordSize]
  omega

/-- An address counted from the end of what is left. -/
theorem wsub_wadd (a : ℕ) {i j k : ℕ} (h : k ≤ i + j) :
    wsub (wadd (wadd a i) j) k = wadd a (i + j - k) := by
  simp only [wsub, wadd, wordSize]
  omega

theorem load8_wadd (h : a + i < wordSize) : load8 mem (wadd a i) = (mem (a + i)).toNat := by
  rw [load8, wadd_of_lt h]

/-! ## One comparison -/

theorem vpmovmskb_vpcmpeqb (w : ℕ) (x y : Vec) :
    vpmovmskb w (vpcmpeqb x y) = maskOf w fun i => decide (x i = y i) := by
  unfold vpmovmskb vpcmpeqb
  congr 1
  funext i
  by_cases h : x i = y i
  · simp only [h, if_true]
    decide
  · simp only [h, if_false]
    decide

theorem maskDiff_eq (hw : w ≤ 32) (x y : Vec) : maskDiff w (vpcmpeqb x y) =
    (maskOf w (fun i => decide (x i = y i)) + (2 ^ 32 - (2 ^ w - 1))) % 2 ^ 32 := by
  have hle : 2 ^ w ≤ 2 ^ 32 := Nat.pow_le_pow_right (by decide) hw
  have hlt := maskOf_lt w fun i => decide (x i = y i)
  have hones : (2 ^ w - 1) % 2 ^ 32 = 2 ^ w - 1 := Nat.mod_eq_of_lt (by omega)
  rw [maskDiff, subBits, vpmovmskb_vpcmpeqb, Nat.mod_eq_of_lt (Nat.lt_of_lt_of_le hlt hle), hones]

/-- A vector of `w` bytes that holds `len` bytes of an array from `a` on, and zeros
behind them. -/
structure Holds (mem : ℕ → UInt8) (a len w : ℕ) (x : Vec) : Prop where
  inside : ∀ i < len, x i = mem (a + i)
  above : ∀ i, len ≤ i → i < w → x i = 0

theorem holds_vmovdqu (h : a + j + w ≤ wordSize) :
    Holds mem (a + j) w w (vmovdqu mem (wadd a j)) where
  inside i hi := by rw [vmovdqu, wadd_wadd, wadd_of_lt (by omega), Nat.add_assoc]
  above i hle hlt := absurd hlt (Nat.not_lt.2 hle)

theorem holds_vmovq (h : a + j + 8 ≤ wordSize) :
    Holds mem (a + j) 8 w (vmovq mem (wadd a j)) where
  inside i hi := by rw [vmovq, if_pos hi, wadd_wadd, wadd_of_lt (by omega), Nat.add_assoc]
  above i hle _ := if_neg (Nat.not_lt.2 hle)

theorem holds_vmovdqu_start (h : a + w ≤ wordSize) : Holds mem a w w (vmovdqu mem a) where
  inside i hi := by rw [vmovdqu, wadd_of_lt (by omega)]
  above i hle hlt := absurd hlt (Nat.not_lt.2 hle)

theorem holds_vmovq_start (h : a + 8 ≤ wordSize) : Holds mem a 8 w (vmovq mem a) where
  inside i hi := by rw [vmovq, if_pos hi, wadd_of_lt (by omega)]
  above i hle _ := if_neg (Nat.not_lt.2 hle)

/-- The mask of a comparison tells whether the bytes are equal, and otherwise
where the first difference is. -/
theorem maskDiff_cases {x y : Vec} (hw : w ≤ 32) (hlen : len ≤ w)
    (hx : Holds mem (b + j) len w x) (hy : Holds mem (a + j) len w y)
    (hsame : Same mem a b e) (hje : j ≤ e) :
    (maskDiff w (vpcmpeqb x y) = 0 ∧ Same mem a b (j + len)) ∨
      (maskDiff w (vpcmpeqb x y) ≠ 0 ∧ ∃ k < len, DiffAt mem a b (j + k) ∧
        trailingZeros 32 (maskDiff w (vpcmpeqb x y)) = k) := by
  have hbyte : ∀ i < len, x i = y i ↔ mem (a + (j + i)) = mem (b + (j + i)) := fun i hi => by
    rw [hx.inside i hi, hy.inside i hi, Nat.add_assoc, Nat.add_assoc, eq_comm]
  rw [maskDiff_eq hw]
  by_cases hall : Same mem a b (j + len)
  · refine Or.inl ⟨sub_allOnes_eq_zero hw fun i hi => decide_eq_true ?_, hall⟩
    by_cases hi' : i < len
    · exact (hbyte i hi').2 (hall (j + i) (by omega))
    · rw [hx.above i (by omega) hi, hy.above i (by omega) hi]
  · obtain ⟨i, hi, hdiff⟩ := exists_diffAt hall
    have hji : j ≤ i := by
      by_contra hlt
      exact hdiff.differ (hsame i (by omega))
    obtain ⟨k, rfl⟩ := Nat.exists_eq_add_of_le hji
    have hk : k < len := by omega
    have hzeros := trailingZeros_sub_allOnes (fun i => decide (x i = y i)) hw
      (Nat.lt_of_lt_of_le hk hlen)
      (fun i hik => decide_eq_true ((hbyte i (by omega)).2 (hdiff.below (j + i) (by omega))))
      (decide_eq_false fun heq => hdiff.differ ((hbyte k hk).1 heq))
    exact Or.inr ⟨hzeros.1, k, hk, hdiff, hzeros.2⟩

/-! ## Exits -/

theorem subBits_ne_zero {x y : ℕ} (hx : x < 2 ^ w) (hy : y < 2 ^ w) (hne : x ≠ y) :
    subBits w x y ≠ 0 := by
  rw [subBits, Nat.mod_eq_of_lt hx, Nat.mod_eq_of_lt hy]
  rcases Nat.lt_or_ge x y with hlt | hge
  · rw [Nat.mod_eq_of_lt (by omega)]
    omega
  · rw [show x + (2 ^ w - y) = (x - y) + 2 ^ w by omega, Nat.add_mod_right,
      Nat.mod_eq_of_lt (by omega)]
    omega

theorem subBits_self (w x : ℕ) : subBits w x x = 0 := by
  have hlt := Nat.mod_lt x (Nat.two_pow_pos w)
  rw [subBits, Nat.add_sub_cancel' (Nat.le_of_lt hlt), Nat.mod_self]

variable (ha : a + n ≤ wordSize) (hb : b + n ≤ wordSize)

include ha hb

/-- The exit reports the difference that the mask has found. -/
theorem reports_reportAt {disp eax : ℕ} (hi : i + k + disp < n)
    (hdiff : DiffAt mem a b (i + k + disp)) (hk : trailingZeros 32 eax = k) :
    Reports mem a b n (Traced.reportAt mem disp (wadd a i) (wadd b i) eax).result := by
  have haddr : wadd (wadd (wadd a i) k) disp = a + (i + k + disp) := by
    rw [wadd_wadd, wadd_wadd, ← Nat.add_assoc, wadd_of_lt (by omega)]
  have haddr' : wadd (wadd (wadd b i) k) disp = b + (i + k + disp) := by
    rw [wadd_wadd, wadd_wadd, ← Nat.add_assoc, wadd_of_lt (by omega)]
  simp only [Traced.reportAt, Traced.result_bind, Traced.load8_result, Traced.result_pure, hk,
    haddr, haddr']
  refine Or.inr ⟨?_, _, hi, hdiff, rfl⟩
  · have hx := (mem (a + (i + k + disp))).toNat_lt
    have hy := (mem (b + (i + k + disp))).toNat_lt
    exact subBits_ne_zero (by rw [load8]; omega) (by rw [load8]; omega) fun heq =>
      hdiff.differ (UInt8.toNat_inj.1 heq)

/-- One comparison with its jump. -/
theorem reports_check {x y : Vec} {rest : Ret} (hw : w ≤ 32) (hlen : len ≤ w)
    (hx : Holds mem (b + j) len w x) (hy : Holds mem (a + j) len w y) (hjn : j + len ≤ n)
    (hsame : Same mem a b e) (hje : j ≤ e)
    (hrest : maskDiff w (vpcmpeqb x y) = 0 → Same mem a b (j + len) → Reports mem a b n rest) :
    Reports mem a b n (if maskDiff w (vpcmpeqb x y) ≠ 0 then
      (Traced.firstVec mem (wadd a j) (wadd b j) (maskDiff w (vpcmpeqb x y))).result
      else rest) := by
  rcases maskDiff_cases hw hlen hx hy hsame hje with ⟨hzero, hall⟩ | ⟨hne, k, hk, hdiff, htz⟩
  · rw [if_neg (not_not_intro hzero)]
    exact hrest hzero hall
  · rw [if_pos hne]
    exact reports_reportAt ha hb (by omega) hdiff htz

/-- The first comparison of all, with the registers as they are passed. -/
theorem reports_checkStart {x y : Vec} {rest : Ret} (hw : w ≤ 32) (hlen : len ≤ w)
    (hx : Holds mem b len w x) (hy : Holds mem a len w y) (hpos : 0 < len) (hle : len ≤ n)
    (hrest : maskDiff w (vpcmpeqb x y) = 0 → Same mem a b len → Reports mem a b n rest) :
    Reports mem a b n (if maskDiff w (vpcmpeqb x y) ≠ 0 then
      (Traced.firstVec mem a b (maskDiff w (vpcmpeqb x y))).result else rest) := by
  have hnone : Same mem a b 0 := fun i hi => absurd hi (Nat.not_lt_zero i)
  rw [← Nat.zero_add len] at hrest
  have h := reports_check (j := 0) ha hb hw hlen hx hy (by omega) hnone (Nat.le_refl 0) hrest
  rwa [wadd_of_lt (by omega), wadd_of_lt (by omega), Nat.add_zero, Nat.add_zero] at h

omit ha hb in
theorem cmpVec_eq (disp rdi rsi : ℕ) : (Traced.cmpVec mem disp rdi rsi).result =
    vpcmpeqb (vmovdqu mem (wadd rsi disp)) (vmovdqu mem (wadd rdi disp)) := rfl

/-- The mask of 32 bytes some way behind the registers. -/
theorem cmpVec_mask (disp : ℕ) (hjn : j + disp + 32 ≤ n) (hsame : Same mem a b e)
    (hje : j + disp ≤ e) {y : Vec}
    (hy : (Traced.cmpVec mem disp (wadd a j) (wadd b j)).result = y) :
    (maskDiff 32 y = 0 ∧ Same mem a b (j + disp + 32)) ∨
      (maskDiff 32 y ≠ 0 ∧ ∃ k < 32, DiffAt mem a b (j + k + disp) ∧
        trailingZeros 32 (maskDiff 32 y) = k) := by
  rw [← hy, cmpVec_eq, wadd_wadd, wadd_wadd]
  refine (maskDiff_cases (Nat.le_refl 32) (Nat.le_refl 32) (holds_vmovdqu (by omega))
    (holds_vmovdqu (by omega)) hsame hje).imp_right ?_
  rintro ⟨hne, k, hk, hdiff, htz⟩
  rw [Nat.add_right_comm] at hdiff
  exact ⟨hne, k, hk, hdiff, htz⟩

/-- The comparison of 32 bytes some way behind the registers. -/
theorem cmpVec_cases (disp : ℕ) (hjn : j + disp + 32 ≤ n) (hsame : Same mem a b e)
    (hje : j + disp ≤ e) {y : Vec}
    (hy : (Traced.cmpVec mem disp (wadd a j) (wadd b j)).result = y) :
    (maskDiff 32 y = 0 ∧ Same mem a b (j + disp + 32)) ∨
      (maskDiff 32 y ≠ 0 ∧
        Reports mem a b n
          (Traced.reportAt mem disp (wadd a j) (wadd b j) (maskDiff 32 y)).result) := by
  refine (cmpVec_mask ha hb disp hjn hsame hje hy).imp_right ?_
  rintro ⟨hne, k, hk, hdiff, htz⟩
  exact ⟨hne, reports_reportAt ha hb (by omega) hdiff htz⟩

theorem reports_cmpVec (disp : ℕ) {rest : Ret} (hjn : j + disp + 32 ≤ n) (hsame : Same mem a b e)
    (hje : j + disp ≤ e)
    (hrest : maskDiff 32 (Traced.cmpVec mem disp (wadd a j) (wadd b j)).result = 0 →
      Same mem a b (j + disp + 32) → Reports mem a b n rest) :
    Reports mem a b n
      (if maskDiff 32 (Traced.cmpVec mem disp (wadd a j) (wadd b j)).result ≠ 0 then
        (Traced.reportAt mem disp (wadd a j) (wadd b j)
          (maskDiff 32 (Traced.cmpVec mem disp (wadd a j) (wadd b j)).result)).result
      else rest) := by
  rcases cmpVec_cases ha hb disp hjn hsame hje rfl with ⟨hzero, hall⟩ | ⟨hne, hreport⟩
  · rw [if_neg (not_not_intro hzero)]
    exact hrest hzero hall
  · rw [if_pos hne]
    exact hreport

end Cidl
