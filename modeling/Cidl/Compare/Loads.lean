import Cidl.Compare.Long
import Cidl.Compare.Short
import Cidl.Model.Write

/-!
# What the AVX2 comparison reads

Every load of `memcmp_avx2_asm` lies inside its arrays, but for one: the cascade
for four to seven bytes goes on by words, and when the arrays have five bytes
and differ in the last one only, the third word is that byte and the one behind
the array (`LastOfFive`, `loads_inside_iff`).

`Stays a b n x` says that the loads of `x` lie inside the arrays.  It is shown
label by label, with the registers in the form `wadd a j` and the bytes before
`j` known to be equal, as for the results; where a difference has been found, the
mask says that it is one of the bytes compared.
-/

namespace Cidl

variable {mem : ℕ → UInt8} {a b n e i j k w len : ℕ} {α β : Type}

/-- The load lies inside one of the two arrays of `n` bytes. -/
def Inside (a b n : ℕ) (l : Load) : Prop :=
  (a ≤ l.addr ∧ l.addr + l.len ≤ a + n) ∨ (b ≤ l.addr ∧ l.addr + l.len ≤ b + n)

instance (a b n : ℕ) (l : Load) : Decidable (Inside a b n l) := inferInstanceAs (Decidable (_ ∨ _))

/-- All loads lie inside the arrays. -/
def Stays (a b n : ℕ) (x : Traced α) : Prop := ∀ l ∈ x.loads, Inside a b n l

theorem stays_pure (x : α) : Stays a b n (pure x : Traced α) :=
  fun _ hl => absurd hl List.not_mem_nil

theorem Stays.bind {x : Traced α} {f : α → Traced β} (hx : Stays a b n x)
    (hf : Stays a b n (f x.result)) : Stays a b n (x >>= f) := by
  intro l hl
  rw [Traced.loads_bind] at hl
  exact (List.mem_append.1 hl).elim (hx l) (hf l)

theorem Stays.returns {x : Traced Ret} (h : Stays a b n x) : Stays a b n (Traced.returns x) := by
  intro l hl
  exact h l (by simpa using hl)

theorem stays_load {l : Load} {x : α} (h : Inside a b n l) :
    Stays a b n ((x, [l]) : Traced α) := by
  intro l' hl'
  rw [List.mem_singleton.1 hl']
  exact h

section

variable (ha : a + n ≤ wordSize) (hb : b + n ≤ wordSize)

include ha in
theorem inside_first (hlen : 0 < len) (h : j + len ≤ n) : Inside a b n ⟨wadd a j, len⟩ := by
  refine Or.inl ?_
  rw [wadd_of_lt (by omega)]
  dsimp only
  omega

include hb in
theorem inside_second (hlen : 0 < len) (h : j + len ≤ n) : Inside a b n ⟨wadd b j, len⟩ := by
  refine Or.inr ?_
  rw [wadd_of_lt (by omega)]
  dsimp only
  omega

theorem inside_first_start (h : len ≤ n) : Inside a b n ⟨a, len⟩ :=
  Or.inl ⟨Nat.le_refl a, Nat.add_le_add_left h a⟩

theorem inside_second_start (h : len ≤ n) : Inside a b n ⟨b, len⟩ :=
  Or.inr ⟨Nat.le_refl b, Nat.add_le_add_left h b⟩

include ha hb

/-! ## Exits -/

/-- The exit loads the bytes at the difference that the mask has found. -/
theorem stays_reportAt {disp eax : ℕ} (hi : i + k + disp < n) (hk : trailingZeros 32 eax = k) :
    Stays a b n (Traced.reportAt mem disp (wadd a i) (wadd b i) eax) := by
  rw [Traced.reportAt, hk]
  refine Stays.bind (stays_load ?_) (Stays.bind (stays_load ?_) (stays_pure _))
  · rw [wadd_wadd, wadd_wadd]
    exact inside_first ha (by decide) (by omega)
  · rw [wadd_wadd, wadd_wadd]
    exact inside_second hb (by decide) (by omega)

/-- One comparison with its jump. -/
theorem stays_check {x y : Vec} {rest : Traced Ret} (hw : w ≤ 32) (hlen : len ≤ w)
    (hx : Holds mem (b + j) len w x) (hy : Holds mem (a + j) len w y) (hjn : j + len ≤ n)
    (hsame : Same mem a b e) (hje : j ≤ e)
    (hrest : Same mem a b (j + len) → Stays a b n rest) :
    Stays a b n (if maskDiff w (vpcmpeqb x y) ≠ 0 then
      Traced.firstVec mem (wadd a j) (wadd b j) (maskDiff w (vpcmpeqb x y)) else rest) := by
  rcases maskDiff_cases hw hlen hx hy hsame hje with ⟨hzero, hall⟩ | ⟨hne, k, hk, -, htz⟩
  · rw [if_neg (not_not_intro hzero)]
    exact hrest hall
  · rw [if_pos hne]
    exact stays_reportAt ha hb (by omega) htz

/-- The first comparison of all, with the registers as they are passed. -/
theorem stays_checkStart {x y : Vec} {rest : Traced Ret} (hw : w ≤ 32) (hlen : len ≤ w)
    (hx : Holds mem b len w x) (hy : Holds mem a len w y) (hpos : 0 < len) (hle : len ≤ n)
    (hrest : Same mem a b len → Stays a b n rest) :
    Stays a b n (if maskDiff w (vpcmpeqb x y) ≠ 0 then
      Traced.firstVec mem a b (maskDiff w (vpcmpeqb x y)) else rest) := by
  have hnone : Same mem a b 0 := fun i hi => absurd hi (Nat.not_lt_zero i)
  rw [← Nat.zero_add len] at hrest
  have h := stays_check (j := 0) ha hb hw hlen hx hy (by omega) hnone (Nat.le_refl 0) hrest
  rwa [wadd_of_lt (by omega), wadd_of_lt (by omega), Nat.add_zero, Nat.add_zero] at h

theorem stays_cmpVec (disp : ℕ) (hjn : j + disp + 32 ≤ n) :
    Stays a b n (Traced.cmpVec mem disp (wadd a j) (wadd b j)) := by
  refine Stays.bind (stays_load ?_) (Stays.bind (stays_load ?_) (stays_pure _))
  · rw [wadd_wadd]
    exact inside_second hb (by decide) hjn
  · rw [wadd_wadd]
    exact inside_first ha (by decide) hjn

/-- The jump behind a comparison of 32 bytes. -/
theorem stays_jump (disp : ℕ) {r : Traced α} {g : Traced Ret → Traced α}
    (hg : ∀ x, Stays a b n x → Stays a b n (g x)) (hjn : j + disp + 32 ≤ n)
    (hsame : Same mem a b e) (hje : j + disp ≤ e)
    (hr : Same mem a b (j + disp + 32) → Stays a b n r) {y : Vec}
    (hy : (Traced.cmpVec mem disp (wadd a j) (wadd b j)).result = y) :
    Stays a b n (if maskDiff 32 y ≠ 0 then
      g (Traced.reportAt mem disp (wadd a j) (wadd b j) (maskDiff 32 y)) else r) := by
  rcases cmpVec_mask ha hb disp hjn hsame hje hy with ⟨hzero, hall⟩ | ⟨hne, k, hk, -, htz⟩
  · rw [if_neg (not_not_intro hzero)]
    exact hr hall
  · rw [if_pos hne]
    exact hg _ (stays_reportAt ha hb (by omega) htz)

/-- The comparison of 32 bytes with its jump. -/
theorem stays_compare (disp : ℕ) {r : Vec → Traced α} {g : Traced Ret → Traced α}
    (hg : ∀ x, Stays a b n x → Stays a b n (g x)) (hjn : j + disp + 32 ≤ n)
    (hsame : Same mem a b e) (hje : j + disp ≤ e)
    (hr : Same mem a b (j + disp + 32) →
      Stays a b n (r (Traced.cmpVec mem disp (wadd a j) (wadd b j)).result)) :
    Stays a b n (Traced.cmpVec mem disp (wadd a j) (wadd b j) >>= fun v =>
      if maskDiff 32 v ≠ 0 then
        g (Traced.reportAt mem disp (wadd a j) (wadd b j) (maskDiff 32 v))
      else r v) :=
  (stays_cmpVec ha hb disp hjn).bind (stays_jump ha hb disp hg hjn hsame hje hr rfl)

/-! ## Lengths from 32 on -/

/-- `last_vec`, with all but the last 32 bytes known to be equal. -/
theorem stays_lastVec {rdx : ℕ} (hn : n = j + rdx) (hle : 32 ≤ n) (hsame : Same mem a b e)
    (he : n ≤ e + 32) : Stays a b n (Traced.lastVec mem (wadd a j) (wadd b j) rdx) := by
  rw [Traced.lastVec, wsub_wadd a (by simp only [vecSize]; omega),
    wsub_wadd b (by simp only [vecSize]; omega), ← hn]
  refine stays_compare (g := id) ha hb 0 (fun _ h => h) (by simp only [vecSize]; omega) hsame
    (by simp only [vecSize]; omega) fun _ => stays_pure _

/-- `last_2x_vec`, for up to 64 bytes. -/
theorem stays_last2xVec {rdx : ℕ} (hn : n = j + rdx) (hlo : 32 ≤ rdx) (hhi : rdx ≤ 64)
    (hsame : Same mem a b j) :
    Stays a b n (Traced.last2xVec mem (wadd a j) (wadd b j) rdx) := by
  rw [Traced.last2xVec]
  refine stays_compare (g := id) ha hb 0 (fun _ h => h) (by omega) hsame (Nat.le_refl _)
    fun hall => ?_
  exact stays_lastVec ha hb hn (by omega) hall (by omega)

/-- `last_4x_vec`, for 64 to 128 bytes. -/
theorem stays_last4xVec {rdx : ℕ} (hn : n = j + rdx) (hlo : 64 ≤ rdx) (hhi : rdx ≤ 128)
    (hsame : Same mem a b j) :
    Stays a b n (Traced.last4xVec mem (wadd a j) (wadd b j) rdx) := by
  rw [Traced.last4xVec]
  refine stays_compare (g := id) ha hb 0 (fun _ h => h) (by omega) hsame (Nat.le_refl _)
    fun h₁ => ?_
  rw [wadd_wadd, wadd_wadd]
  refine stays_compare (g := id) ha hb 0 (fun _ h => h) (by simp only [vecSize]; omega) h₁
    (Nat.le_refl _) fun h₂ => ?_
  rw [wsub_wadd a (by simp only [vecSize]; omega), wsub_wadd b (by simp only [vecSize]; omega)]
  refine stays_compare (g := id) ha hb 0 (fun _ h => h) (by simp only [vecSize]; omega) h₂
    (by simp only [vecSize]; omega) fun h₃ => ?_
  rw [wadd_wadd, wadd_wadd]
  exact stays_compare (g := id) ha hb 0 (fun _ h => h) (by simp only [vecSize]; omega) h₃
    (Nat.le_refl _) fun _ => stays_pure _

/-- `l4x_vec_end`, when one of its vectors has a difference. -/
theorem stays_l4xVecEnd (hjn : j + 128 ≤ n) (hsame : Same mem a b j)
    (hdiff : ¬ Same mem a b (j + 128)) :
    Stays a b n (Traced.l4xVecEnd mem (wadd a j) (wadd b j)
      (Traced.cmpVec mem 0 (wadd a j) (wadd b j)).result
      (Traced.cmpVec mem vecSize (wadd a j) (wadd b j)).result
      (Traced.cmpVec mem (vecSize * 2) (wadd a j) (wadd b j)).result
      (Traced.cmpVec mem (vecSize * 3) (wadd a j) (wadd b j)).result) := by
  refine stays_jump (g := id) ha hb 0 (fun _ h => h) (by omega) hsame (Nat.le_refl _)
    (fun h₁ => ?_) rfl
  refine stays_jump (g := id) ha hb 32 (fun _ h => h) (by omega) h₁ (by omega) (fun h₂ => ?_) rfl
  refine stays_jump (g := id) ha hb 64 (fun _ h => h) (by omega) h₂ (by omega) (fun h₃ => ?_) rfl
  -- the last vector is not tested: if the others are equal it has the difference
  rcases cmpVec_mask ha hb 96 (by omega) h₃ (by omega) rfl with ⟨-, h₄⟩ | ⟨-, k, hk, -, htz⟩
  · exact absurd (h₄.mono (by omega)) hdiff
  · exact stays_reportAt ha hb (by simp only [vecSize]; omega) htz

/-- Four vectors of each array. -/
theorem stays_fourVecs {join : Vec → Vec → Vec → Vec → Vec} (hjoin : Joins join)
    (hjn : j + 128 ≤ n) (hsame : Same mem a b j) :
    Stays a b n (Traced.fourVecs mem join (wadd a j) (wadd b j)) := by
  refine (stays_cmpVec ha hb 0 (by omega)).bind ?_
  refine (stays_cmpVec ha hb vecSize (by simp only [vecSize]; omega)).bind ?_
  refine (stays_cmpVec ha hb (vecSize * 2) (by simp only [vecSize]; omega)).bind ?_
  refine (stays_cmpVec ha hb (vecSize * 3) (by simp only [vecSize]; omega)).bind ?_
  have hall := vptest_join ha hb hjoin hjn hsame
  by_cases h : Same mem a b (j + 128)
  · have htest := hall.2 h
    exact (if_pos htest).symm ▸ stays_pure none
  · have htest := mt hall.1 h
    exact (if_neg htest).symm ▸ (stays_l4xVecEnd ha hb hjn hsame h).returns

/-- `loop_4x_vec`, with as much fuel as there are bytes left. -/
theorem stays_loop4xVec {fuel rdx : ℕ} (hn : n = j + rdx) (hlo : 128 ≤ rdx)
    (hsame : Same mem a b j) :
    Stays a b n (Traced.loop4xVec mem fuel (wadd a j) (wadd b j) rdx) := by
  induction fuel generalizing j rdx with
  | zero => exact stays_pure none
  | succ fuel ih =>
    rw [Traced.loop4xVec]
    refine (stays_fourVecs ha hb joins_vpandChain (by omega) hsame).bind ?_
    rcases fourVecs_cases ha hb joins_vpandChain (by omega) hsame with
      ⟨hnone, hall⟩ | ⟨r, hr, -⟩
    swap
    · rw [hr]
      exact stays_pure _
    have hrdx : wsub rdx (vecSize * 4) = rdx - 128 := by
      simp only [wsub, vecSize, wordSize] at *
      omega
    rw [hnone]
    simp only [hrdx, wadd_wadd]
    by_cases h₀ : vecSize * 4 ≤ rdx - 128
    · rw [if_pos h₀]
      exact ih (by simp only [vecSize]; omega) h₀ hall
    rw [if_neg h₀]
    by_cases h₁ : rdx - 128 ≤ vecSize
    · rw [if_pos h₁]
      exact (stays_lastVec ha hb (by simp only [vecSize]; omega) (by omega) hall
        (by simp only [vecSize] at h₁; omega)).returns
    rw [if_neg h₁]
    simp only [vecSize] at h₀ h₁
    by_cases h₂ : rdx - 128 ≤ vecSize * 2
    · rw [if_pos h₂]
      exact (stays_last2xVec ha hb (by omega) (by omega) h₂ hall).returns
    · rw [if_neg h₂]
      simp only [vecSize] at h₂
      exact (stays_last4xVec ha hb (by omega) (by omega) (by omega)
        hall).returns

/-- `more_8x_vec`. -/
theorem stays_more8xVec (hlo : 256 < n) : Stays a b n (Traced.more8xVec mem a b n) := by
  have hstart : Same mem a b 0 := fun i hi => absurd hi (Nat.not_lt_zero i)
  have hmod : a &&& (vecSize - 1) = a % 32 := Nat.and_two_pow_sub_one_eq_mod a 5
  have hr8 : wsub (a % 32) vecSize = wordSize - (32 - a % 32) := by
    simp only [wsub, vecSize, wordSize]
    omega
  have hstep : ∀ x, wsub x (wordSize - (32 - a % 32)) = wadd x (32 - a % 32) := fun x => by
    simp only [wsub, wadd, wordSize]
    omega
  have hrdx : wadd n (wordSize - (32 - a % 32)) = n - (32 - a % 32) := by
    simp only [wadd, wordSize] at *
    omega
  have hcompare := stays_compare (j := 0) ha hb 0 (fun _ h => Stays.returns h)
    (by omega) hstart (Nat.le_refl 0) (r := fun _ =>
      Traced.loop4xVec mem (n - (32 - a % 32)) (wadd a (32 - a % 32)) (wadd b (32 - a % 32))
        (n - (32 - a % 32))) fun hall =>
      stays_loop4xVec ha hb (by omega) (by omega) (hall.mono (by omega))
  rw [wadd_of_lt (show a + 0 < wordSize by omega), wadd_of_lt (show b + 0 < wordSize by omega)]
    at hcompare
  rw [Traced.more8xVec]
  simp only [hmod, hr8, hstep, hrdx]
  exact hcompare

/-! ## Lengths below 32 -/

omit ha hb in
theorem stays_le1 (hn : n = 1) : Stays a b n (Traced.le1 mem a b) :=
  (stays_load (inside_first_start (by omega))).bind
    ((stays_load (inside_second_start (by omega))).bind (stays_pure _))

omit ha hb in
/-- An address counted from the end of the array. -/
theorem wsub_end (x : ℕ) (hk : k ≤ n) :
    wsub (wadd x n) k = wadd x (n - k) := by
  simp only [wsub, wadd, wordSize] at *
  omega

theorem stays_between23 (hlo : 2 ≤ n) : Stays a b n (Traced.between23 mem a b n) := by
  refine (stays_load (inside_first_start hlo)).bind ?_
  refine (stays_load (inside_second_start hlo)).bind ?_
  dsimp only
  split
  · exact stays_pure _
  · rw [wsub_end b (by omega), wsub_end a (by omega)]
    refine (stays_load (inside_first ha (by decide) (by omega))).bind ?_
    exact (stays_load (inside_second hb (by decide) (by omega))).bind (stays_pure _)

theorem stays_between1631 (hlo : 16 ≤ n) (hhi : n ≤ 32) :
    Stays a b n (Traced.between1631 mem a b n) := by
  rw [Traced.between1631]
  refine (stays_load (inside_second_start hlo)).bind ?_
  refine (stays_load (inside_first_start hlo)).bind ?_
  refine stays_checkStart ha hb (by decide) (Nat.le_refl 16) (holds_vmovdqu_start (by omega))
    (holds_vmovdqu_start (by omega)) (by decide) hlo fun h₁ => ?_
  rw [wsub_end a hlo, wsub_end b hlo]
  refine (stays_load (inside_second hb (by decide) (by omega))).bind ?_
  refine (stays_load (inside_first ha (by decide) (by omega))).bind ?_
  exact stays_check ha hb (by decide) (Nat.le_refl 16) (holds_vmovdqu (by omega))
    (holds_vmovdqu (by omega)) (by omega) h₁ (by omega) fun _ => stays_pure _

/-- Five bytes that differ in the last one only. -/
def LastOfFive (mem : ℕ → UInt8) (a b n : ℕ) : Prop :=
  n = 5 ∧ Same mem a b 4 ∧ mem (a + 4) ≠ mem (b + 4)

instance (mem : ℕ → UInt8) (a b n : ℕ) : Decidable (LastOfFive mem a b n) :=
  inferInstanceAs (Decidable (_ ∧ _))

/-- Two words are equal when the first difference lies behind them. -/
theorem load16_same (disp : ℕ) (hdiff : DiffAt mem a b k) (hk : k < n) (hdk : disp + 2 ≤ k) :
    load16 mem (wadd a disp) = load16 mem (wadd b disp) := by
  rw [load16_eq_iff, wadd_wadd, wadd_wadd, load8_same ha hb (by omega),
    load8_same ha hb (by omega)]
  exact ⟨hdiff.below disp (by omega), hdiff.below (disp + 1) (by omega)⟩

/-- A word in front of which there is no difference. -/
theorem stays_wordStep (disp rax : ℕ) {next : Traced Ret} (hdiff : DiffAt mem a b k) (hk : k < n)
    (hdk : disp ≤ k) (hjn : disp + 2 ≤ n) (hnext : disp + 2 ≤ k → Stays a b n next) :
    Stays a b n (Traced.wordStep mem disp a b rax next) := by
  refine (stays_load (inside_first ha (by decide) hjn)).bind ?_
  refine (stays_load (inside_second hb (by decide) hjn)).bind ?_
  have hresult : ∀ x, (Traced.load16 mem x).result = load16 mem x := fun _ => rfl
  dsimp only
  split
  · rename_i hzero
    refine hnext ?_
    have heq := (subBits_eq_zero (load16_lt ..) (load16_lt ..)).1 hzero
    obtain ⟨h₀, h₁⟩ := load16_eq_iff.1 heq
    rw [wadd_wadd, wadd_wadd] at h₁
    by_contra hlt
    obtain rfl | rfl : k = disp ∨ k = disp + 1 := by omega
    · exact hdiff.differ ((load8_same ha hb (by omega)).1 h₀)
    · exact hdiff.differ ((load8_same ha hb hk).1 h₁)
  · split
    · exact stays_pure _
    · exact stays_pure _

/-- The loads behind two equal words. -/
theorem loads_wordStep (disp rax : ℕ) {next : Traced Ret} (hdiff : DiffAt mem a b k) (hk : k < n)
    (hdk : disp + 2 ≤ k) {l : Load} (hl : l ∈ next.loads) :
    l ∈ (Traced.wordStep mem disp a b rax next).loads := by
  have hzero : subBits 16 (Traced.load16 mem (wadd a disp)).result
      (Traced.load16 mem (wadd b disp)).result = 0 :=
    (subBits_eq_zero (load16_lt ..) (load16_lt ..)).2 (load16_same ha hb disp hdiff hk hdk)
  rw [Traced.wordStep, Traced.loads_bind, Traced.loads_bind]
  dsimp only
  rw [if_pos hzero]
  exact List.mem_append_right _ (List.mem_append_right _ hl)

/-- The difference of the two numbers that `between_4_7` makes of the arrays. -/
def bigEndianDiff (mem : ℕ → UInt8) (a b n : ℕ) : ℕ :=
  subBits 64 (movbe mem a * 2 ^ 32 % 2 ^ 64 ||| movbe mem (wsub (wadd a n) 4))
    (movbe mem b * 2 ^ 32 % 2 ^ 64 ||| movbe mem (wsub (wadd b n) 4))

/-- It is zero if and only if the arrays are the same. -/
theorem bigEndianDiff_eq_zero (hlo : 4 ≤ n) (hhi : n ≤ 7) :
    bigEndianDiff mem a b n = 0 ↔ Same mem a b n := by
  have hreport : Reports mem a b n (Traced.between47 mem a b n).result :=
    reports_between47 ha hb hlo hhi
  have heq : (Traced.between47 mem a b n).result =
      if bigEndianDiff mem a b n = 0 then ⟨bigEndianDiff mem a b n % 2 ^ 32, none⟩
      else (Traced.wordStep mem 0 a b (bigEndianDiff mem a b n) (Traced.later3diff47 mem a b
        (bigEndianDiff mem a b n) (bigEndianDiff mem a b n))).result := by
    simp only [Traced.between47, Traced.result_bind, Traced.result_ite, Traced.result_pure]
    rfl
  constructor
  · intro hzero
    rw [heq, if_pos hzero, hzero] at hreport
    rcases hreport with ⟨-, hsame⟩ | ⟨hne, -⟩
    · exact hsame
    · exact absurd rfl hne
  · intro hsame
    have hfirst : movbe mem a = movbe mem b := by
      have := (movbe_same ha hb (i := 0) (by omega)).2 fun j hj => hsame _ (by omega)
      rwa [wadd_of_lt (by omega), wadd_of_lt (by omega)] at this
    have hlast : movbe mem (wsub (wadd a n) 4) = movbe mem (wsub (wadd b n) 4) := by
      rw [wsub_end a hlo, wsub_end b hlo]
      exact (movbe_same ha hb (by omega)).2 fun j hj => hsame _ (by omega)
    rw [bigEndianDiff, hfirst, hlast, subBits_self]

omit ha hb in
/-- The loads of `between_4_7`: four words, and those of the cascade. -/
theorem between47_loads : (Traced.between47 mem a b n).loads =
    (Traced.movbe mem a).loads ++ ((Traced.movbe mem b).loads ++
      ((Traced.movbe mem (wsub (wadd a n) 4)).loads ++
        ((Traced.movbe mem (wsub (wadd b n) 4)).loads ++
          (if bigEndianDiff mem a b n = 0 then pure ⟨bigEndianDiff mem a b n % 2 ^ 32, none⟩
          else Traced.wordStep mem 0 a b (bigEndianDiff mem a b n)
            (Traced.later3diff47 mem a b (bigEndianDiff mem a b n)
              (bigEndianDiff mem a b n))).loads))) := by
  simp only [Traced.between47, Traced.loads_bind]
  rfl

theorem stays_between47_iff (hlo : 4 ≤ n) (hhi : n ≤ 7) :
    Stays a b n (Traced.between47 mem a b n) ↔ ¬ LastOfFive mem a b n := by
  have hzero : bigEndianDiff mem a b n = 0 ↔ Same mem a b n :=
    bigEndianDiff_eq_zero ha hb hlo hhi
  constructor
  · rintro hstays ⟨rfl, hsame, hne⟩
    have hdiff : DiffAt mem a b 4 := ⟨hsame, hne⟩
    -- the cascade comes to the third word, and one of its two loads is outside
    have hword : ∀ l ∈ (Traced.later5diff47 mem a b (bigEndianDiff mem a b 5)
        (bigEndianDiff mem a b 5)).loads, Inside a b 5 l := by
      intro l hl
      refine hstays l ?_
      rw [between47_loads, if_neg (mt hzero.1 (hdiff.not_same (by decide)))]
      refine List.mem_append_right _ (List.mem_append_right _ (List.mem_append_right _
        (List.mem_append_right _ ?_)))
      exact loads_wordStep ha hb 0 _ hdiff (by decide) (by decide)
        (loads_wordStep ha hb 2 _ hdiff (by decide) (by decide) hl)
    have hfirst : Inside a b 5 ⟨wadd a 4, 2⟩ := hword _ (List.mem_cons_self ..)
    have hsecond : Inside a b 5 ⟨wadd b 4, 2⟩ :=
      hword _ (List.mem_cons_of_mem _ (List.mem_cons_self ..))
    rw [wadd_of_lt (by omega)] at hfirst hsecond
    simp only [Inside] at hfirst hsecond
    omega
  · intro hnot
    have hcascade : Stays a b n (if bigEndianDiff mem a b n = 0 then
          pure ⟨bigEndianDiff mem a b n % 2 ^ 32, none⟩
        else Traced.wordStep mem 0 a b (bigEndianDiff mem a b n)
          (Traced.later3diff47 mem a b (bigEndianDiff mem a b n) (bigEndianDiff mem a b n))) := by
      by_cases h : bigEndianDiff mem a b n = 0
      · rw [if_pos h]
        exact stays_pure _
      rw [if_neg h]
      obtain ⟨k, hk, hdiff⟩ := exists_diffAt (mt hzero.2 h)
      refine stays_wordStep ha hb 0 _ hdiff hk (Nat.zero_le k) (by omega) fun h₂ => ?_
      refine stays_wordStep ha hb 2 _ hdiff hk h₂ (by omega) fun h₄ => ?_
      have hlong : 6 ≤ n := by
        by_contra hshort
        obtain rfl : n = 5 := by omega
        obtain rfl : k = 4 := by omega
        exact hnot ⟨rfl, hdiff.below, hdiff.differ⟩
      exact stays_wordStep ha hb 4 _ hdiff hk h₄ hlong fun _ => stays_pure _
    have hmovbe : ∀ {x}, Inside a b n ⟨x, 4⟩ → ∀ l ∈ (Traced.movbe mem x).loads, Inside a b n l :=
      fun h => stays_load h
    intro l hl
    rw [between47_loads, wsub_end a hlo, wsub_end b hlo] at hl
    rcases List.mem_append.1 hl with hl | hl
    · exact hmovbe (inside_first_start hlo) l hl
    rcases List.mem_append.1 hl with hl | hl
    · exact hmovbe (inside_second_start hlo) l hl
    rcases List.mem_append.1 hl with hl | hl
    · exact hmovbe (inside_first ha (by decide) (by omega)) l hl
    rcases List.mem_append.1 hl with hl | hl
    · exact hmovbe (inside_second hb (by decide) (by omega)) l hl
    · exact hcascade l hl

/-- `less_vec`. -/
theorem stays_lessVec_iff (hn : n < 32) :
    Stays a b n (Traced.lessVec mem a b n) ↔ ¬ LastOfFive mem a b n := by
  have hdl : n % 2 ^ 8 = n := Nat.mod_eq_of_lt (by omega)
  rw [Traced.lessVec, hdl]
  dsimp only
  by_cases h₁ : n = 1
  · rw [if_pos h₁]
    exact iff_of_true (stays_le1 h₁) fun h => absurd h.1 (by omega)
  rw [if_neg h₁]
  by_cases h₀ : n < 1
  · rw [if_pos h₀]
    exact iff_of_true (stays_pure _) fun h => absurd h.1 (by omega)
  rw [if_neg h₀]
  by_cases h₄ : n < 4
  · rw [if_pos h₄]
    exact iff_of_true (stays_between23 ha hb (by omega)) fun h => absurd h.1 (by omega)
  rw [if_neg h₄]
  by_cases h₈ : n < 8
  · rw [if_pos h₈]
    exact stays_between47_iff ha hb (by omega) (by omega)
  rw [if_neg h₈]
  refine iff_of_true ?_ fun h => absurd h.1 (by omega)
  by_cases h₁₆ : 16 ≤ n
  · rw [if_pos h₁₆]
    exact stays_between1631 ha hb h₁₆ (by omega)
  rw [if_neg h₁₆]
  have hlo : 8 ≤ n := by omega
  refine (stays_load (inside_first_start hlo)).bind ?_
  refine (stays_load (inside_second_start hlo)).bind ?_
  refine stays_checkStart ha hb (by decide) (by decide : 8 ≤ 16) (holds_vmovq_start (by omega))
    (holds_vmovq_start (by omega)) (by decide) hlo fun hs => ?_
  rw [wsub_end a hlo, wsub_end b hlo]
  refine (stays_load (inside_first ha (by decide) (by omega))).bind ?_
  refine (stays_load (inside_second hb (by decide) (by omega))).bind ?_
  exact stays_check ha hb (by decide) (by decide : 8 ≤ 16) (holds_vmovq (by omega))
    (holds_vmovq (by omega)) (by omega) hs (by omega) fun _ => stays_pure _

/-! ## All lengths -/

/-- Arrays of 32 bytes and more. -/
theorem stays_long (hlong : 32 ≤ n) : Stays a b n (Traced.memcmpAvx2Asm mem a b n) := by
  have hnone : Same mem a b 0 := fun i hi => absurd hi (Nat.not_lt_zero i)
  have ha₀ : wadd a 0 = a := wadd_of_lt (by omega)
  have hb₀ : wadd b 0 = b := wadd_of_lt (by omega)
  rw [Traced.memcmpAvx2Asm, if_neg (by simp only [vecSize]; omega)]
  have hcompare := fun rest => stays_compare (j := 0) ha hb 0 (r := rest)
    (fun _ h => Stays.returns h) (by omega) hnone (Nat.le_refl 0)
  rw [ha₀, hb₀] at hcompare
  refine hcompare _ fun hfirst => ?_
  by_cases h₂ : n ≤ vecSize * 2
  · rw [if_pos h₂]
    simp only [vecSize] at h₂
    have := stays_lastVec (j := 0) ha hb (Nat.zero_add n).symm hlong hfirst (by omega)
    rw [ha₀, hb₀] at this
    exact this.returns
  rw [if_neg h₂]
  by_cases h₈ : vecSize * 8 < n
  · rw [if_pos h₈]
    exact stays_more8xVec ha hb h₈
  rw [if_neg h₈]
  simp only [vecSize] at h₂ h₈
  by_cases h₄ : n < vecSize * 4
  · rw [if_pos h₄]
    simp only [vecSize] at h₄
    have := stays_last4xVec (j := 0) ha hb (Nat.zero_add n).symm (by omega)
      (by omega) hnone
    rw [ha₀, hb₀] at this
    exact this.returns
  rw [if_neg h₄]
  simp only [vecSize] at h₄
  -- up to 256 bytes: the first 128 and the last 128
  have hround := stays_fourVecs (j := 0) ha hb joins_vpandPairs (by omega) hnone
  have hcases := fourVecs_cases (j := 0) ha hb joins_vpandPairs (by omega) hnone
  rw [ha₀, hb₀] at hround hcases
  refine hround.bind ?_
  rcases hcases with ⟨hnext, hall⟩ | ⟨r, hr, -⟩
  swap
  · rw [hr]
    exact stays_pure _
  rw [hnext]
  dsimp only
  rw [wsub_end a (by simp only [vecSize]; omega), wsub_end b (by simp only [vecSize]; omega)]
  refine (stays_fourVecs ha hb joins_vpandChain (by simp only [vecSize]; omega)
    (hall.mono (by simp only [vecSize]; omega))).bind ?_
  split <;> exact stays_pure _

end

/-- All loads of `memcmp_avx2_asm` lie inside its arrays, unless they have five
bytes and differ in the last one only. -/
theorem loads_inside_iff (mem : ℕ → UInt8) {s1 s2 n : ℕ} (h₁ : s1 + n ≤ wordSize)
    (h₂ : s2 + n ≤ wordSize) :
    (∀ l ∈ (Traced.memcmpAvx2Asm mem s1 s2 n).loads, Inside s1 s2 n l) ↔
      ¬ LastOfFive mem s1 s2 n := by
  by_cases hshort : n < vecSize
  · rw [Traced.memcmpAvx2Asm, if_pos hshort, Traced.returns_loads]
    exact stays_lessVec_iff h₁ h₂ hshort
  · simp only [vecSize] at hshort
    exact iff_of_true (stays_long h₁ h₂ (by omega)) fun h => absurd h.1 (by omega)

/-- Memory that is zero but for one byte. -/
def oneByteMem : ℕ → UInt8 := fun addr => if addr = 4004 then 1 else 0

/-- Of six bytes that differ in the last but one, the third word is loaded as well:
it lies just inside. -/
theorem loads_inside_iff_thirdWord :
    ⟨4004, 2⟩ ∈ (Traced.memcmpAvx2Asm oneByteMem 4000 8000 6).loads ∧
      ∀ l ∈ (Traced.memcmpAvx2Asm oneByteMem 4000 8000 6).loads, Inside 4000 8000 6 l := by
  have hmem : ⟨4004, 2⟩ ∈ (Traced.memcmpAvx2Asm oneByteMem 4000 8000 6).loads := by
    decide +kernel
  have hfit : 4000 + 6 ≤ wordSize ∧ 8000 + 6 ≤ wordSize := by decide
  have hlast : ¬ LastOfFive oneByteMem 4000 8000 6 := by decide
  exact ⟨hmem, (loads_inside_iff oneByteMem hfit.1 hfit.2).2 hlast⟩

/-- Of two arrays of five bytes that differ in the last one the byte behind them
is loaded, too. -/
theorem lastOfFive_loadsBehind :
    ⟨4004, 2⟩ ∈ (Traced.memcmpAvx2Asm oneByteMem 4000 8000 5).loads ∧
      ¬ Inside 4000 8000 5 ⟨4004, 2⟩ ∧
      ¬ ∀ l ∈ (Traced.memcmpAvx2Asm oneByteMem 4000 8000 5).loads, Inside 4000 8000 5 l := by
  have hmem : ⟨4004, 2⟩ ∈ (Traced.memcmpAvx2Asm oneByteMem 4000 8000 5).loads := by
    decide +kernel
  have hout : ¬ Inside 4000 8000 5 ⟨4004, 2⟩ := by decide
  exact ⟨hmem, hout, fun h => hout (h _ hmem)⟩

end Cidl
