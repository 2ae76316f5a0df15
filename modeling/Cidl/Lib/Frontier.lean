import Mathlib.Tactic

/-!
# Going over ordered items behind a frontier

A scan goes over items that begin at some position.  It passes over those that
begin below its frontier; at any other it stops, and the item may move the
frontier to where it ends.  `taken` are the items at which it stops, and
`frontier` is where the frontier is in the end.

When no item that begins at or below `tail` ends behind it, the taken items
that move the frontier are disjoint, lie between the first frontier and the
last, and have no greater length in total (`taken_disjoint`, `length_taken_le`).
If some item that moves the frontier begins behind `tail`, such an item is taken
(`exists_taken_beyond`).  Among ascending items none is missed: those that are not
taken begin inside one that is (`mem_taken_or_covered`).
-/

namespace Cidl

variable {α : Type*}

/-- The items of a scan: where they begin, and where they end if they move the
frontier. -/
structure Extents (α : Type*) where
  start : α → ℕ
  stop : α → Option ℕ

namespace Extents

variable (X : Extents α)

/-- The frontier after some items. -/
def frontier : ℕ → List α → ℕ
  | d, [] => d
  | d, a :: l => if X.start a < d then frontier d l else frontier ((X.stop a).getD d) l

/-- The items that begin at or behind the frontier. -/
def taken : ℕ → List α → List α
  | _, [] => []
  | d, a :: l => if X.start a < d then taken d l else a :: taken ((X.stop a).getD d) l

variable {X} {d tail : ℕ} {l l' : List α}

theorem frontier_append : X.frontier d (l ++ l') = X.frontier (X.frontier d l) l' := by
  induction l generalizing d with
  | nil => rfl
  | cons a l ih =>
    rw [List.cons_append, frontier, frontier]
    split
    · exact ih
    · exact ih

theorem taken_append : X.taken d (l ++ l') = X.taken d l ++ X.taken (X.frontier d l) l' := by
  induction l generalizing d with
  | nil => rfl
  | cons a l ih =>
    rw [List.cons_append, taken, taken, frontier]
    split
    · exact ih
    · rw [ih, List.cons_append]

theorem taken_sublist : List.Sublist (X.taken d l) l := by
  induction l generalizing d with
  | nil => exact List.Sublist.slnil
  | cons a l ih =>
    rw [taken]
    split
    · exact ih.cons a
    · exact ih.cons_cons a

/-- The frontier is where it was, or where one of the taken items ends. -/
theorem frontier_cases :
    X.frontier d l = d ∨ ∃ a ∈ X.taken d l, X.stop a = some (X.frontier d l) := by
  induction l generalizing d with
  | nil => exact Or.inl rfl
  | cons a l ih =>
    rw [frontier, taken]
    split
    · exact ih
    · rcases ih (d := (X.stop a).getD d) with heq | ⟨b, hb, hstop⟩
      · cases hs : X.stop a with
        | none =>
          rw [hs] at heq
          exact Or.inl heq
        | some e =>
          rw [hs] at heq
          rw [heq]
          exact Or.inr ⟨a, List.mem_cons_self .., hs⟩
      · exact Or.inr ⟨b, List.mem_cons_of_mem _ hb, hstop⟩

/-- Items below the frontier change nothing. -/
theorem taken_eq_nil (h : ∀ a ∈ l, X.start a < d) : X.taken d l = [] ∧ X.frontier d l = d := by
  induction l with
  | nil => exact ⟨rfl, rfl⟩
  | cons a l ih =>
    rw [taken, frontier, if_pos (h a (List.mem_cons_self ..)), if_pos (h a (List.mem_cons_self ..))]
    exact ih fun b hb => h b (List.mem_cons_of_mem _ hb)

/-- The first item that is not below the frontier is taken. -/
theorem taken_ne_nil (h : ∃ a ∈ l, d ≤ X.start a) : X.taken d l ≠ [] := by
  induction l with
  | nil => obtain ⟨a, ha, -⟩ := h; cases ha
  | cons b l ih =>
    rw [taken]
    split
    · rename_i hb
      obtain ⟨a, ha, hd⟩ := h
      rcases List.mem_cons.1 ha with rfl | ha
      · exact absurd hb (Nat.not_lt.2 hd)
      · exact ih ⟨a, ha, hd⟩
    · exact List.cons_ne_nil _ _

/-- The first item that is not below the frontier is taken, and it moves the
frontier behind itself and all items before it. -/
theorem taken_of_find {a : α} {e : ℕ} (hf : l.find? (fun x => decide (d ≤ X.start x)) = some a)
    (hs : X.stop a = some e) (he : X.start a < e) : X.taken d l = a :: X.taken e l := by
  obtain ⟨ha, pre, post, rfl, hpre⟩ := List.find?_eq_some_iff_append.1 hf
  have ha : d ≤ X.start a := of_decide_eq_true ha
  have hbelow : ∀ x ∈ pre, X.start x < d := by
    intro x hx
    simpa using hpre x hx
  have htaken : X.taken d (a :: post) = a :: X.taken e post := by
    rw [taken, if_neg (Nat.not_lt.2 ha), hs, Option.getD_some]
  obtain ⟨h₁, h₂⟩ := taken_eq_nil (X := X) hbelow
  obtain ⟨h₃, h₄⟩ := taken_eq_nil (X := X) (l := pre ++ [a]) (d := e) (by
    intro x hx
    rcases List.mem_append.1 hx with hx | hx
    · exact Nat.lt_trans (Nat.lt_of_lt_of_le (hbelow x hx) ha) he
    · rw [List.mem_singleton.1 hx]
      exact he)
  rw [taken_append, h₁, h₂, List.nil_append, htaken, List.append_cons pre a post, taken_append, h₃,
    h₄, List.nil_append]

/-- An item is taken if every item before it that is not below the first frontier
ends at or before it. -/
theorem mem_taken_append {a : α} {pre post : List α} (ha : d ≤ X.start a)
    (hpre : ∀ x ∈ pre, d ≤ X.start x → ∀ e ∈ X.stop x, X.start x ≤ e ∧ e ≤ X.start a) :
    a ∈ X.taken d (pre ++ a :: post) := by
  induction pre generalizing d with
  | nil =>
    rw [List.nil_append, taken, if_neg (Nat.not_lt.2 ha)]
    exact List.mem_cons_self ..
  | cons x pre ih =>
    rw [List.cons_append, taken]
    split
    · exact ih ha fun y hy => hpre y (List.mem_cons_of_mem _ hy)
    · rename_i hx
      have hx := Nat.not_lt.1 hx
      refine List.mem_cons_of_mem _ ?_
      cases hs : X.stop x with
      | none => exact ih ha fun y hy => hpre y (List.mem_cons_of_mem _ hy)
      | some e =>
        obtain ⟨h₁, h₂⟩ := hpre x (List.mem_cons_self ..) hx e hs
        refine ih h₂ fun y hy hle => hpre y (List.mem_cons_of_mem _ hy) ?_
        exact Nat.le_trans hx (Nat.le_trans h₁ hle)

/-- The items end where they begin or later, and none of those that begin at or
below `tail` ends behind it. -/
def Within (X : Extents α) (tail : ℕ) (l : List α) : Prop :=
  ∀ a ∈ l, ∀ e ∈ X.stop a, X.start a ≤ tail → X.start a ≤ e ∧ e ≤ tail

/-- No item that moves the frontier begins behind `tail`. -/
def NoneBeyond (X : Extents α) (tail : ℕ) (l : List α) : Prop :=
  ∀ a ∈ l, tail < X.start a → X.stop a = none

theorem Within.rest {a : α} (h : X.Within tail (a :: l)) : X.Within tail l :=
  fun b hb => h b (List.mem_cons_of_mem _ hb)

theorem NoneBeyond.rest {a : α} (h : X.NoneBeyond tail (a :: l)) : X.NoneBeyond tail l :=
  fun b hb => h b (List.mem_cons_of_mem _ hb)

/-- How one item moves the frontier. -/
theorem step_le {a : α} (hw : X.Within tail (a :: l)) (hn : X.NoneBeyond tail (a :: l))
    (hd : d ≤ tail) (ha : d ≤ X.start a) : d ≤ (X.stop a).getD d ∧ (X.stop a).getD d ≤ tail := by
  cases hs : X.stop a with
  | none => exact ⟨Nat.le_refl _, hd⟩
  | some e =>
    have hle : X.start a ≤ tail := by
      by_contra hlt
      rw [hn a (List.mem_cons_self ..) (Nat.not_le.1 hlt)] at hs
      cases hs
    obtain ⟨h₁, h₂⟩ := hw a (List.mem_cons_self ..) e hs hle
    exact ⟨Nat.le_trans ha h₁, h₂⟩

theorem frontier_le (hw : X.Within tail l) (hn : X.NoneBeyond tail l) (hd : d ≤ tail) :
    d ≤ X.frontier d l ∧ X.frontier d l ≤ tail := by
  induction l generalizing d with
  | nil => exact ⟨Nat.le_refl _, hd⟩
  | cons a l ih =>
    rw [frontier]
    split
    · exact ih hw.rest hn.rest hd
    · rename_i ha
      obtain ⟨h₁, h₂⟩ := step_le hw hn hd (Nat.not_lt.1 ha)
      obtain ⟨h₃, h₄⟩ := ih hw.rest hn.rest h₂
      exact ⟨Nat.le_trans h₁ h₃, h₄⟩

theorem le_start_of_mem_taken (hw : X.Within tail l) (hn : X.NoneBeyond tail l) (hd : d ≤ tail)
    {a : α} (ha : a ∈ X.taken d l) : d ≤ X.start a := by
  induction l generalizing d with
  | nil => cases ha
  | cons b l ih =>
    rw [taken] at ha
    split at ha
    · exact ih hw.rest hn.rest hd ha
    · rename_i hb
      rcases List.mem_cons.1 ha with rfl | ha
      · exact Nat.not_lt.1 hb
      · obtain ⟨h₁, h₂⟩ := step_le hw hn hd (Nat.not_lt.1 hb)
        exact Nat.le_trans h₁ (ih hw.rest hn.rest h₂ ha)

/-- The taken items that move the frontier are disjoint. -/
theorem taken_disjoint (hw : X.Within tail l) (hn : X.NoneBeyond tail l) (hd : d ≤ tail) :
    (X.taken d l).Pairwise fun a b => ∀ e ∈ X.stop a, e ≤ X.start b := by
  induction l generalizing d with
  | nil => exact List.Pairwise.nil
  | cons a l ih =>
    rw [taken]
    split
    · exact ih hw.rest hn.rest hd
    · rename_i ha
      obtain ⟨-, h₂⟩ := step_le hw hn hd (Nat.not_lt.1 ha)
      refine List.pairwise_cons.2 ⟨fun b hb e he => ?_, ih hw.rest hn.rest h₂⟩
      have hle := le_start_of_mem_taken hw.rest hn.rest h₂ hb
      rwa [Option.mem_def.1 he, Option.getD_some] at hle

/-- The length of an item that moves the frontier. -/
def length (X : Extents α) (a : α) : ℕ := (X.stop a).elim 0 fun e => e - X.start a

/-- Together the taken items are no longer than the way of the frontier. -/
theorem length_taken_le (hw : X.Within tail l) (hn : X.NoneBeyond tail l) (hd : d ≤ tail) :
    d + ((X.taken d l).map X.length).sum ≤ X.frontier d l := by
  induction l generalizing d with
  | nil => simp [taken, frontier]
  | cons a l ih =>
    rw [taken, frontier]
    split
    · exact ih hw.rest hn.rest hd
    · rename_i ha
      obtain ⟨-, h₂⟩ := step_le hw hn hd (Nat.not_lt.1 ha)
      have hrest := ih hw.rest hn.rest h₂
      rw [List.map_cons, List.sum_cons, length]
      cases hs : X.stop a with
      | none =>
        rw [hs] at hrest
        simpa using hrest
      | some e =>
        have hle : X.start a ≤ tail := by
          by_contra hlt
          rw [hn a (List.mem_cons_self ..) (Nat.not_le.1 hlt)] at hs
          cases hs
        have := (hw a (List.mem_cons_self ..) e hs hle).1
        simp only [hs, Option.getD_some, Option.elim_some] at hrest ⊢
        omega

/-- An item behind `tail` that moves the frontier is taken, or another one is. -/
theorem exists_taken_beyond (hw : X.Within tail l) (hd : d ≤ tail)
    (h : ∃ a ∈ l, tail < X.start a ∧ X.stop a ≠ none) :
    ∃ a ∈ X.taken d l, tail < X.start a ∧ X.stop a ≠ none := by
  induction l generalizing d with
  | nil => obtain ⟨a, ha, -⟩ := h; cases ha
  | cons b l ih =>
    rw [taken]
    by_cases hb : tail < X.start b ∧ X.stop b ≠ none
    · rw [if_neg (by omega)]
      exact ⟨b, List.mem_cons_self .., hb⟩
    · have hrest : ∃ a ∈ l, tail < X.start a ∧ X.stop a ≠ none := by
        obtain ⟨a, ha, hbeyond⟩ := h
        rcases List.mem_cons.1 ha with rfl | ha
        · exact absurd hbeyond hb
        · exact ⟨a, ha, hbeyond⟩
      split
      · exact ih hw.rest hd hrest
      · have hstep : (X.stop b).getD d ≤ tail := by
          cases hs : X.stop b with
          | none => exact hd
          | some e =>
            refine (hw b (List.mem_cons_self ..) e hs (Nat.not_lt.1 fun hlt => hb ⟨hlt, ?_⟩)).2
            rw [hs]
            exact Option.some_ne_none e
        obtain ⟨a, ha, hbeyond⟩ := ih hw.rest hstep hrest
        exact ⟨a, List.mem_cons_of_mem _ ha, hbeyond⟩

/-- Among ascending items one that is not below the first frontier is taken, or it
begins before the end of one that is. -/
theorem mem_taken_or_covered {a : α} (hasc : l.Pairwise fun x y => X.start x < X.start y)
    (ha : a ∈ l) (hd : d ≤ X.start a) : a ∈ X.taken d l ∨
      ∃ b ∈ X.taken d l, ∃ e ∈ X.stop b, X.start b < X.start a ∧ X.start a < e := by
  induction l generalizing d with
  | nil => cases ha
  | cons b l ih =>
    obtain ⟨hfirst, hrest⟩ := List.pairwise_cons.1 hasc
    rw [taken]
    rcases List.mem_cons.1 ha with rfl | ha
    · rw [if_neg (Nat.not_lt.2 hd)]
      exact Or.inl (List.mem_cons_self ..)
    · split
      · exact ih hrest ha hd
      · by_cases hnext : (X.stop b).getD d ≤ X.start a
        · rcases ih hrest ha hnext with htaken | ⟨c, hc, hcover⟩
          · exact Or.inl (List.mem_cons_of_mem _ htaken)
          · exact Or.inr ⟨c, List.mem_cons_of_mem _ hc, hcover⟩
        · -- the frontier has moved behind `a`, so it is where `b` ends
          refine Or.inr ⟨b, List.mem_cons_self .., ?_⟩
          cases hs : X.stop b with
          | none =>
            rw [hs, Option.getD_none] at hnext
            exact absurd hd hnext
          | some e =>
            rw [hs, Option.getD_some] at hnext
            exact ⟨e, rfl, hfirst a ha, Nat.not_le.1 hnext⟩

/-- Of ascending items one that begins at the frontier is the first that is not
below it. -/
theorem find_at_frontier {a : α} (hasc : l.Pairwise fun x y => X.start x < X.start y) (ha : a ∈ l) :
    l.find? (fun x => decide (X.start a ≤ X.start x)) = some a := by
  obtain ⟨pre, post, rfl⟩ := List.append_of_mem ha
  refine List.find?_eq_some_iff_append.2
    ⟨decide_eq_true (Nat.le_refl _), pre, post, rfl, fun x hx => ?_⟩
  have hlt := (List.pairwise_append.1 hasc).2.2 x hx a (List.mem_cons_self ..)
  simpa using hlt

/-- As long as no item moves it, the frontier may as well begin further on. -/
theorem sum_length_taken_of_none {d' : ℕ} (hle : d ≤ d')
    (hnone : ∀ a ∈ l, d ≤ X.start a → X.start a < d' → X.stop a = none) :
    ((X.taken d l).map X.length).sum = ((X.taken d' l).map X.length).sum := by
  induction l with
  | nil => rfl
  | cons a l ih =>
    have ih := ih fun b hb => hnone b (List.mem_cons_of_mem _ hb)
    rw [taken, taken]
    by_cases hd : X.start a < d
    · rw [if_pos hd, if_pos (Nat.lt_of_lt_of_le hd hle), ih]
    · rw [if_neg hd]
      by_cases hd' : X.start a < d'
      · have hs := hnone a (List.mem_cons_self ..) (Nat.not_lt.1 hd) hd'
        rw [if_pos hd', List.map_cons, List.sum_cons, length, hs, Option.getD_none,
          Option.elim_none, Nat.zero_add, ih]
      · rw [if_neg hd']
        cases hs : X.stop a with
        | none => simp only [Option.getD_none, List.map_cons, List.sum_cons, ih]
        | some e => rfl

/-- When at every frontier that satisfies `B` an item begins that moves it to
another one, the taken items cover the whole way. -/
theorem sum_length_taken (hasc : l.Pairwise fun x y => X.start x < X.start y)
    (hw : X.Within tail l) (hn : X.NoneBeyond tail l) {B : ℕ → Prop}
    (hB : ∀ d, B d → d < tail → ∃ a ∈ l, X.start a = d ∧ ∃ e ∈ X.stop a, d < e ∧ B e)
    (hd : B d) (hle : d ≤ tail) : ((X.taken d l).map X.length).sum = tail - d := by
  -- the induction is on the way that is left
  induction hk : tail - d using Nat.strong_induction_on generalizing d with
  | _ k ih =>
    rcases Nat.eq_or_lt_of_le hle with heq | hlt
    · have hsum := length_taken_le hw hn hle
      have hfrontier := (frontier_le hw hn hle).2
      omega
    · obtain ⟨a, ha, hstart, e, he, hde, hBe⟩ := hB d hd hlt
      have he := Option.mem_def.1 he
      have hend := (hw a ha e he (by omega)).2
      have hfind := find_at_frontier hasc ha
      rw [hstart] at hfind
      have hrest := ih (tail - e) (by omega) hBe hend rfl
      rw [taken_of_find hfind he (by omega), List.map_cons, List.sum_cons, hrest, length, he,
        Option.elim_some]
      omega

end Extents

/-- Of the ranges of a list, the non-empty ones of which lie one behind the other
between two bounds, the total length is at most the distance of the bounds. -/
theorem sum_length_le (start len : α → ℕ) {lo hi : ℕ} {l : List α} (h : lo ≤ hi)
    (hin : ∀ a ∈ l, 0 < len a → lo ≤ start a ∧ start a + len a ≤ hi)
    (hl : l.Pairwise fun a b => 0 < len a → 0 < len b → start a + len a ≤ start b) :
    lo + (l.map len).sum ≤ hi := by
  induction l generalizing lo with
  | nil => simpa using h
  | cons a l ih =>
    obtain ⟨ha, hl⟩ := List.pairwise_cons.1 hl
    rw [List.map_cons, List.sum_cons]
    rcases Nat.eq_zero_or_pos (len a) with hlen | hlen
    · rw [hlen, Nat.zero_add]
      exact ih h (fun b hb => hin b (List.mem_cons_of_mem _ hb)) hl
    · obtain ⟨h₁, h₂⟩ := hin a (List.mem_cons_self ..) hlen
      have hrest := ih h₂ (fun b hb hb' => ⟨ha b hb hlen hb',
        (hin b (List.mem_cons_of_mem _ hb) hb').2⟩) hl
      omega

end Cidl
