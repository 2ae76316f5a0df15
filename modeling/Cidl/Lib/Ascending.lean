import Mathlib.Data.List.Sort
import Mathlib.Tactic

/-!
# Lists in ascending order of a key

For a list whose elements have strictly ascending keys, what lies below a bound
is a front piece of the list, and its length is a count (`key_lt_iff`).  So the
part between two bounds is one interval of positions (`filter_range_interval`),
and a list made of several pieces is that part exactly when it has the same
positions (`eq_range'_iff`).

`AscendingTail key l t` says that `t` is the longest end of `l` along which the
keys ascend; `AscendingTail.append` is how it changes when `l` gets longer.

`flatMap_eq_iff` compares two lists that are put together page by page, or by
any other key that tells the pieces apart.
-/

namespace Cidl

variable {α β : Type*}

/-- The elements below a bound are the first ones of the list. -/
theorem key_lt_iff {key : α → ℕ} {l : List α} (h : l.Pairwise fun a b => key a < key b) (bound : ℕ)
    {j : ℕ} (hj : j < l.length) :
    key l[j] < bound ↔ j < l.countP fun a => decide (key a < bound) := by
  induction l generalizing j with
  | nil => exact absurd hj (Nat.not_lt_zero j)
  | cons a l ih =>
    obtain ⟨hhead, htail⟩ := List.pairwise_cons.1 h
    by_cases ha : key a < bound
    · rw [List.countP_cons_of_pos (by simpa using ha)]
      cases j with
      | zero => simpa using ha
      | succ j => simpa using ih htail (by simpa using hj)
    · have hnone : l.countP (fun b => decide (key b < bound)) = 0 := by
        refine List.countP_eq_zero.2 fun b hb => ?_
        have := hhead b hb
        simp only [decide_eq_true_eq]
        omega
      rw [List.countP_cons_of_neg (by simpa using ha), hnone]
      cases j with
      | zero => simpa using ha
      | succ j =>
        have := hhead _ (List.getElem_mem (by simpa using hj : j < l.length))
        simp only [List.getElem_cons_succ, Nat.not_lt_zero, iff_false]
        omega

/-- A choice among the first `n` numbers that is an interval. -/
theorem filter_range_interval {n lo hi : ℕ} (hhi : hi ≤ n) {p : ℕ → Bool}
    (hp : ∀ j < n, p j = true ↔ lo ≤ j ∧ j < hi) :
    (List.range n).filter p = List.range' lo (hi - lo) := by
  refine List.Pairwise.eq_of_mem_iff (r := (· < ·)) (List.pairwise_lt_range.filter p)
    List.pairwise_lt_range' fun j => ?_
  rw [List.mem_filter, List.mem_range, List.mem_range'_1]
  constructor
  · rintro ⟨hj, hpj⟩
    have := (hp j hj).1 hpj
    omega
  · intro hj
    exact ⟨by omega, (hp j (by omega)).2 (by omega)⟩

/-- An ascending list of numbers is an interval when it has the members of one. -/
theorem eq_range'_iff {l : List ℕ} (h : l.Pairwise (· < ·)) {lo hi : ℕ} :
    l = List.range' lo (hi - lo) ↔ ∀ j, j ∈ l ↔ lo ≤ j ∧ j < hi := by
  have hmem : ∀ j, j ∈ List.range' lo (hi - lo) ↔ lo ≤ j ∧ j < hi := fun j => by
    rw [List.mem_range'_1]
    omega
  constructor
  · rintro rfl j
    exact hmem j
  · intro hl
    refine List.Pairwise.eq_of_mem_iff (r := (· < ·)) h List.pairwise_lt_range' fun j => ?_
    rw [hl, hmem]

/-- Mapping two lists with a function that is injective on them. -/
theorem map_eq_map_iff {f : α → β} {l l' : List α} (hinj : ∀ a ∈ l, ∀ b ∈ l', f a = f b → a = b) :
    l.map f = l'.map f ↔ l = l' := by
  refine ⟨fun h => ?_, fun h => h ▸ rfl⟩
  induction l generalizing l' with
  | nil => exact (List.map_eq_nil_iff.1 h.symm).symm
  | cons a l ih =>
    cases l' with
    | nil => cases h
    | cons b l' =>
      simp only [List.map_cons, List.cons.injEq] at h
      rw [hinj a (List.mem_cons_self ..) b (List.mem_cons_self ..) h.1,
        ih (fun c hc d hd => hinj c (List.mem_cons_of_mem _ hc) d (List.mem_cons_of_mem _ hd)) h.2]

/-- Lists put together from pieces that can be told apart by a key are equal
exactly when their pieces are. -/
theorem flatMap_eq_iff {ι : Type*} [DecidableEq ι] {l : List ι} (key : β → ι)
    (hnd : l.Nodup) {f g : ι → List β} (hf : ∀ i ∈ l, ∀ b ∈ f i, key b = i)
    (hg : ∀ i ∈ l, ∀ b ∈ g i, key b = i) :
    l.flatMap f = l.flatMap g ↔ ∀ i ∈ l, f i = g i := by
  have piece : ∀ {f : ι → List β} {l : List ι}, l.Nodup → (∀ i ∈ l, ∀ b ∈ f i, key b = i) →
      ∀ i ∈ l, (l.flatMap f).filter (fun b => decide (key b = i)) = f i := by
    intro f l hnd hf i hi
    obtain ⟨s, t, rfl⟩ := List.append_of_mem hi
    have hne : ∀ j ∈ s ++ t, j ≠ i := fun j hj heq =>
      (List.nodup_cons.1 (List.nodup_middle.1 hnd)).1 (heq ▸ hj)
    have hnone : ∀ u : List ι, (∀ j ∈ u, j ≠ i ∧ ∀ b ∈ f j, key b = j) →
        (u.flatMap f).filter (fun b => decide (key b = i)) = [] := by
      intro u hu
      refine List.filter_eq_nil_iff.2 fun b hb => ?_
      obtain ⟨j, hj, hb⟩ := List.mem_flatMap.1 hb
      rw [(hu j hj).2 b hb]
      simpa using (hu j hj).1
    have hall : (f i).filter (fun b => decide (key b = i)) = f i :=
      List.filter_eq_self.2 fun b hb => by simpa using hf i hi b hb
    rw [List.flatMap_append, List.flatMap_cons, List.filter_append, List.filter_append, hall,
      hnone s fun j hj => ⟨hne j (by simp [hj]), hf j (by simp [hj])⟩,
      hnone t fun j hj => ⟨hne j (by simp [hj]), hf j (by simp [hj])⟩]
    simp
  refine ⟨fun h i hi => ?_, fun h => List.flatMap_congr h⟩
  rw [← piece hnd hf i hi, h, piece hnd hg i hi]

/-! ## The longest ascending end of a list -/

/-- `t` is the longest end of `l` along which the keys ascend. -/
structure AscendingTail {κ : Type*} [LinearOrder κ] (key : α → κ) (l t : List α) : Prop where
  suffix : t <:+ l
  ascending : t.Pairwise fun a b => key a < key b
  longest : ∀ u, u <:+ l → u.Pairwise (fun a b => key a < key b) → u <:+ t

section

variable {κ : Type*} [LinearOrder κ] {key : α → κ} {l t : List α}

theorem AscendingTail.nil : AscendingTail key [] [] where
  suffix := List.suffix_rfl
  ascending := List.Pairwise.nil
  longest _ hu _ := hu

/-- An element whose key is not above the last one begins a new end. -/
theorem AscendingTail.restart (h : AscendingTail key l t) {a : α}
    (hle : ∃ b ∈ t.getLast?, key a ≤ key b) : AscendingTail key (l ++ [a]) [a] where
  suffix := List.suffix_append l [a]
  ascending := List.pairwise_singleton _ a
  longest u hu hasc := by
    rcases List.suffix_concat_iff.1 hu with rfl | ⟨u', rfl, hu'⟩
    · exact List.nil_suffix
    · -- the last element of `t` is also the last of `u'`, if there is one
      obtain ⟨hasc', -, hcross⟩ := List.pairwise_append.1 hasc
      rcases List.eq_nil_or_concat' u' with rfl | ⟨v, b, rfl⟩
      · exact List.suffix_rfl
      · obtain ⟨w, rfl⟩ := h.longest _ hu' hasc'
        obtain ⟨c, hc, hac⟩ := hle
        rw [← List.append_assoc, List.getLast?_concat, Option.mem_some_iff] at hc
        subst hc
        have hlt := hcross b (List.mem_append_right v (List.mem_singleton_self b)) a
          (List.mem_singleton_self a)
        exact absurd hac (not_le.2 hlt)

/-- An element whose key is above the last one continues the end. -/
theorem AscendingTail.extend (h : AscendingTail key l t) {a : α}
    (hlt : ∀ b ∈ t.getLast?, key b < key a) : AscendingTail key (l ++ [a]) (t ++ [a]) where
  suffix := by
    obtain ⟨w, rfl⟩ := h.suffix
    exact ⟨w, (List.append_assoc w t [a]).symm⟩
  ascending := by
    refine List.pairwise_append.2 ⟨h.ascending, List.pairwise_singleton _ a, fun b hb c hc => ?_⟩
    rw [List.mem_singleton.1 hc]
    rcases List.eq_nil_or_concat' t with rfl | ⟨v, d, rfl⟩
    · cases hb
    · have hd := hlt d (by rw [List.getLast?_concat]; rfl)
      rcases List.mem_append.1 hb with hb | hb
      · exact ((List.pairwise_append.1 h.ascending).2.2 b hb d (List.mem_singleton_self d)).trans hd
      · rw [List.mem_singleton.1 hb]
        exact hd
  longest u hu hasc := by
    rcases List.suffix_concat_iff.1 hu with rfl | ⟨u', rfl, hu'⟩
    · exact List.nil_suffix
    · obtain ⟨w, rfl⟩ := h.longest u' hu' (List.pairwise_append.1 hasc).1
      exact ⟨w, (List.append_assoc w u' [a]).symm⟩

end

end Cidl
