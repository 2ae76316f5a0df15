import Cidl.Lib.SearchTree

/-!
# Ranges in a search tree

The elements of a tree may stand for ranges, each with a lower and an upper end,
the tree being ordered by the lower ends.

* `evict c` deletes what the comparator leads to until it leads nowhere.  With a
  monotone comparator it takes out exactly the elements that compare equal
  (`inorder_evict`).
* `Apart lo hi t` says that along the tree every range ends before the next one
  begins.  It is what is left of "ordered, non-empty and pairwise disjoint"
  (`apart_iff`).
* `onWay lo k t` are the elements at which the descent towards `k` goes right.
  The first of them that begins late enough is what a search for a range up to
  `k` finds, whatever the shape of the tree (`find_onWay`).
-/

namespace Cidl.SearchTree

universe u

variable {α : Type u}

/-! ## Deleting all that compares equal -/

theorem Monotone.sublist {c : α → Ordering} {l l' : List α} (h : Monotone c l)
    (hs : l'.Sublist l) : Monotone c l' :=
  List.Pairwise.sublist hs h

/-- Delete what the comparator leads to, as long as it leads somewhere. -/
def evict (L : TreeLib α) (c : α → Ordering) : ℕ → BinaryTree α → Option (BinaryTree α)
  | 0, _ => none
  | fuel + 1, t =>
    match tfind c t with
    | none => some t
    | some _ => evict L c fuel (L.tdelete c t)

section

variable {L : TreeLib α} {c : α → Ordering} {fuel : ℕ} {t t' : BinaryTree α}

/-- Every round takes an element out of the tree, so the deletion ends. -/
theorem evict_isSome (L : TreeLib α) (c : α → Ordering) (hfuel : (inorder t).length < fuel) :
    ∃ t', evict L c fuel t = some t' := by
  induction fuel generalizing t with
  | zero => exact absurd hfuel (Nat.not_lt_zero _)
  | succ fuel ih =>
    rw [evict]
    cases hy : tfind c t with
    | none => exact ⟨t, rfl⟩
    | some y =>
      obtain ⟨l, r, h₁, h₂⟩ := L.tdelete_hit hy
      refine ih ?_
      rw [h₁, List.length_append, List.length_cons] at hfuel
      rw [h₂, List.length_append]
      omega

/-- With a monotone comparator, what is left is what does not compare equal. -/
theorem inorder_evict (hm : Monotone c (inorder t)) (h : evict L c fuel t = some t') :
    inorder t' = (inorder t).filter fun x => decide (c x ≠ .eq) := by
  induction fuel generalizing t with
  | zero => cases h
  | succ fuel ih =>
    rw [evict] at h
    cases hy : tfind c t with
    | none =>
      rw [hy] at h
      cases h
      refine (List.filter_eq_self.2 fun x hx => ?_).symm
      exact decide_eq_true (tfind_eq_none hm hy x hx)
    | some y =>
      rw [hy] at h
      obtain ⟨l, r, h₁, h₂⟩ := L.tdelete_hit hy
      rw [ih (hm.sublist (L.tdelete_sublist c t)) h, h₁, h₂, List.filter_append,
        List.filter_append, List.filter_cons_of_neg]
      simp [(tfind_eq_some hy).2]

end

/-! ## Ranges that are apart -/

section

variable {κ : Type*} [LinearOrder κ]

/-- Every range is non-empty and ends before the next one begins. -/
structure Apart (lo hi : α → κ) (t : BinaryTree α) : Prop where
  nonempty : ∀ x ∈ inorder t, lo x < hi x
  apart : (inorder t).Pairwise fun x y => hi x ≤ lo y

variable {lo hi : α → κ} {t : BinaryTree α}

theorem Apart.sorted (h : Apart lo hi t) : Sorted lo t :=
  h.apart.imp_of_mem fun hx _ hxy => lt_of_lt_of_le (h.nonempty _ hx) hxy

/-- Two ranges of the tree are one, or one of them ends before the other begins. -/
theorem Apart.cases (h : Apart lo hi t) {x y : α} (hx : x ∈ inorder t) (hy : y ∈ inorder t) :
    x = y ∨ hi x ≤ lo y ∨ hi y ≤ lo x := by
  by_cases hxy : x = y
  · exact Or.inl hxy
  · have : Std.Symm fun a b : α => hi a ≤ lo b ∨ hi b ≤ lo a := ⟨fun _ _ hab => hab.symm⟩
    have hpw : (inorder t).Pairwise fun a b => hi a ≤ lo b ∨ hi b ≤ lo a :=
      h.apart.imp fun hab => Or.inl hab
    exact Or.inr (hpw.forall hx hy hxy)

/-- Of two ranges the one that begins first ends before the other begins. -/
theorem Apart.hi_le (h : Apart lo hi t) {x y : α} (hx : x ∈ inorder t) (hy : y ∈ inorder t)
    (hxy : lo x < lo y) : hi x ≤ lo y := by
  rcases h.cases hx hy with rfl | hle | hle
  · exact absurd hxy (lt_irrefl _)
  · exact hle
  · exact absurd (lt_trans hxy (h.nonempty y hy)) (not_lt.2 hle)

/-- The order of the tree puts disjoint ranges one after the other. -/
theorem apart_iff : Apart lo hi t ↔ Sorted lo t ∧ (∀ x ∈ inorder t, lo x < hi x) ∧
    (inorder t).Pairwise fun x y => hi x ≤ lo y ∨ hi y ≤ lo x := by
  constructor
  · intro h
    exact ⟨h.sorted, h.nonempty, h.apart.imp fun hxy => Or.inl hxy⟩
  · rintro ⟨hs, hne, hd⟩
    refine ⟨hne, ?_⟩
    refine (hs.and hd).imp_of_mem ?_
    rintro x y - hy ⟨hlt, hle | hle⟩
    · exact hle
    · exact absurd (lt_trans hlt (hne y hy)) (not_lt.2 hle)

theorem Apart.of_sublist {t' : BinaryTree α} (h : Apart lo hi t)
    (hs : (inorder t').Sublist (inorder t)) : Apart lo hi t' :=
  ⟨fun x hx => h.nonempty x (hs.subset hx), h.apart.sublist hs⟩

/-- A range that meets none of the tree can be put into it. -/
theorem Apart.tsearch (L : TreeLib α) (h : Apart lo hi t) {x : α} (hx : lo x < hi x)
    (hfree : ∀ y ∈ inorder t, hi y ≤ lo x ∨ hi x ≤ lo y) :
    Apart lo hi (L.tsearch (byKey lo (lo x)) x t) ∧
      ∀ y, y ∈ inorder (L.tsearch (byKey lo (lo x)) x t) ↔ y = x ∨ y ∈ inorder t := by
  have hnew : ∀ y ∈ inorder t, lo y ≠ lo x := by
    intro y hy heq
    rcases hfree y hy with hle | hle
    · exact absurd (heq ▸ h.nonempty y hy) (not_lt.2 hle)
    · exact absurd (heq ▸ hx) (not_lt.2 hle)
  have hperm := L.perm_tsearch h.sorted hnew
  have hmem : ∀ y, y ∈ inorder (L.tsearch (byKey lo (lo x)) x t) ↔ y = x ∨ y ∈ inorder t :=
    fun y => by rw [hperm.mem_iff, List.mem_cons]
  refine ⟨apart_iff.2 ⟨L.sorted_tsearch h.sorted x, fun y hy => ?_, ?_⟩, hmem⟩
  · rcases (hmem y).1 hy with rfl | hy
    · exact hx
    · exact h.nonempty y hy
  · refine (L.sorted_tsearch h.sorted x).imp_of_mem fun {y z} hy hz hyz => Or.inl ?_
    rcases (hmem y).1 hy with rfl | hyt
    · rcases (hmem z).1 hz with rfl | hzt
      · exact absurd hyz (lt_irrefl _)
      · rcases hfree z hzt with hle | hle
        · exact absurd (lt_trans hyz (h.nonempty z hzt)) (not_lt.2 hle)
        · exact hle
    · rcases (hmem z).1 hz with rfl | hzt
      · rcases hfree y hyt with hle | hle
        · exact hle
        · exact absurd (lt_trans hyz hx) (not_lt.2 hle)
      · exact h.hi_le hyt hzt hyz

/-! ## The way towards a key -/

/-- The elements at which the descent towards `k` goes right. -/
def onWay (lo : α → κ) (k : κ) : BinaryTree α → List α
  | .nil => []
  | .node x l r => if k < lo x then onWay lo k l else x :: onWay lo k r

/-- The comparator of a search for the elements that begin from `a` to `k`. -/
def between (lo : α → κ) (a k : κ) (x : α) : Ordering :=
  if lo x < a then .gt else if k < lo x then .lt else .eq

theorem onWay_sublist (lo : α → κ) (k : κ) (t : BinaryTree α) :
    (onWay lo k t).Sublist (inorder t) := by
  induction t with
  | nil => exact List.Sublist.refl _
  | node x l r ihl ihr =>
    rw [onWay]
    split
    · exact ihl.trans (List.sublist_append_left _ _)
    · exact (ihr.cons_cons x).trans (List.sublist_append_right _ _)

theorem le_of_mem_onWay {k : κ} {x : α} (h : x ∈ onWay lo k t) : lo x ≤ k := by
  induction t with
  | nil => cases h
  | node y l r ihl ihr =>
    rw [onWay] at h
    split at h
    · exact ihl h
    · rename_i hy
      rcases List.mem_cons.1 h with rfl | h
      · exact not_lt.1 hy
      · exact ihr h

/-- Of the elements on the way, a search finds the first that begins late enough. -/
theorem find_onWay {a k : κ} (hak : a ≤ k) (t : BinaryTree α) :
    tfind (between lo a k) t = (onWay lo k t).find? fun x => decide (a ≤ lo x) := by
  induction t with
  | nil => rfl
  | node x l r ihl ihr =>
    rw [tfind, onWay, between]
    rcases lt_or_ge (lo x) a with hx | hx
    · rw [if_pos hx, if_neg (not_lt.2 (hx.le.trans hak)), List.find?_cons_of_neg]
      · exact ihr
      · simpa using hx
    · rw [if_neg (not_lt.2 hx)]
      rcases lt_or_ge k (lo x) with hk | hk
      · rw [if_pos hk, if_pos hk]
        exact ihl
      · rw [if_neg (not_lt.2 hk), if_neg (not_lt.2 hk), List.find?_cons_of_pos]
        exact decide_eq_true hx

theorem Sorted.monotone_between (h : Sorted lo t) (a k : κ) :
    Monotone (between lo a k) (inorder t) := by
  refine h.imp ?_
  intro x y hxy
  unfold between
  constructor
  · intro hy
    split at hy
    · rename_i hlt
      exact if_pos (lt_trans hxy hlt)
    · split at hy <;> cases hy
  · intro hx
    split at hx
    · cases hx
    · rename_i ha
      split at hx
      · rename_i hk
        rw [if_neg (not_lt.2 ((not_lt.1 ha).trans hxy.le)), if_pos (lt_trans hk hxy)]
      · cases hx

theorem between_eq {a k : κ} {x : α} : between lo a k x = .eq ↔ a ≤ lo x ∧ lo x ≤ k := by
  unfold between
  split
  · rename_i h
    exact iff_of_false nofun fun hx => absurd h (not_lt.2 hx.1)
  · rename_i h
    split
    · rename_i hk
      exact iff_of_false nofun fun hx => absurd hk (not_lt.2 hx.2)
    · rename_i hk
      exact iff_of_true rfl ⟨not_lt.1 h, not_lt.1 hk⟩

end

end Cidl.SearchTree
