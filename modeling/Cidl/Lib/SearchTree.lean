import Mathlib.Data.Tree.Basic
import Mathlib.Data.List.Nodup
import Mathlib.Data.List.Pairwise
import Mathlib.Order.Compare
import Mathlib.Tactic

/-!
# Search trees driven by a comparator

`tsearch`, `tfind` and `tdelete` of the C library keep pointers in a binary
tree and are handed a comparator at every call.  A caller may search a tree
with a comparator other than the one the tree was built with, so nothing here
assumes that the two agree.

* `tfind c t` is the descent itself: from the root, by the sign of `c`.
* `Monotone c l` says that along the list `l` the comparator answers "right of
  here", then "found", then "left of here".  Under it the descent is complete
  (`tfind_eq_none`).
* `topmost q t` is the element nearest to the root that has a property; with a
  monotone comparator it is what the descent finds (`tfind_eq_topmost`).
* `Sorted key t` is the usual search-tree order by a key; it makes the
  comparator of every key monotone (`Sorted.monotone`).
* `Above x t y` says that `y` lies above `x`: the elements at which a search for
  `x` with another comparator can go wrong (`tfind_iff_above`).
* `TreeLib` is what the C library promises about the two updates: their effect
  on the in-order list.  Rebalancing is left open.
* `unbalanced` is the plain search tree, which keeps the promise.
-/

namespace Cidl.SearchTree

universe u

variable {α : Type u}

/-! ## The tree and the descent -/

/-- The elements of a tree from left to right. -/
def inorder : BinaryTree α → List α
  | .nil => []
  | .node x l r => inorder l ++ x :: inorder r

@[simp] theorem inorder_nil : inorder (.nil : BinaryTree α) = [] := rfl

@[simp] theorem inorder_node (x : α) (l r : BinaryTree α) :
    inorder (.node x l r) = inorder l ++ x :: inorder r := rfl

/-- `tfind`: descend from the root by the sign of the comparator.  `c x` is the
key compared with the element `x`, so `.lt` goes left. -/
def tfind (c : α → Ordering) : BinaryTree α → Option α
  | .nil => none
  | .node x l r =>
    match c x with
    | .lt => tfind c l
    | .eq => some x
    | .gt => tfind c r

/-- Whatever `tfind` meets is in the tree and compares equal, in any tree. -/
theorem tfind_eq_some {c : α → Ordering} {t : BinaryTree α} {y : α}
    (h : tfind c t = some y) : y ∈ inorder t ∧ c y = .eq := by
  induction t with
  | nil => simp [tfind] at h
  | node x l r ihl ihr =>
    rw [tfind] at h
    split at h
    · exact ⟨by simp [(ihl h).1], (ihl h).2⟩
    · rename_i hx
      cases h
      exact ⟨by simp, hx⟩
    · exact ⟨by simp [(ihr h).1], (ihr h).2⟩

/-! ## Comparators that are monotone along a list -/

/-- Along `l` the comparator answers `.gt`, then `.eq`, then `.lt`. -/
def Monotone (c : α → Ordering) (l : List α) : Prop :=
  l.Pairwise fun x y => (c y = .gt → c x = .gt) ∧ (c x = .lt → c y = .lt)

/-- With a monotone comparator the descent misses nothing. -/
theorem tfind_eq_none {c : α → Ordering} {t : BinaryTree α} (hm : Monotone c (inorder t))
    (h : tfind c t = none) : ∀ x ∈ inorder t, c x ≠ .eq := by
  induction t with
  | nil => simp
  | node y l r ihl ihr =>
    simp only [Monotone, inorder_node, List.pairwise_append, List.pairwise_cons] at hm
    obtain ⟨hl, ⟨hyr, hr⟩, hlr⟩ := hm
    intro x hx
    rw [inorder_node, List.mem_append, List.mem_cons] at hx
    rw [tfind] at h
    split at h
    · rename_i hy
      rcases hx with hx | rfl | hx
      · exact ihl hl h x hx
      · simp [hy]
      · simp [(hyr x hx).2 hy]
    · cases h
    · rename_i hy
      rcases hx with hx | rfl | hx
      · simp [(hlr x hx y (List.mem_cons_self ..)).1 hy]
      · simp [hy]
      · exact ihr hr h x hx

/-- The element with the property that is nearest to the root, the left one first
when there are two. -/
def topmost (q : α → Prop) [DecidablePred q] : BinaryTree α → Option α
  | .nil => none
  | .node x l r => if q x then some x else (topmost q l).or (topmost q r)

section

variable {q : α → Prop} [DecidablePred q]

theorem topmost_eq_some {t : BinaryTree α} {y : α} (h : topmost q t = some y) :
    y ∈ inorder t ∧ q y := by
  induction t with
  | nil => cases h
  | node x l r ihl ihr =>
    rw [topmost] at h
    split at h
    · rename_i hx
      cases h
      exact ⟨by simp, hx⟩
    · rcases Option.or_eq_some_iff.1 h with h | ⟨-, h⟩
      · exact ⟨by simp [(ihl h).1], (ihl h).2⟩
      · exact ⟨by simp [(ihr h).1], (ihr h).2⟩

theorem topmost_eq_none {t : BinaryTree α} : topmost q t = none ↔ ∀ x ∈ inorder t, ¬ q x := by
  induction t with
  | nil => simp [topmost]
  | node x l r ihl ihr =>
    rw [topmost]
    split
    · rename_i hx
      exact iff_of_false nofun fun h => h x (by simp) hx
    · rename_i hx
      rw [Option.or_eq_none_iff, ihl, ihr]
      simp only [inorder_node, List.mem_append, List.mem_cons]
      constructor
      · rintro ⟨hl, hr⟩ y (hy | rfl | hy)
        · exact hl y hy
        · exact hx
        · exact hr y hy
      · exact fun h => ⟨fun y hy => h y (Or.inl hy), fun y hy => h y (Or.inr (Or.inr hy))⟩

/-- With a monotone comparator the descent finds, of all elements that compare
equal, the one nearest to the root. -/
theorem tfind_eq_topmost {c : α → Ordering} {t : BinaryTree α} (hm : Monotone c (inorder t))
    (hq : ∀ x ∈ inorder t, c x = .eq ↔ q x) : tfind c t = topmost q t := by
  induction t with
  | nil => rfl
  | node y l r ihl ihr =>
    simp only [Monotone, inorder_node, List.pairwise_append, List.pairwise_cons] at hm
    obtain ⟨hl, ⟨hyr, hr⟩, hlr⟩ := hm
    have hql : ∀ x ∈ inorder l, c x = .eq ↔ q x := fun x hx => hq x (by simp [hx])
    have hqr : ∀ x ∈ inorder r, c x = .eq ↔ q x := fun x hx => hq x (by simp [hx])
    have hqy := hq y (by simp)
    rw [tfind, topmost]
    split
    · rename_i hy
      have hnone : topmost q r = none :=
        topmost_eq_none.2 fun x hx => by rw [← hqr x hx, (hyr x hx).2 hy]; decide
      rw [if_neg (by rw [← hqy, hy]; decide), hnone, Option.or_none, ihl hl hql]
    · rename_i hy
      rw [if_pos (hqy.1 hy)]
    · rename_i hy
      have hnone : topmost q l = none :=
        topmost_eq_none.2 fun x hx => by
          rw [← hql x hx, (hlr x hx y (List.mem_cons_self ..)).1 hy]
          decide
      rw [if_neg (by rw [← hqy, hy]; decide), hnone, Option.none_or, ihr hr hqr]

end

/-! ## Trees ordered by a key -/

variable {κ : Type*} [LinearOrder κ]

/-- The tree is a search tree for `key`. -/
def Sorted (key : α → κ) (t : BinaryTree α) : Prop :=
  (inorder t).Pairwise fun x y => key x < key y

/-- The comparator of a key in a tree ordered by that key. -/
abbrev byKey (key : α → κ) (k : κ) (x : α) : Ordering := compare k (key x)

theorem Sorted.monotone {key : α → κ} {t : BinaryTree α} (h : Sorted key t) (k : κ) :
    Monotone (byKey key k) (inorder t) := by
  refine h.imp ?_
  intro x y hxy
  simp only [byKey, compare_gt_iff_gt, compare_lt_iff_lt]
  exact ⟨fun hy => lt_trans hxy hy, fun hx => lt_trans hx hxy⟩

theorem Sorted.nodup {key : α → κ} {t : BinaryTree α} (h : Sorted key t) :
    (inorder t).Nodup :=
  h.imp fun hxy heq => absurd (heq ▸ hxy) (lt_irrefl _)

/-- The order depends on the keys of the elements only. -/
theorem Sorted.congr {key key' : α → κ} {t : BinaryTree α} (h : Sorted key t)
    (heq : ∀ x ∈ inorder t, key' x = key x) : Sorted key' t := by
  refine List.Pairwise.imp_of_mem ?_ h
  intro x y hx hy hxy
  rw [heq x hx, heq y hy]
  exact hxy

/-- In a search tree two elements with one key are one element. -/
theorem Sorted.key_inj {key : α → κ} {t : BinaryTree α} (h : Sorted key t) {x y : α}
    (hx : x ∈ inorder t) (hy : y ∈ inorder t) (hxy : key x = key y) : x = y := by
  by_contra hne
  have : Std.Symm fun a b : α => key a ≠ key b := ⟨fun _ _ hab => hab.symm⟩
  have hpw : (inorder t).Pairwise fun a b => key a ≠ key b := h.imp fun hab => ne_of_lt hab
  exact hpw.forall hx hy hne hxy

/-- The descent with the tree's own key finds exactly the element of that key. -/
theorem tfind_byKey {key : α → κ} {t : BinaryTree α} (h : Sorted key t) (k : κ) (x : α) :
    tfind (byKey key k) t = some x ↔ x ∈ inorder t ∧ key x = k := by
  constructor
  · intro hf
    obtain ⟨hmem, heq⟩ := tfind_eq_some hf
    exact ⟨hmem, (compare_eq_iff_eq.1 heq).symm⟩
  · rintro ⟨hmem, rfl⟩
    cases hf : tfind (byKey key (key x)) t with
    | none => exact absurd (compare_eq_iff_eq.2 rfl) (tfind_eq_none (h.monotone _) hf x hmem)
    | some y =>
      obtain ⟨hy, heq⟩ := tfind_eq_some hf
      rw [h.key_inj hy hmem (compare_eq_iff_eq.1 heq).symm]

theorem tfind_byKey_none {key : α → κ} {t : BinaryTree α} (h : Sorted key t) (k : κ) :
    tfind (byKey key k) t = none ↔ ∀ x ∈ inorder t, key x ≠ k := by
  constructor
  · intro hf x hx hk
    rw [(tfind_byKey h k x).2 ⟨hx, hk⟩] at hf
    cases hf
  · intro hall
    cases hf : tfind (byKey key k) t with
    | none => rfl
    | some y =>
      obtain ⟨hy, hk⟩ := (tfind_byKey h k y).1 hf
      exact absurd hk (hall y hy)

/-- `y` lies on the way from the root to `x`. -/
def Above (x : α) : BinaryTree α → α → Prop
  | .nil, _ => False
  | .node z l r, y =>
    x ∈ inorder l ∧ (y = z ∨ Above x l y) ∨ x ∈ inorder r ∧ (y = z ∨ Above x r y)

/-- Any comparator that is equal at `x` only finds it exactly if it turns, at every
element above, to the side on which `x` is. -/
theorem tfind_iff_above {key : α → κ} {t : BinaryTree α} (h : Sorted key t) {x : α}
    (hx : x ∈ inorder t) {c : α → Ordering} (hc : ∀ y ∈ inorder t, c y = .eq ↔ y = x) :
    tfind c t = some x ↔ ∀ y, Above x t y → (key x < key y ↔ c y = .lt) := by
  induction t with
  | nil => simp at hx
  | node z l r ihl ihr =>
    simp only [Sorted, inorder_node, List.pairwise_append, List.pairwise_cons] at h
    obtain ⟨hl, ⟨hzr, hr⟩, hlr⟩ := h
    have hlz : ∀ y ∈ inorder l, key y < key z := fun y hy => hlr y hy z (List.mem_cons_self ..)
    have hnot : ¬ (x ∈ inorder l ∧ x ∈ inorder r) := fun ⟨h₁, h₂⟩ =>
      lt_irrefl _ ((hlz x h₁).trans (hzr x h₂))
    have hcl : ∀ y ∈ inorder l, c y = .eq ↔ y = x := fun y hy => hc y (by simp [hy])
    have hcr : ∀ y ∈ inorder r, c y = .eq ↔ y = x := fun y hy => hc y (by simp [hy])
    have hcz := hc z (by simp)
    rw [inorder_node, List.mem_append, List.mem_cons] at hx
    rw [tfind]
    rcases hx with hx | rfl | hx
    · have hxz : z ≠ x := fun heq => lt_irrefl _ (heq ▸ hlz x hx)
      have habove : ∀ y, Above x (.node z l r) y ↔ y = z ∨ Above x l y := by
        intro y
        rw [Above]
        exact ⟨fun hy => hy.elim And.right fun hy => absurd ⟨hx, hy.1⟩ hnot,
          fun hy => Or.inl ⟨hx, hy⟩⟩
      simp only [habove, forall_eq_or_imp, hlz x hx, true_iff]
      rw [← ihl hl hx hcl]
      cases hz : c z with
      | lt => simp
      | eq => exact absurd (hcz.1 hz) hxz
      | gt =>
        refine iff_of_false (fun hf => hnot ⟨hx, (tfind_eq_some hf).1⟩) ?_
        simp
    · rw [hcz.2 rfl]
      refine iff_of_true rfl fun y hy => ?_
      rcases hy with ⟨hy, -⟩ | ⟨hy, -⟩
      · exact absurd (hlz x hy) (lt_irrefl _)
      · exact absurd (hzr x hy) (lt_irrefl _)
    · have hxz : z ≠ x := fun heq => lt_irrefl _ (heq ▸ hzr x hx)
      have habove : ∀ y, Above x (.node z l r) y ↔ y = z ∨ Above x r y := by
        intro y
        rw [Above]
        exact ⟨fun hy => hy.elim (fun hy => absurd ⟨hy.1, hx⟩ hnot) And.right,
          fun hy => Or.inr ⟨hx, hy⟩⟩
      simp only [habove, forall_eq_or_imp, lt_asymm (hzr x hx), false_iff]
      rw [← ihr hr hx hcr]
      cases hz : c z with
      | lt =>
        refine iff_of_false (fun hf => hnot ⟨(tfind_eq_some hf).1, hx⟩) ?_
        simp
      | eq => exact absurd (hcz.1 hz) hxz
      | gt => simp

/-! ## What the C library promises -/

/-- The two updates of `<search.h>`, described by their effect on the in-order
list.  An insertion with a comparator that is monotone along the tree puts the
element where the descent fell off, a deletion takes out the element the
descent meets, and neither says anything about the shape that results. -/
structure TreeLib (α : Type u) where
  /-- `tsearch` of the element `x`, whose key is compared by `c`. -/
  tsearch : (α → Ordering) → α → BinaryTree α → BinaryTree α
  /-- `tdelete` of the element that `c` leads to. -/
  tdelete : (α → Ordering) → BinaryTree α → BinaryTree α
  tsearch_hit : ∀ {c x t y}, tfind c t = some y → Monotone c (inorder t) →
    inorder (tsearch c x t) = inorder t
  tsearch_miss : ∀ {c x t}, tfind c t = none → Monotone c (inorder t) →
    ∃ l r, inorder t = l ++ r ∧ (∀ y ∈ l, c y = .gt) ∧ (∀ y ∈ r, c y = .lt) ∧
      inorder (tsearch c x t) = l ++ x :: r
  tsearch_mem : ∀ {c x t y}, y ∈ inorder (tsearch c x t) → y = x ∨ y ∈ inorder t
  tdelete_hit : ∀ {c t y}, tfind c t = some y →
    ∃ l r, inorder t = l ++ y :: r ∧ inorder (tdelete c t) = l ++ r
  tdelete_miss : ∀ {c t}, tfind c t = none → tdelete c t = t

namespace TreeLib

variable (L : TreeLib α)

theorem tdelete_sublist (c : α → Ordering) (t : BinaryTree α) :
    (inorder (L.tdelete c t)).Sublist (inorder t) := by
  cases hf : tfind c t with
  | none => rw [L.tdelete_miss hf]
  | some y =>
    obtain ⟨l, r, h₁, h₂⟩ := L.tdelete_hit hf
    rw [h₁, h₂]
    exact (List.Sublist.refl l).append (List.sublist_cons_self y r)

theorem mem_of_mem_tdelete {c : α → Ordering} {t : BinaryTree α} {x : α}
    (h : x ∈ inorder (L.tdelete c t)) : x ∈ inorder t :=
  (L.tdelete_sublist c t).subset h

/-- Deletion keeps the order, whatever comparator it was called with. -/
theorem sorted_tdelete {key : α → κ} {t : BinaryTree α} (h : Sorted key t)
    (c : α → Ordering) : Sorted key (L.tdelete c t) :=
  List.Pairwise.sublist (L.tdelete_sublist c t) h

/-- A deletion that meets `y` takes out `y` and nothing else. -/
theorem mem_tdelete {c : α → Ordering} {t : BinaryTree α} {y : α} (hf : tfind c t = some y)
    (hnd : (inorder t).Nodup) (x : α) :
    x ∈ inorder (L.tdelete c t) ↔ x ∈ inorder t ∧ x ≠ y := by
  obtain ⟨l, r, h₁, h₂⟩ := L.tdelete_hit hf
  rw [h₁] at hnd ⊢
  rw [h₂]
  have hy : y ∉ l ++ r := (List.nodup_middle.1 hnd |> List.nodup_cons.1).1
  simp only [List.mem_append, List.mem_cons] at hy ⊢
  constructor
  · rintro (hx | hx)
    · exact ⟨Or.inl hx, by rintro rfl; exact hy (Or.inl hx)⟩
    · exact ⟨Or.inr (Or.inr hx), by rintro rfl; exact hy (Or.inr hx)⟩
  · rintro ⟨hx | rfl | hx, hne⟩
    · exact Or.inl hx
    · exact absurd rfl hne
    · exact Or.inr hx

theorem perm_tdelete {c : α → Ordering} {t : BinaryTree α} {y : α} (hf : tfind c t = some y) :
    (inorder t).Perm (y :: inorder (L.tdelete c t)) := by
  obtain ⟨l, r, h₁, h₂⟩ := L.tdelete_hit hf
  rw [h₁, h₂]
  exact List.perm_middle

/-- Insertion with the tree's own key keeps the order. -/
theorem sorted_tsearch {key : α → κ} {t : BinaryTree α} (h : Sorted key t) (x : α) :
    Sorted key (L.tsearch (byKey key (key x)) x t) := by
  cases hf : tfind (byKey key (key x)) t with
  | some y => rw [Sorted, L.tsearch_hit hf (h.monotone _)]; exact h
  | none =>
    obtain ⟨l, r, h₁, hl, hr, h₂⟩ := L.tsearch_miss (x := x) hf (h.monotone _)
    rw [Sorted, h₁, List.pairwise_append] at h
    rw [Sorted, h₂, List.pairwise_append, List.pairwise_cons]
    have hl' : ∀ y ∈ l, key y < key x := fun y hy => compare_gt_iff_gt.1 (hl y hy)
    have hr' : ∀ y ∈ r, key x < key y := fun y hy => compare_lt_iff_lt.1 (hr y hy)
    refine ⟨h.1, ⟨hr', h.2.1⟩, ?_⟩
    intro a ha b hb
    rcases List.mem_cons.1 hb with rfl | hb
    · exact hl' a ha
    · exact h.2.2 a ha b hb

/-- Insertion of a key that is not there adds the element. -/
theorem perm_tsearch {key : α → κ} {t : BinaryTree α} (h : Sorted key t) {x : α}
    (hnew : ∀ y ∈ inorder t, key y ≠ key x) :
    (inorder (L.tsearch (byKey key (key x)) x t)).Perm (x :: inorder t) := by
  have hf : tfind (byKey key (key x)) t = none := (tfind_byKey_none h _).2 hnew
  obtain ⟨l, r, h₁, -, -, h₂⟩ := L.tsearch_miss (x := x) hf (h.monotone _)
  rw [h₁, h₂]
  exact List.perm_middle

/-- Insertion of a key that is there changes nothing but perhaps the shape. -/
theorem inorder_tsearch_of_mem {key : α → κ} {t : BinaryTree α} (h : Sorted key t) {x y : α}
    (hy : y ∈ inorder t) (hk : key y = key x) :
    inorder (L.tsearch (byKey key (key x)) x t) = inorder t :=
  L.tsearch_hit ((tfind_byKey h _ y).2 ⟨hy, hk⟩) (h.monotone _)

end TreeLib

/-! ## The plain search tree -/

/-- Insertion at the leaf where the descent falls off. -/
def insertLeaf (c : α → Ordering) (x : α) : BinaryTree α → BinaryTree α
  | .nil => .node x .nil .nil
  | .node y l r =>
    match c y with
    | .lt => .node y (insertLeaf c x l) r
    | .eq => .node y l r
    | .gt => .node y l (insertLeaf c x r)

/-- The leftmost element of `node x l r` and the tree without it. -/
def popMin : α → BinaryTree α → BinaryTree α → α × BinaryTree α
  | x, .nil, r => (x, r)
  | x, .node y l' r', r => ((popMin y l' r').1, .node x (popMin y l' r').2 r)

/-- The tree that is left when the root between `l` and `r` goes. -/
def join : BinaryTree α → BinaryTree α → BinaryTree α
  | .nil, r => r
  | l, .nil => l
  | l, .node y l' r' => .node (popMin y l' r').1 l (popMin y l' r').2

/-- Deletion of the element the descent meets. -/
def deleteMet (c : α → Ordering) : BinaryTree α → BinaryTree α
  | .nil => .nil
  | .node y l r =>
    match c y with
    | .lt => .node y (deleteMet c l) r
    | .eq => join l r
    | .gt => .node y l (deleteMet c r)

theorem inorder_popMin (x : α) (l r : BinaryTree α) :
    (popMin x l r).1 :: inorder (popMin x l r).2 = inorder (.node x l r) := by
  induction l generalizing x r with
  | nil => rfl
  | node y l' r' ih _ => rw [popMin, inorder_node, inorder_node, ← ih y r']; rfl

theorem inorder_join (l r : BinaryTree α) : inorder (join l r) = inorder l ++ inorder r := by
  cases l with
  | nil => cases r <;> rfl
  | node x l₁ l₂ =>
    cases r with
    | nil => simp [join]
    | node y r₁ r₂ =>
      rw [join, inorder_node, inorder_popMin]
      exact fun h => nomatch h

theorem inorder_insertLeaf_hit {c : α → Ordering} {x y : α} {t : BinaryTree α}
    (h : tfind c t = some y) : inorder (insertLeaf c x t) = inorder t := by
  induction t with
  | nil => simp [tfind] at h
  | node z l r ihl ihr =>
    rw [tfind] at h
    rw [insertLeaf]
    split at h
    · simp [ihl h]
    · rfl
    · simp [ihr h]

theorem inorder_insertLeaf_miss {c : α → Ordering} {x : α} {t : BinaryTree α}
    (h : tfind c t = none) (hm : Monotone c (inorder t)) :
    ∃ l r, inorder t = l ++ r ∧ (∀ y ∈ l, c y = .gt) ∧ (∀ y ∈ r, c y = .lt) ∧
      inorder (insertLeaf c x t) = l ++ x :: r := by
  induction t with
  | nil => exact ⟨[], [], by simp [insertLeaf]⟩
  | node z tl tr ihl ihr =>
    simp only [Monotone, inorder_node, List.pairwise_append, List.pairwise_cons] at hm
    obtain ⟨hml, ⟨hzr, hmr⟩, hlr⟩ := hm
    rw [tfind] at h
    split at h
    · rename_i hz
      obtain ⟨l, r, h₁, hl, hr, h₂⟩ := ihl h hml
      refine ⟨l, r ++ z :: inorder tr, by simp [h₁], hl, ?_, by simp [insertLeaf, hz, h₂]⟩
      intro y hy
      rcases List.mem_append.1 hy with hy | hy
      · exact hr y hy
      · rcases List.mem_cons.1 hy with rfl | hy
        · exact hz
        · exact (hzr y hy).2 hz
    · cases h
    · rename_i hz
      obtain ⟨l, r, h₁, hl, hr, h₂⟩ := ihr h hmr
      refine ⟨inorder tl ++ z :: l, r, by simp [h₁], ?_, hr, by simp [insertLeaf, hz, h₂]⟩
      intro y hy
      rcases List.mem_append.1 hy with hy | hy
      · exact (hlr y hy z (List.mem_cons_self ..)).1 hz
      · rcases List.mem_cons.1 hy with rfl | hy
        · exact hz
        · exact hl y hy

theorem mem_insertLeaf {c : α → Ordering} {x y : α} {t : BinaryTree α}
    (h : y ∈ inorder (insertLeaf c x t)) : y = x ∨ y ∈ inorder t := by
  induction t with
  | nil => simpa [insertLeaf] using h
  | node z l r ihl ihr =>
    rw [insertLeaf] at h
    split at h
    · rw [inorder_node, List.mem_append] at h
      rcases h with h | h
      · exact (ihl h).imp_right fun h => by simp [h]
      · exact Or.inr (by simp [List.mem_cons.1 h])
    · exact Or.inr h
    · rw [inorder_node, List.mem_append, List.mem_cons] at h
      rcases h with h | h | h
      · exact Or.inr (by simp [h])
      · exact Or.inr (by simp [h])
      · exact (ihr h).imp_right fun h => by simp [h]

theorem inorder_deleteMet_hit {c : α → Ordering} {t : BinaryTree α} {y : α}
    (h : tfind c t = some y) :
    ∃ l r, inorder t = l ++ y :: r ∧ inorder (deleteMet c t) = l ++ r := by
  induction t with
  | nil => simp [tfind] at h
  | node z tl tr ihl ihr =>
    rw [tfind] at h
    split at h
    · rename_i hz
      obtain ⟨l, r, h₁, h₂⟩ := ihl h
      exact ⟨l, r ++ z :: inorder tr, by simp [h₁], by simp [deleteMet, hz, h₂]⟩
    · rename_i hz
      cases h
      exact ⟨inorder tl, inorder tr, rfl, by simp [deleteMet, hz, inorder_join]⟩
    · rename_i hz
      obtain ⟨l, r, h₁, h₂⟩ := ihr h
      exact ⟨inorder tl ++ z :: l, r, by simp [h₁], by simp [deleteMet, hz, h₂]⟩

theorem deleteMet_miss {c : α → Ordering} {t : BinaryTree α} (h : tfind c t = none) :
    deleteMet c t = t := by
  induction t with
  | nil => rfl
  | node z l r ihl ihr =>
    rw [tfind] at h
    rw [deleteMet]
    split at h
    · simp [ihl h]
    · cases h
    · simp [ihr h]

/-- The search tree without rebalancing keeps the library's promises. -/
def unbalanced : TreeLib α where
  tsearch := insertLeaf
  tdelete := deleteMet
  tsearch_hit h _ := inorder_insertLeaf_hit h
  tsearch_miss := inorder_insertLeaf_miss
  tsearch_mem := mem_insertLeaf
  tdelete_hit := inorder_deleteMet_hit
  tdelete_miss := deleteMet_miss

end Cidl.SearchTree
