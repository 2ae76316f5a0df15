import Cidl.Lib.Run
import Cidl.Model.Base

/-!
# The records of the baseline build are disjoint ranges

`deleteRec` searches and deletes with `overlapRec` in a tree that is ordered by
`recCompare`.  As long as the records are disjoint the comparator is monotone
along the tree, equal on exactly the records that meet the new one
(`overlapRec_eq`), so every one of them goes and no other
(`insertRec_eq_some`).
-/

namespace Cidl.Base

open SearchTree

/-! ## Sets of disjoint ranges -/

/-- The key of the tree. -/
abbrev startKey (b : TreeRec) : ℕ := b.startMemory

/-- Where a record ends. -/
abbrev tailKey (b : TreeRec) : ℕ := b.tailMemory

/-- Some address of the record lies in `[start, tail)`. -/
def Intersects (start tail : ℕ) (b : TreeRec) : Prop :=
  ∃ a, b.startMemory ≤ a ∧ a < b.tailMemory ∧ start ≤ a ∧ a < tail

/-- Non-empty records, in the order of their starts and without a common address. -/
structure IntervalSet (recTreeRoot : BinaryTree TreeRec) : Prop where
  sorted : Sorted startKey recTreeRoot
  nonempty : ∀ b ∈ inorder recTreeRoot, b.startMemory < b.tailMemory
  disjoint : (inorder recTreeRoot).Pairwise fun a b => ¬ Intersects a.startMemory a.tailMemory b

theorem intersects_iff {start tail : ℕ} (h : start < tail) (b : TreeRec) :
    Intersects start tail b ↔ b.startMemory < tail ∧ start < b.tailMemory := by
  have hb := b.accepted.1.1
  constructor
  · rintro ⟨a, h₁, h₂, h₃, h₄⟩
    exact ⟨Nat.lt_of_le_of_lt h₁ h₄, Nat.lt_of_le_of_lt h₃ h₂⟩
  · rintro ⟨h₁, h₂⟩
    exact ⟨max b.startMemory start, Nat.le_max_left _ _, Nat.max_lt.2 ⟨hb, h₂⟩,
      Nat.le_max_right _ _, Nat.max_lt.2 ⟨h₁, h⟩⟩

theorem intervalSet_iff {t : BinaryTree TreeRec} : IntervalSet t ↔ Apart startKey tailKey t := by
  have hpair : ∀ a b : TreeRec, ¬ Intersects a.startMemory a.tailMemory b ↔
      a.tailMemory ≤ b.startMemory ∨ b.tailMemory ≤ a.startMemory := by
    intro a b
    rw [intersects_iff a.accepted.1.1]
    omega
  rw [apart_iff]
  constructor
  · rintro ⟨hs, hne, hd⟩
    exact ⟨hs, hne, hd.imp fun hab => (hpair _ _).1 hab⟩
  · rintro ⟨hs, hne, hd⟩
    exact ⟨hs, hne, hd.imp fun hab => (hpair _ _).2 hab⟩

theorem IntervalSet.nil : IntervalSet .nil :=
  ⟨List.Pairwise.nil, fun _ hb => absurd hb List.not_mem_nil, List.Pairwise.nil⟩

/-! ## The comparators -/

theorem recCompare_eq (start : ℕ) : recCompare start = byKey startKey start := by
  funext b
  unfold recCompare byKey
  rcases Nat.lt_trichotomy start b.startMemory with h | h | h
  · rw [if_pos h, compare_lt_iff_lt.2 h]
  · rw [if_neg (by omega), if_neg (by omega), compare_eq_iff_eq.2 h]
  · rw [if_neg (by omega), if_pos h, compare_gt_iff_gt.2 h]

section

variable {start tail : ℕ}

theorem overlapRec_gt {b : TreeRec} : overlapRec start tail b = .gt ↔ b.tailMemory ≤ start := by
  have hb := b.accepted.1.1
  unfold overlapRec
  split
  · rename_i h
    exact iff_of_true rfl h.2
  · rename_i h
    have hle : ¬ b.tailMemory ≤ start := fun hle => h ⟨by omega, hle⟩
    split <;> exact iff_of_false nofun hle

theorem overlapRec_lt (h : start < tail) {b : TreeRec} :
    overlapRec start tail b = .lt ↔ tail ≤ b.startMemory := by
  have hb := b.accepted.1.1
  unfold overlapRec
  split
  · rename_i hgt
    exact iff_of_false nofun (by omega)
  · split
    · rename_i hlt
      exact iff_of_true rfl hlt.2
    · rename_i hlt
      exact iff_of_false nofun fun hle => hlt ⟨by omega, hle⟩

/-- A record compares equal exactly when it meets the range. -/
theorem overlapRec_eq (h : start < tail) {b : TreeRec} :
    overlapRec start tail b = .eq ↔ Intersects start tail b := by
  rw [intersects_iff h]
  have hgt : overlapRec start tail b = .gt ↔ b.tailMemory ≤ start := overlapRec_gt
  have hlt := overlapRec_lt h (b := b)
  cases hc : overlapRec start tail b with
  | lt =>
    have := hlt.1 hc
    exact iff_of_false nofun (by omega)
  | eq =>
    refine iff_of_true rfl ⟨?_, ?_⟩
    · by_contra hle
      rw [hlt.2 (by omega)] at hc
      cases hc
    · by_contra hle
      rw [hgt.2 (by omega)] at hc
      cases hc
  | gt =>
    have := hgt.1 hc
    exact iff_of_false nofun (by omega)

/-- Along disjoint records `overlapRec` leads the right way. -/
theorem monotone_overlapRec {t : BinaryTree TreeRec} (ht : Apart startKey tailKey t)
    (h : start < tail) : Monotone (overlapRec start tail) (inorder t) := by
  refine ht.apart.imp_of_mem ?_
  intro x y hx hy hxy
  have hxne := x.accepted.1.1
  have hyne := y.accepted.1.1
  have hle : x.tailMemory ≤ y.startMemory := hxy
  rw [overlapRec_gt, overlapRec_gt, overlapRec_lt h, overlapRec_lt h]
  constructor
  · intro hgt
    omega
  · intro hlt
    omega

end

/-! ## `insertRec` -/

section

variable {L : TreeLib TreeRec} {fuel fileOffset dest fileName length : ℕ}
  {t t' : BinaryTree TreeRec}

theorem deleteRec_isSome (hacc : assertRange dest (wadd dest length))
    (hfuel : (inorder t).length < fuel) : ∃ t', deleteRec L fuel t dest length = some t' := by
  rw [deleteRec_eq, if_pos hacc]
  exact evict_isSome L _ hfuel

theorem deleteRec_eq_some (ht : Apart startKey tailKey t)
    (h : deleteRec L fuel t dest length = some t') :
    assertRange dest (wadd dest length) ∧ Apart startKey tailKey t' ∧
      ∀ x, x ∈ inorder t' ↔ x ∈ inorder t ∧ ¬ Intersects dest (wadd dest length) x := by
  rw [deleteRec_eq] at h
  split at h
  · rename_i hacc
    have hin := inorder_evict (monotone_overlapRec ht hacc.1) h
    refine ⟨hacc, ht.of_sublist (hin ▸ List.filter_sublist), fun x => ?_⟩
    rw [hin, List.mem_filter, decide_eq_true_eq, ne_eq, overlapRec_eq hacc.1]
  · cases h

/-- What `insertRec` needs, and what it leaves. -/
theorem insertRec_eq_some (ht : Apart startKey tailKey t)
    (h : insertRec L fuel t fileOffset dest fileName length = some t') :
    ∃ rec : TreeRec, rec.toMemRec = ⟨fileOffset, fileName, dest, wadd dest length⟩ ∧
      Apart startKey tailKey t' ∧ ∀ x, x ∈ inorder t' ↔
        x = rec ∨ x ∈ inorder t ∧ ¬ Intersects dest (wadd dest length) x := by
  rw [insertRec_eq] at h
  obtain ⟨t₁, hdel, hins⟩ := Option.bind_eq_some_iff.1 h
  obtain ⟨hacc, hapart, hmem⟩ := deleteRec_eq_some ht hdel
  split at hins
  · rename_i hrec
    cases hins
    have hfree : ∀ y ∈ inorder t₁, tailKey y ≤ dest ∨ wadd dest length ≤ startKey y := by
      intro y hy
      have hne := ((hmem y).1 hy).2
      rw [intersects_iff hacc.1] at hne
      simp only [startKey, tailKey]
      omega
    let new : TreeRec := ⟨⟨fileOffset, fileName, dest, wadd dest length⟩, hrec, wadd_lt _ _⟩
    obtain ⟨hapart', hmem'⟩ := hapart.tsearch L (x := new) hacc.1 hfree
    refine ⟨new, rfl, ?_⟩
    rw [recCompare_eq]
    refine ⟨hapart', fun x => ?_⟩
    rw [← hmem]
    exact hmem' x
  · cases hins

theorem insertRec_isSome (hacc : assertRec ⟨fileOffset, fileName, dest, wadd dest length⟩)
    (hfuel : (inorder t).length < fuel) :
    ∃ t', insertRec L fuel t fileOffset dest fileName length = some t' := by
  obtain ⟨t₁, h₁⟩ := deleteRec_isSome (L := L) hacc.1 hfuel
  rw [insertRec_eq, h₁, Option.bind_some, dif_pos hacc]
  exact ⟨_, rfl⟩

end

/-- The record that a call of `insertRec` asks for. -/
def InsertCall.record (c : InsertCall) : MemRec :=
  ⟨c.fileOffset, c.fileName, c.dest, c.dest + c.length⟩

/-- The assertions hold of what the call stores, and its arguments are machine words. -/
structure InsertCall.Accepted (c : InsertCall) : Prop where
  asserted : assertRec ⟨c.fileOffset, c.fileName, c.dest, wadd c.dest c.length⟩
  dest_lt : c.dest < wordSize
  length_lt : c.length < wordSize

theorem InsertCall.Accepted.wadd_eq {c : InsertCall} (h : c.Accepted) :
    wadd c.dest c.length = c.dest + c.length := by
  have hlt : c.dest < wadd c.dest c.length := h.asserted.1.1
  have hdest := h.dest_lt
  have hlength := h.length_lt
  simp only [wadd, wordSize] at *
  omega

/-- In a set of disjoint records, in whatever shape the tree is, `deleteRec` ends
and `insertRec` leaves the records that do not meet the new one, and the new one.
So after any calls of `insertRec` the tree is such a set. -/
theorem insertRec_intervalSet (L : TreeLib TreeRec) :
    (∀ fuel t (c : InsertCall), IntervalSet t → c.Accepted → (inorder t).length < fuel →
        (∃ t₁, deleteRec L fuel t c.dest c.length = some t₁) ∧
        ∃ t', c.perform L fuel t = some t' ∧ IntervalSet t' ∧
          ∃ rec : TreeRec, rec.toMemRec = c.record ∧ ∀ x, x ∈ inorder t' ↔
            x = rec ∨ x ∈ inorder t ∧ ¬ Intersects c.dest (c.dest + c.length) x) ∧
    ∀ fuel (cs : List InsertCall) t',
      runAll (fun c => c.perform L fuel) cs .nil = some t' → IntervalSet t' := by
  constructor
  · intro fuel t c ht hc hfuel
    obtain ⟨t', hrun⟩ := insertRec_isSome (L := L) hc.asserted hfuel
    obtain ⟨rec, hrec, hapart, hmem⟩ := insertRec_eq_some (intervalSet_iff.1 ht) hrun
    refine ⟨deleteRec_isSome hc.asserted.1 hfuel, t', hrun, intervalSet_iff.2 hapart, rec, ?_, ?_⟩
    · rw [hrec, InsertCall.record, hc.wadd_eq]
    · rw [hc.wadd_eq] at hmem
      exact hmem
  · intro fuel cs t' hrun
    refine runAll_invariant (P := IntervalSet) (fun c _ t t₁ ht hc => ?_) IntervalSet.nil hrun
    obtain ⟨-, -, hapart, -⟩ := insertRec_eq_some (intervalSet_iff.1 ht) hc
    exact intervalSet_iff.2 hapart

/-- Sixteen bytes of a file at the path string 100. -/
def sixteen (start : ℕ) (h : assertRange start (start + 16) ∧ start + 16 < wordSize) : TreeRec where
  fileOffset := 0
  fileName := 100
  startMemory := start
  tailMemory := start + 16
  accepted := ⟨h.1, show 0 < 100000000000002 by decide, show 100 ≠ 0 by decide⟩
  fits := h.2

/-- Three records, two of which touch. -/
def threeRecords : BinaryTree TreeRec :=
  .node (sixteen 0x6000000010 (by decide))
    (.node (sixteen 0x6000000000 (by decide)) .nil .nil)
    (.node (sixteen 0x6000000100 (by decide)) .nil .nil)

theorem intervalSet_threeRecords : IntervalSet threeRecords := by
  refine intervalSet_iff.2 ⟨by decide, ?_⟩
  show List.Pairwise _ [_, _, _]
  simp only [List.pairwise_cons]
  decide

/-- A record across the end of the first one and the beginning of the second
takes the place of both. -/
theorem insertRec_intervalSet_across : ∃ t',
    (⟨8, 0x6000000008, 100, 16⟩ : InsertCall).perform unbalanced 4 threeRecords = some t' ∧
      IntervalSet t' ∧ (inorder t').length = 2 := by
  obtain ⟨-, t', ht', hset, -⟩ := (insertRec_intervalSet unbalanced).1 4 threeRecords
    ⟨8, 0x6000000008, 100, 16⟩ intervalSet_threeRecords ⟨by decide, by decide, by decide⟩
    (by decide)
  refine ⟨t', ht', hset, ?_⟩
  have hlen : ((⟨8, 0x6000000008, 100, 16⟩ : InsertCall).perform unbalanced 4 threeRecords).map
      (fun t => (inorder t).length) = some 2 := by
    decide
  rw [ht'] at hlen
  exact Option.some.inj hlen

end Cidl.Base
