import Cidl.Base.Transfer

/-!
# The loop of the baseline copy comes to its end

`ts_memcpy_traced` of the baseline build searches the source again after every
record it has moved, until it finds none.  A record it has just created may lie in
the source itself, when the destination begins where the source ends or the
other way round; but only the record of one address can come back so, and only
once.  So the loop ends whatever records there are, the tree stays a set of
disjoint ranges, and no record is left in the source (`tsMemcpyTraced_ends`).
-/

namespace Cidl.Base

open SearchTree

section

variable {L : TreeLib TreeRec} {inner fuel dest src n : ℕ} {t t₂ : BinaryTree TreeRec}
  {b new : TreeRec}

/-- The loop finds records that begin here. -/
def InSource (src n start : ℕ) : Prop := src ≤ start ∧ start ≤ src + n

instance (src n start : ℕ) : Decidable (InSource src n start) := inferInstanceAs (Decidable (_ ∧ _))

/-- How many rounds a record may still take: itself, and its copy if that lies in
the source again. -/
def rounds (dest src n start : ℕ) : ℕ :=
  if InSource src n start then
    if InSource src n (dest + (start - src)) then 2 else 1
  else 0

/-- The rounds still to come. -/
def roundsLeft (dest src n : ℕ) (t : BinaryTree TreeRec) : ℕ :=
  ∑ x ∈ (inorder t).toFinset, rounds dest src n x.startMemory

theorem rounds_le (dest src n start : ℕ) : rounds dest src n start ≤ 2 := by
  unfold rounds
  split
  · split <;> omega
  · omega

/-- A copy takes fewer rounds than the record it was made from. -/
theorem rounds_copy_lt (hn : 0 < n) (hdisj : dest + n ≤ src ∨ src + n ≤ dest) {start : ℕ}
    (hin : InSource src n start) :
    rounds dest src n (dest + (start - src)) < rounds dest src n start := by
  have hstart : rounds dest src n start =
      if InSource src n (dest + (start - src)) then 2 else 1 := if_pos hin
  rw [hstart]
  obtain ⟨hlo, hhi⟩ := hin
  unfold rounds
  by_cases hback : InSource src n (dest + (start - src))
  · have hout : ¬ InSource src n (dest + (dest + (start - src) - src)) := by
      obtain ⟨h₁, h₂⟩ := hback
      rintro ⟨h₃, h₄⟩
      omega
    rw [if_pos hback, if_pos hback, if_neg hout]
    decide
  · rw [if_neg hback, if_neg hback]
    decide

/-! ## One round -/

/-- What a round leaves: fewer rounds to come, and no more records. -/
theorem round_spec (hn : 0 < n) (hdisj : dest + n ≤ src ∨ src + n ≤ dest)
    (hnodup : (inorder t).Nodup) (hnodup₂ : (inorder t₂).Nodup) (hb : b ∈ inorder t)
    (hin : InSource src n b.startMemory) (hnew : new.startMemory = dest + (b.startMemory - src))
    (hmem : ∀ x ∈ inorder t₂, x = new ∨ x ∈ inorder t ∧ x ≠ b) :
    roundsLeft dest src n t₂ < roundsLeft dest src n t ∧
      (inorder t₂).length ≤ (inorder t).length := by
  have hsub : (inorder t₂).toFinset ⊆ insert new ((inorder t).toFinset.erase b) := by
    intro x hx
    rcases hmem x (List.mem_toFinset.1 hx) with rfl | ⟨hxt, hxb⟩
    · exact Finset.mem_insert_self ..
    · exact Finset.mem_insert_of_mem (Finset.mem_erase.2 ⟨hxb, List.mem_toFinset.2 hxt⟩)
  have hbt := List.mem_toFinset.2 hb
  have hinsert : ∑ x ∈ insert new ((inorder t).toFinset.erase b), rounds dest src n x.startMemory ≤
      rounds dest src n new.startMemory +
        ∑ x ∈ (inorder t).toFinset.erase b, rounds dest src n x.startMemory := by
    by_cases hold : new ∈ (inorder t).toFinset.erase b
    · rw [Finset.insert_eq_of_mem hold]
      exact Nat.le_add_left ..
    · rw [Finset.sum_insert hold]
  constructor
  · have hlt := rounds_copy_lt hn hdisj hin
    calc roundsLeft dest src n t₂
        ≤ ∑ x ∈ insert new ((inorder t).toFinset.erase b), rounds dest src n x.startMemory :=
          Finset.sum_le_sum_of_subset hsub
      _ ≤ rounds dest src n new.startMemory +
            ∑ x ∈ (inorder t).toFinset.erase b, rounds dest src n x.startMemory := hinsert
      _ < rounds dest src n b.startMemory +
            ∑ x ∈ (inorder t).toFinset.erase b, rounds dest src n x.startMemory := by
          rw [hnew]
          omega
      _ = roundsLeft dest src n t :=
          Finset.add_sum_erase _ (fun x => rounds dest src n x.startMemory) hbt
  · have hcard := (Finset.card_le_card hsub).trans (Finset.card_insert_le ..)
    rw [Finset.card_erase_add_one hbt] at hcard
    rwa [List.toFinset_card_of_nodup hnodup, List.toFinset_card_of_nodup hnodup₂] at hcard

/-- The record that a round inserts passes the assertions. -/
theorem shifted_accepted (hn : 0 < n) (hd : dest + 2 * n < wordSize) (haddr : addrLimit < dest)
    (hin : InSource src n b.startMemory) : assertRec ⟨b.fileOffset, b.fileName,
      dest + (b.startMemory - src),
      wadd (dest + (b.startMemory - src)) (min b.tailMemory (src + n) - src)⟩ := by
  obtain ⟨hlo, hhi⟩ := hin
  have hne := b.accepted.1.1
  rw [wadd_of_lt (by omega)]
  refine ⟨⟨?_, ?_, ?_⟩, b.accepted.2⟩
  · simp only
    omega
  · simp only
    omega
  · simp only
    omega

/-! ## The loop -/

theorem moveRecs_ends (hn : 0 < n) (hs : src + n < wordSize) (hd : dest + 2 * n < wordSize)
    (haddr : addrLimit < dest) (hdisj : dest + n ≤ src ∨ src + n ≤ dest)
    (ht : Apart startKey tailKey t) (hinner : (inorder t).length < inner)
    (hfuel : roundsLeft dest src n t < fuel) :
    ∃ t' created, moveRecs L inner dest src n fuel t = some (t', created) ∧
      Apart startKey tailKey t' := by
  induction fuel generalizing t with
  | zero => exact absurd hfuel (Nat.not_lt_zero _)
  | succ fuel ih =>
    cases hb : topmost (fun x : TreeRec => src ≤ x.startMemory ∧ x.startMemory ≤ src + n) t with
    | none => exact ⟨t, [], moveRecs_none hs (topmost_eq_none.1 hb), ht⟩
    | some b =>
      obtain ⟨hbt, hin⟩ := topmost_eq_some hb
      have hin : InSource src n b.startMemory := hin
      obtain ⟨t₂, h₂⟩ := insertRec_isSome (L := L) (shifted_accepted hn hd haddr hin)
        (Nat.lt_of_le_of_lt
          (L.tdelete_sublist (overlapRecBegBigger src (src + n)) t).length_le hinner)
      obtain ⟨new, hnew, hapart, hmem⟩ := moveRecs_round ht hb h₂
      obtain ⟨hrounds, hlen⟩ := round_spec hn hdisj ht.sorted.nodup hapart.sorted.nodup hbt hin
        (congrArg MemRec.startMemory hnew) fun x hx => ((hmem x).1 hx).imp_right And.left
      obtain ⟨t', created, hrun, hapart'⟩ := ih hapart (by omega) (by omega)
      refine ⟨t', shifted dest src n b :: created, ?_, hapart'⟩
      rw [moveRecs_some hs (by omega) ht hb, h₂, Option.bind_some, hrun, Option.map_some]

theorem roundsLeft_le (dest src n : ℕ) (t : BinaryTree TreeRec) :
    roundsLeft dest src n t ≤ 2 * (inorder t).length := by
  have hle := Finset.sum_le_card_nsmul (inorder t).toFinset
    (fun x => rounds dest src n x.startMemory) 2 fun x _ => rounds_le dest src n x.startMemory
  have hcard := List.toFinset_card_le (inorder t)
  rw [smul_eq_mul] at hle
  exact hle.trans (by omega)

end

/-- Between areas that do not overlap, above the limit of the assertions, a copy
comes to its end on any disjoint records.  It leaves disjoint records and none
that begins in the source, and every record it creates is a shifted copy; what
was not copied and is gone met a new record. -/
theorem tsMemcpyTraced_ends (L : TreeLib TreeRec) {t : BinaryTree TreeRec} {dest src n : ℕ}
    (ht : IntervalSet t) (hn : 0 < n) (hs : src + n < wordSize) (hd : dest + 2 * n < wordSize)
    (haddr : addrLimit < dest) (hdisj : dest + n ≤ src ∨ src + n ≤ dest) {fuel : ℕ}
    (hfuel : 2 * (inorder t).length < fuel) :
    ∃ t' created, tsMemcpyTraced L fuel t dest src n = some (t', created) ∧ IntervalSet t' ∧
      MoveSpec dest src n t t' created := by
  have hapart := intervalSet_iff.1 ht
  have hinner : (inorder t).length < fuel := by omega
  obtain ⟨t', created, hrun, hapart'⟩ := moveRecs_ends (L := L) hn hs hd haddr hdisj hapart hinner
    (Nat.lt_of_le_of_lt (roundsLeft_le dest src n t) hfuel)
  exact ⟨t', created, tsMemcpyTraced_eq.trans hrun, intervalSet_iff.2 hapart',
    moveRecs_spec hs (by omega) hapart hrun⟩

/-- The destination begins where the source ends: the copy of the first record is
found again and moved once more. -/
theorem tsMemcpyTraced_ends_adjacent : ∃ t' created,
    tsMemcpyTraced unbalanced 8 threeRecords 0x6000000020 0x6000000000 32 = some (t', created) ∧
      created.length = 3 ∧ IntervalSet t' := by
  obtain ⟨t', created, hrun, hset, -⟩ := @tsMemcpyTraced_ends unbalanced threeRecords
    0x6000000020 0x6000000000 32 intervalSet_threeRecords (by decide) (by decide) (by decide)
    (by decide) (by decide) 8 (by decide)
  refine ⟨t', created, hrun, ?_, hset⟩
  have hlen : (tsMemcpyTraced unbalanced 8 threeRecords 0x6000000020 0x6000000000 32).map
      (fun r => r.2.length) = some 3 := by
    decide +kernel
  rw [hrun] at hlen
  exact Option.some.inj hlen

end Cidl.Base
