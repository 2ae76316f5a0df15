import Cidl.Base.Intervals

/-!
# Records that the baseline build loses

`deleteRec` takes what it finds out of the tree and forgets it.  What
`ts_memcpy_traced` takes out it withdraws, and so it does with its search key.
So the objects in use are the records of the tree and those that some call of
`deleteRec` found (`Heap.Accounts`), and the two agree in the runs whose calls of
`deleteRec` find nothing (`balanced_iff`).
-/

namespace Cidl.Base

open SearchTree

/-! ## What a call of `deleteRec` loses -/

/-- No record of the tree has an address in the range to be cleared. -/
def Deletion.Clean (d : Deletion) : Prop :=
  ∀ b ∈ inorder d.recTreeRoot, ¬ Intersects d.startMemory d.tailMemory b

/-- The number of records that `overlapRec` finds. -/
def lostBy (startMemory tailMemory : ℕ) (t : BinaryTree TreeRec) : ℕ :=
  (inorder t).countP fun b => decide (overlapRec startMemory tailMemory b = .eq)

/-- The number of records that the deletion takes out of its tree. -/
def Deletion.lost (d : Deletion) : ℕ := lostBy d.startMemory d.tailMemory d.recTreeRoot

theorem Deletion.lost_eq_zero {d : Deletion} (h : d.startMemory < d.tailMemory) :
    d.lost = 0 ↔ d.Clean := by
  rw [Deletion.lost, lostBy, List.countP_eq_zero]
  refine forall₂_congr fun b _ => ?_
  rw [decide_eq_true_eq, overlapRec_eq h]

section

variable {L : TreeLib TreeRec} {fuel fileOffset dest fileName length : ℕ}
  {t t' : BinaryTree TreeRec}

theorem length_deleteRec (ht : Apart startKey tailKey t)
    (h : deleteRec L fuel t dest length = some t') :
    (inorder t').length + lostBy dest (wadd dest length) t = (inorder t).length := by
  have hacc := (deleteRec_eq_some ht h).1
  rw [deleteRec_eq, if_pos hacc] at h
  have hin := inorder_evict (monotone_overlapRec ht hacc.1) h
  have hsplit := List.length_eq_countP_add_countP (l := inorder t)
    fun b => decide (overlapRec dest (wadd dest length) b = .eq)
  rw [hsplit, hin, lostBy, ← List.countP_eq_length_filter, Nat.add_comm]
  simp

/-- An insertion adds one record, besides what it loses. -/
theorem length_insertRec (ht : Apart startKey tailKey t)
    (h : insertRec L fuel t fileOffset dest fileName length = some t') :
    (inorder t').length + lostBy dest (wadd dest length) t = (inorder t).length + 1 := by
  rw [insertRec_eq] at h
  obtain ⟨t₁, hdel, hins⟩ := Option.bind_eq_some_iff.1 h
  obtain ⟨hacc, hapart, hmem⟩ := deleteRec_eq_some ht hdel
  have hlen := length_deleteRec ht hdel
  split at hins
  · rename_i hrec
    cases hins
    let new : TreeRec := ⟨⟨fileOffset, fileName, dest, wadd dest length⟩, hrec, wadd_lt _ _⟩
    have hnew : ∀ y ∈ inorder t₁, startKey y ≠ startKey new := by
      intro y hy hstart
      have hne := ((hmem y).1 hy).2
      have hy' := y.accepted.1.1
      have hstart' : y.startMemory = dest := hstart
      rw [intersects_iff hacc.1] at hne
      have hlt := hacc.1
      omega
    have hperm : (inorder (L.tsearch (byKey startKey dest) new t₁)).length =
        (inorder t₁).length + 1 :=
      (L.perm_tsearch hapart.sorted hnew).length_eq
    rw [recCompare_eq]
    show (inorder (L.tsearch (byKey startKey dest) new t₁)).length + _ = _
    rw [hperm, ← hlen]
    omega
  · cases hins

end

/-! ## The balance of a run -/

/-- One call from outside. -/
inductive BaseCall
  | insertRec (fileOffset dest fileName length : ℕ)
  | tsMemcpyTraced (dest src n : ℕ)

/-- What a call does. -/
def BaseCall.perform (L : TreeLib TreeRec) (fuel : ℕ) : BaseCall → Heap → Option Heap
  | .insertRec fileOffset dest fileName length =>
    Heap.insertRec L fuel fileOffset dest fileName length
  | .tsMemcpyTraced dest src n => Heap.tsMemcpyTraced L fuel dest src n

namespace Heap

/-- As many objects are in use as the tree has records. -/
def Balanced (H : Heap) : Prop :=
  H.allocated = H.withdrawn + (inorder H.recTreeRoot).length

instance (H : Heap) : Decidable H.Balanced := inferInstanceAs (Decidable (_ = _))

/-- Of the objects in use, `keys` are search keys; the others are in the tree, or
some call of `deleteRec` found them. -/
structure Accounts (keys : ℕ) (H : Heap) : Prop where
  apart : Apart startKey tailKey H.recTreeRoot
  total : H.allocated = H.withdrawn + (inorder H.recTreeRoot).length +
    (H.deletions.map Deletion.lost).sum + keys
  ranges : ∀ d ∈ H.deletions, d.startMemory < d.tailMemory

variable {L : TreeLib TreeRec} {keys fuel inner dest src n length fileOffset fileName : ℕ}
  {H H' : Heap}

theorem Accounts.init : Accounts 0 init :=
  ⟨intervalSet_iff.1 IntervalSet.nil, rfl, fun _ hd => absurd hd List.not_mem_nil⟩

theorem Accounts.allocate (h : Accounts keys H) : Accounts (keys + 1) H.allocateMemRecArr := by
  refine ⟨h.apart, ?_, h.ranges⟩
  show H.allocated + 1 = _
  rw [h.total]
  rfl

theorem Accounts.withdraw (h : Accounts (keys + 1) H) : Accounts keys H.withdrawMemRecArr := by
  refine ⟨h.apart, ?_, h.ranges⟩
  have htotal := h.total
  show H.allocated = H.withdrawn + 1 + _ + _ + keys
  simp only [withdrawMemRecArr]
  omega

/-- The new record is the one object that an insertion allocates and keeps. -/
theorem Accounts.insertRec (h : Accounts keys H)
    (hrun : Heap.insertRec L fuel fileOffset dest fileName length H = some H') :
    Accounts keys H' := by
  rw [insertRec_eq] at hrun
  obtain ⟨t', ht', heq⟩ := Option.map_eq_some_iff.1 hrun
  cases heq
  have hlen := length_insertRec h.apart ht'
  obtain ⟨rec, hrec, hapart, -⟩ := insertRec_eq_some h.apart ht'
  refine ⟨hapart, ?_, fun d hd => ?_⟩
  · have htotal := h.total
    simp only [List.map_append, List.map_cons, List.map_nil, List.sum_append, List.sum_cons,
      List.sum_nil, Deletion.lost]
    omega
  · rcases List.mem_append.1 hd with hd | hd
    · exact h.ranges d hd
    · rw [List.mem_singleton.1 hd]
      have hlt := rec.accepted.1.1
      rw [hrec] at hlt
      exact hlt

/-- A record that is taken out of the tree to be copied becomes an object of its
own. -/
theorem Accounts.tdelete (h : Accounts keys H) {c : TreeRec → Ordering} {b : TreeRec}
    (hb : tfind c H.recTreeRoot = some b) (created : List MemRec) :
    Accounts (keys + 1)
      { H with recTreeRoot := L.tdelete c H.recTreeRoot, created := created } := by
  refine ⟨h.apart.of_sublist (L.tdelete_sublist _ _), ?_, h.ranges⟩
  have hlen := (L.perm_tdelete hb).length_eq
  have htotal := h.total
  rw [List.length_cons] at hlen
  simp only
  omega

theorem Accounts.moveRecs (h : Accounts keys H)
    (hrun : Heap.moveRecs L inner dest src n fuel H = some H') : Accounts keys H' := by
  induction fuel generalizing H with
  | zero => cases hrun
  | succ fuel ih =>
    rw [Heap.moveRecs] at hrun
    cases hb : tfind (overlapRecBegBigger src (wadd src n)) H.recTreeRoot with
    | none =>
      rw [hb] at hrun
      cases hrun
      exact h
    | some b =>
      rw [hb] at hrun
      obtain ⟨H₁, h₁, hrest⟩ := Option.bind_eq_some_iff.1 hrun
      exact ih ((h.tdelete hb _).insertRec h₁).withdraw hrest

theorem Accounts.perform (h : Accounts 0 H) {c : BaseCall} (hrun : c.perform L fuel H = some H') :
    Accounts 0 H' := by
  cases c with
  | insertRec fileOffset dest fileName length => exact h.insertRec hrun
  | tsMemcpyTraced dest src n =>
    obtain ⟨H₁, h₁, rfl⟩ := Option.map_eq_some_iff.1 hrun
    exact (h.allocate.moveRecs h₁).withdraw

theorem Accounts.run {cs : List BaseCall}
    (h : runAll (fun c => c.perform L fuel) cs .init = some H) : Accounts 0 H :=
  runAll_invariant (P := Accounts 0) (fun _ _ _ _ hs hc => hs.perform hc) .init h

theorem Accounts.balanced_iff (h : Accounts 0 H) :
    H.Balanced ↔ ∀ d ∈ H.deletions, d.Clean := by
  have htotal := h.total
  have hzero : H.Balanced ↔ (H.deletions.map Deletion.lost).sum = 0 := by
    rw [Balanced]
    omega
  rw [hzero, List.sum_eq_zero_iff, List.forall_mem_map]
  exact forall₂_congr fun d hd => Deletion.lost_eq_zero (h.ranges d hd)

end Heap

/-- After any calls of `insertRec` and `ts_memcpy_traced` as many objects are in
use as the tree has records if and only if none of their calls of `deleteRec`
found a record in the range it was to clear. -/
theorem heap_balanced_iff (L : TreeLib TreeRec) (fuel : ℕ) (cs : List BaseCall) (H : Heap)
    (h : runAll (fun c => c.perform L fuel) cs .init = some H) :
    H.Balanced ↔ ∀ d ∈ H.deletions, d.Clean :=
  (Heap.Accounts.run h).balanced_iff

/-- Two reads that fill two buffers, and a copy out of the first one. -/
def twoReadsAndACopy : List BaseCall :=
  [.insertRec 0 0x6000000000 100 16, .insertRec 0 0x6000000100 100 16,
    .tsMemcpyTraced 0x7000000000 0x6000000000 16]

theorem heap_balanced_copy : ∃ H,
    runAll (fun c => c.perform unbalanced 4) twoReadsAndACopy .init = some H ∧ H.Balanced := by
  have hrun : (runAll (fun c => c.perform unbalanced 4) twoReadsAndACopy .init).isSome := by
    decide +kernel
  obtain ⟨H, hH⟩ := Option.isSome_iff_exists.1 hrun
  refine ⟨H, hH, (heap_balanced_iff unbalanced 4 twoReadsAndACopy H hH).2 ?_⟩
  have hclean : (runAll (fun c => c.perform unbalanced 4) twoReadsAndACopy .init).all
      fun H => H.deletions.all fun d => d.lost = 0 := by
    decide +kernel
  rw [hH] at hclean
  intro d hd
  have hlost := List.all_eq_true.1 hclean d hd
  exact (Deletion.lost_eq_zero ((Heap.Accounts.run hH).ranges d hd)).1 (of_decide_eq_true hlost)

/-- The second of two reads into one buffer takes the record of the first out of
the tree, and nobody withdraws it. -/
theorem heap_unbalanced : ¬ ∀ (cs : List BaseCall) (H : Heap),
    runAll (fun c => c.perform unbalanced 4) cs .init = some H → H.Balanced := by
  intro hall
  have hlost : (runAll (fun c => BaseCall.perform unbalanced 4 c)
      [.insertRec 0 0x6000000000 100 16, .insertRec 16 0x6000000000 100 16] .init).any
        fun H => ¬ H.Balanced := by
    decide +kernel
  obtain ⟨H, hH, hnot⟩ := (Option.any_eq_true _ _).1 hlost
  exact of_decide_eq_true hnot (hall _ H hH)

end Cidl.Base
