import Cidl.Base.Transfer
import Cidl.Writes.Visits

/-!
# Writes in the baseline build

`do_ts_write` asks the tree for a record that begins in what is left of the
buffer, and goes on behind the end of the record it was given.  Two things are
lost that way: what lies to the left of the record that the root path meets
first, and a record that begins where the one before it ends, since `tailMemory`
is the address behind a record.

`scanned` are the records that the loop comes to, read off the tree without the
loop (`writeLoop_eq`).  From it follow when all records of the buffer are visited
(`doTsWrite_visits_iff`) and when no byte is credited twice
(`doTsWrite_creditsOnce_iff`).
-/

namespace Cidl.Base

open SearchTree

/-! ## The records that the loop comes to -/

/-- The records as items of a scan that goes on behind the address after each. -/
def recExtents : Extents TreeRec where
  start b := b.startMemory
  stop b := some (b.tailMemory + 1)

/-- The records at which the way to `tail` goes right, each beginning behind the
address after the one before. -/
def scanned (recTreeRoot : BinaryTree TreeRec) (startMemory tail : ℕ) : List TreeRec :=
  recExtents.taken startMemory (onWay startKey tail recTreeRoot)

section

variable {t : BinaryTree TreeRec} {startMemory tail : ℕ}

theorem scanned_sublist : (scanned t startMemory tail).Sublist (inorder t) :=
  Extents.taken_sublist.trans (onWay_sublist _ _ t)

theorem within_recExtents (l : List TreeRec) : recExtents.Within wordSize l := by
  rintro b - e he -
  cases he
  have hb := b.accepted.1.1
  have hfits := b.fits
  constructor
  · show b.startMemory ≤ b.tailMemory + 1
    omega
  · exact hfits

theorem noneBeyond_recExtents (l : List TreeRec) : recExtents.NoneBeyond wordSize l := by
  intro b _ hlt
  have hb := b.accepted.1.1
  have hfits := b.fits
  have hstart : wordSize < b.startMemory := hlt
  omega

theorem bounds_of_mem_scanned (h : startMemory ≤ wordSize) {b : TreeRec}
    (hb : b ∈ scanned t startMemory tail) : startMemory ≤ b.startMemory ∧ b.startMemory ≤ tail := by
  have hway : b ∈ onWay startKey tail t := Extents.taken_sublist.subset hb
  have htail : startKey b ≤ tail := le_of_mem_onWay hway
  exact ⟨Extents.le_start_of_mem_taken (within_recExtents _) (noneBeyond_recExtents _) h hb, htail⟩

/-- Of the records that the loop comes to, the later ones lie behind the address
after the earlier ones. -/
theorem pairwise_scanned (h : startMemory ≤ wordSize) :
    (scanned t startMemory tail).Pairwise fun a b => a.tailMemory + 1 ≤ b.startMemory :=
  (Extents.taken_disjoint (within_recExtents _) (noneBeyond_recExtents _) h).imp
    fun hab => hab _ rfl

theorem tfind_eq_none_of_scanned (h : startMemory ≤ tail)
    (hf : tfind (overlapRecBegBigger startMemory tail) t = none) :
    scanned t startMemory tail = [] := by
  rw [overlapRecBegBigger_eq h, find_onWay h] at hf
  refine (Extents.taken_eq_nil fun x hx => Nat.lt_of_not_le fun hle => ?_).1
  exact List.find?_eq_none.1 hf x hx (decide_eq_true hle)

theorem scanned_eq_cons (h : startMemory ≤ tail) {b : TreeRec}
    (hf : tfind (overlapRecBegBigger startMemory tail) t = some b) :
    scanned t startMemory tail = b :: scanned t (b.tailMemory + 1) tail := by
  rw [overlapRecBegBigger_eq h, find_onWay h] at hf
  exact Extents.taken_of_find hf rfl (Nat.lt_succ_of_lt b.accepted.1.1)

end

section

variable {M : FileMaps} {mem : ℕ → UInt8} {t : BinaryTree TreeRec} {tail : ℕ}

/-- The loop passes the records that it comes to, from left to right, but stops
before one that begins at the very end of the buffer if nothing is left then. -/
theorem writeLoop_eq (ht : tail < wordSize) {fuel startMemory : ℕ} {s : Scan}
    (h : startMemory ≤ tail) (hfuel : (scanned t startMemory tail).length < fuel) :
    ∃ V W exited, scanned t startMemory tail = V ++ W ∧ (∀ w ∈ W, w.startMemory = tail) ∧
      writeLoop M mem t tail fuel startMemory s =
        some { V.foldl (fun s b => cmpWrite M mem tail b s) s with exited := exited } := by
  induction fuel generalizing startMemory s with
  | zero => exact absurd hfuel (Nat.not_lt_zero _)
  | succ fuel ih =>
    rw [writeLoop]
    cases hf : tfind (overlapRecBegBigger startMemory tail) t with
    | none =>
      refine ⟨[], [], s.exited, tfind_eq_none_of_scanned h hf, nofun, rfl⟩
    | some b =>
      have hcons := scanned_eq_cons h hf
      obtain ⟨hne, haddr, -⟩ := b.accepted.1
      have hfits := b.fits
      -- whatever the loop does not come to afterwards begins at `tail`
      have hrest : b.tailMemory + 1 < tail ∨
          ∀ w ∈ scanned t (b.tailMemory + 1) tail, w.startMemory = tail := by
        by_cases hlt : b.tailMemory + 1 < tail
        · exact Or.inl hlt
        · refine Or.inr fun w hw => ?_
          have := bounds_of_mem_scanned (by omega) hw
          omega
      dsimp only
      by_cases hlast : tail ≤ wadd b.tailMemory 1
      · rw [if_pos hlast]
        refine ⟨[b], scanned t (b.tailMemory + 1) tail, (cmpWrite M mem tail b s).exited, hcons,
          ?_, rfl⟩
        refine hrest.resolve_left fun hlt => ?_
        rw [wadd_of_lt (by omega)] at hlast
        omega
      · rw [if_neg hlast]
        by_cases hassert : assertRange (wadd b.tailMemory 1) tail
        · have hwrap : wadd b.tailMemory 1 = b.tailMemory + 1 := by
            have hlow := hassert.2.1
            simp only [wadd, wordSize, addrLimit] at *
            omega
          rw [if_pos hassert, hwrap]
          rw [hcons, List.length_cons] at hfuel
          have hle : b.tailMemory + 1 ≤ tail := by omega
          obtain ⟨V, W, exited, hVW, hW, hrun⟩ :=
            ih (s := cmpWrite M mem tail b s) hle (by omega)
          exact ⟨b :: V, W, exited, by rw [hcons, hVW]; rfl, hW, hrun⟩
        · rw [if_neg hassert]
          refine ⟨[b], scanned t (b.tailMemory + 1) tail, true, hcons, ?_, rfl⟩
          refine hrest.resolve_left fun hlt => hassert ?_
          rw [wadd_of_lt (by omega)]
          exact ⟨hlt, by omega, by omega⟩

/-! ## One record -/

/-- Where a mapping shows what a record was made from, if `cmpWrite` compares the
record with it. -/
def comparedTo (M : FileMaps) (b : TreeRec) : Option ℕ :=
  match tfind (byKey M.nameKey b.fileName) M.fileMapNameTreeRoot with
  | none => none
  | some x =>
    let fmTarNode := M.fileMapTreeNodes x
    if fmTarNode.offset ≤ b.fileOffset then
      some (wsub (wadd fmTarNode.start b.fileOffset) fmTarNode.offset)
    else none

/-- The comparison made for a record, if there is one. -/
def creditOf (M : FileMaps) (mem : ℕ → UInt8) (tail : ℕ) (b : TreeRec) : Option Compared :=
  (comparedTo M b).map fun f =>
    let diffPos := matchEnd mem tail b.startMemory f
    ⟨b, wsub tail b.startMemory, wsub (min tail diffPos) b.startMemory, diffPos⟩

/-- `*diffPos` after a comparison: the end of the equal bytes. -/
theorem diffAfter_eq (mem : ℕ → UInt8) (a f tail diffPos : ℕ) :
    (if (memcmpBbb mem a f (wsub tail a)).1 ≠ 0 then
      (memcmpBbb mem a f (wsub tail a)).2.getD diffPos else tail) = matchEnd mem tail a f := by
  split
  · rename_i hne
    obtain ⟨i, hi, hsome, hdiff, hbelow⟩ := memcmpC_first mem a f _ hne
    rw [matchEnd_of_first hi hdiff hbelow, memcmpBbb, hsome, Option.getD_some]
  · rename_i heq
    exact (matchEnd_of_equal ((memcmpC_equal mem a f _).1 (not_not.1 heq))).symm

/-- What a comparison adds: the bytes before the end of the equal ones. -/
theorem addLen_eq (mem : ℕ → UInt8) (a f tail : ℕ) :
    (if (memcmpBbb mem a f (wsub tail a)).1 ≠ 0 then
      wsub (min tail (matchEnd mem tail a f)) a else wsub tail a) =
      wsub (min tail (matchEnd mem tail a f)) a := by
  split
  · rfl
  · rename_i heq
    rw [matchEnd_of_equal ((memcmpC_equal mem a f _).1 (not_not.1 heq)), Nat.min_self]

/-- What `cmpWrite` does to the records passed, the comparisons and the counter. -/
theorem cmpWrite_spec (b : TreeRec) (s : Scan) :
    (cmpWrite M mem tail b s).passed = s.passed ++ [b] ∧
    (cmpWrite M mem tail b s).compared = s.compared ++ (creditOf M mem tail b).toList ∧
    (s.sameSize + ((creditOf M mem tail b).toList.map Compared.addLen).sum < wordSize →
      (cmpWrite M mem tail b s).sameSize =
        s.sameSize + ((creditOf M mem tail b).toList.map Compared.addLen).sum) := by
  unfold cmpWrite creditOf comparedTo
  dsimp only
  cases htf : tfind (byKey M.nameKey b.fileName) M.fileMapNameTreeRoot with
  | none => exact ⟨rfl, (List.append_nil _).symm, fun _ => rfl⟩
  | some x =>
    dsimp only
    by_cases hoff : (M.fileMapTreeNodes x).offset ≤ b.fileOffset
    · rw [if_pos hoff, if_pos hoff]
      generalize wsub (wadd (M.fileMapTreeNodes x).start b.fileOffset)
        (M.fileMapTreeNodes x).offset = f
      have hdiff := diffAfter_eq mem b.startMemory f tail s.diffPos
      have hadd := addLen_eq mem b.startMemory f tail
      rw [hdiff, hadd]
      exact ⟨rfl, rfl, wadd_of_lt⟩
    · rw [if_neg hoff, if_neg hoff]
      exact ⟨rfl, (List.append_nil _).symm, fun _ => rfl⟩

theorem foldl_cmpWrite_passed (V : List TreeRec) (s : Scan) :
    (V.foldl (fun s b => cmpWrite M mem tail b s) s).passed = s.passed ++ V := by
  induction V generalizing s with
  | nil => exact (List.append_nil _).symm
  | cons b V ih => rw [List.foldl_cons, ih, (cmpWrite_spec b s).1, List.append_assoc]; rfl

theorem foldl_cmpWrite_compared (V : List TreeRec) (s : Scan) :
    (V.foldl (fun s b => cmpWrite M mem tail b s) s).compared =
      s.compared ++ V.filterMap (creditOf M mem tail) := by
  induction V generalizing s with
  | nil => exact (List.append_nil _).symm
  | cons b V ih =>
    rw [List.foldl_cons, ih, (cmpWrite_spec b s).2.1, List.append_assoc, List.filterMap_cons]
    cases creditOf M mem tail b with
    | none => rfl
    | some c => rfl

theorem foldl_cmpWrite_sameSize (V : List TreeRec) (s : Scan)
    (h : s.sameSize + ((V.filterMap (creditOf M mem tail)).map Compared.addLen).sum < wordSize) :
    (V.foldl (fun s b => cmpWrite M mem tail b s) s).sameSize =
      s.sameSize + ((V.filterMap (creditOf M mem tail)).map Compared.addLen).sum := by
  induction V generalizing s with
  | nil => rfl
  | cons b V ih =>
    have hsplit : ((b :: V).filterMap (creditOf M mem tail)).map Compared.addLen =
        (creditOf M mem tail b).toList.map Compared.addLen ++
          (V.filterMap (creditOf M mem tail)).map Compared.addLen := by
      rw [List.filterMap_cons]
      cases creditOf M mem tail b with
      | none => rfl
      | some c => rfl
    rw [hsplit, List.sum_append] at h ⊢
    have hstep : (cmpWrite M mem tail b s).sameSize =
        s.sameSize + ((creditOf M mem tail b).toList.map Compared.addLen).sum :=
      (cmpWrite_spec b s).2.2 (by omega)
    rw [List.foldl_cons, ih _ (by omega), hstep, Nat.add_assoc]

end

/-! ## Every record of the buffer -/

/-- The record begins in the buffer. -/
def InBuffer (buf length : ℕ) (b : TreeRec) : Prop :=
  buf ≤ b.startMemory ∧ b.startMemory < buf + length

instance (buf length : ℕ) : DecidablePred (InBuffer buf length) :=
  fun _ => inferInstanceAs (Decidable (_ ∧ _))

/-- Every record that begins in the buffer is passed once, and these records are
passed in the order of their addresses. -/
structure VisitsAll (buf length : ℕ) (t : BinaryTree TreeRec) (passed : List TreeRec) : Prop where
  once : ∀ b ∈ inorder t, InBuffer buf length b → passed.count b = 1
  ascending : (passed.filter (InBuffer buf length)).Pairwise fun a b =>
    a.startMemory < b.startMemory

section

variable {M : FileMaps} {mem : ℕ → UInt8} {t : BinaryTree TreeRec} {buf length : ℕ}

/-- A scan ends, whatever the tree is, and passes what the loop comes to. -/
theorem doTsWrite_eq (M : FileMaps) (mem : ℕ → UInt8) (t : BinaryTree TreeRec)
    (hw : buf + length < wordSize) {fuel : ℕ}
    (hfuel : (scanned t buf (buf + length)).length < fuel) :
    ∃ V W exited, scanned t buf (buf + length) = V ++ W ∧
      (∀ w ∈ W, w.startMemory = buf + length) ∧ doTsWrite M mem fuel t buf length =
        some { V.foldl (fun s b => cmpWrite M mem (buf + length) b s) .start with
          exited := exited } := by
  rw [doTsWrite, wadd_of_lt hw]
  exact writeLoop_eq hw (Nat.le_add_right _ _) hfuel

theorem length_scanned_lt {fuel startMemory tail : ℕ} (hfuel : (inorder t).length < fuel) :
    (scanned t startMemory tail).length < fuel :=
  Nat.lt_of_le_of_lt scanned_sublist.length_le hfuel

/-- A record of the buffer is passed if and only if the loop comes to it. -/
theorem mem_passed_iff {V W : List TreeRec} {b : TreeRec}
    (hVW : scanned t buf (buf + length) = V ++ W) (hW : ∀ w ∈ W, w.startMemory = buf + length)
    (hb : InBuffer buf length b) : b ∈ V ↔ b ∈ scanned t buf (buf + length) := by
  rw [hVW, List.mem_append]
  refine ⟨Or.inl, fun h => h.resolve_right fun hbW => ?_⟩
  have hlt := hb.2
  rw [hW b hbW] at hlt
  exact Nat.lt_irrefl _ hlt

/-- The loop comes to all records of the buffer if each of them is on the way to
its end and none of them begins where another one ends. -/
theorem mem_scanned_iff (ht : Apart startKey tailKey t) (hw : buf + length < wordSize) :
    (∀ b ∈ inorder t, InBuffer buf length b → b ∈ scanned t buf (buf + length)) ↔
      (∀ b ∈ inorder t, InBuffer buf length b → b ∈ onWay startKey (buf + length) t) ∧
      ∀ a ∈ inorder t, ∀ b ∈ inorder t, InBuffer buf length a → InBuffer buf length b →
        a.tailMemory ≠ b.startMemory := by
  constructor
  · intro h
    refine ⟨fun b hb hin => Extents.taken_sublist.subset (h b hb hin), ?_⟩
    intro a ha b hb hain hbin htouch
    have hab : a ≠ b := by
      rintro rfl
      exact absurd a.accepted.1.1 (by omega)
    have : Std.Symm fun x y : TreeRec => x.tailMemory + 1 ≤ y.startMemory ∨
        y.tailMemory + 1 ≤ x.startMemory := ⟨fun _ _ hxy => hxy.symm⟩
    have hpw : (scanned t buf (buf + length)).Pairwise fun x y : TreeRec =>
        x.tailMemory + 1 ≤ y.startMemory ∨ y.tailMemory + 1 ≤ x.startMemory :=
      (pairwise_scanned (by omega)).imp fun hxy => Or.inl hxy
    have hne := a.accepted.1.1
    have hne' := b.accepted.1.1
    rcases hpw.forall (h a ha hain) (h b hb hbin) hab with hle | hle
    · omega
    · omega
  · rintro ⟨hway, htouch⟩ b hb hin
    obtain ⟨pre, post, hsplit⟩ := List.append_of_mem (hway b hb hin)
    have hapart := ht.apart.sublist (onWay_sublist startKey (buf + length) t)
    rw [scanned, hsplit]
    refine Extents.mem_taken_append hin.1 fun x hx hle e he => ?_
    cases he
    have hxt : x ∈ inorder t := (onWay_sublist startKey (buf + length) t).subset
      (hsplit ▸ List.mem_append_left _ hx)
    rw [hsplit, List.pairwise_append] at hapart
    have hxb : x.tailMemory ≤ b.startMemory := hapart.2.2 x hx b (List.mem_cons_self ..)
    have hxne := x.accepted.1.1
    have hxin : InBuffer buf length x := ⟨hle, by have := hin.2; omega⟩
    have hne := htouch x hxt b hb hxin hin
    constructor
    · show x.startMemory ≤ x.tailMemory + 1
      omega
    · show x.tailMemory + 1 ≤ b.startMemory
      omega

/-- A write visits all records of its buffer, each of them once and in order, if
and only if they all are on the way from the root to the end of the buffer, where
the way goes right, and no two of them touch. -/
theorem doTsWrite_visits_iff (M : FileMaps) (mem : ℕ → UInt8) (ht : IntervalSet t)
    (hw : buf + length < wordSize) {fuel : ℕ} (hfuel : (inorder t).length < fuel) :
    (∃ s, doTsWrite M mem fuel t buf length = some s ∧ VisitsAll buf length t s.passed) ↔
      (∀ b ∈ inorder t, InBuffer buf length b → b ∈ onWay startKey (buf + length) t) ∧
      ∀ a ∈ inorder t, ∀ b ∈ inorder t, InBuffer buf length a → InBuffer buf length b →
        a.tailMemory ≠ b.startMemory := by
  obtain ⟨V, W, exited, hVW, hW, hrun⟩ := doTsWrite_eq M mem t hw (length_scanned_lt hfuel)
  have hpassed : (V.foldl (fun s b => cmpWrite M mem (buf + length) b s) .start).passed = V :=
    foldl_cmpWrite_passed V .start
  have hsub : V.Sublist (inorder t) :=
    (List.sublist_append_left V W).trans (hVW ▸ scanned_sublist)
  rw [← mem_scanned_iff (intervalSet_iff.1 ht) hw, hrun]
  constructor
  · rintro ⟨s, hs, hall⟩ b hb hin
    cases hs
    rw [← mem_passed_iff hVW hW hin, ← List.count_pos_iff, ← hpassed, hall.once b hb hin]
    exact Nat.one_pos
  · intro h
    refine ⟨_, rfl, fun b hb hin => ?_, ?_⟩
    · rw [hpassed]
      exact List.count_eq_one_of_mem (ht.sorted.nodup.sublist hsub)
        ((mem_passed_iff hVW hW hin).2 (h b hb hin))
    · rw [hpassed]
      exact (List.Pairwise.sublist hsub ht.sorted).sublist List.filter_sublist

/-- The records at the root of the three and to its right do not touch. -/
theorem doTsWrite_visits_iff_right : ∃ s,
    doTsWrite plainInit.maps plainInit.mem 4 threeRecords 0x6000000010 0x100 = some s ∧
      VisitsAll 0x6000000010 0x100 threeRecords s.passed :=
  (doTsWrite_visits_iff plainInit.maps plainInit.mem intervalSet_threeRecords (by decide)
    (by decide)).2 (by decide)

/-- The record at the root is found before the one to its left. -/
theorem doTsWrite_skips_left : ∃ s,
    doTsWrite plainInit.maps plainInit.mem 4 threeRecords 0x6000000000 0x20 = some s ∧
      ¬ VisitsAll 0x6000000000 0x20 threeRecords s.passed := by
  have hrun : (doTsWrite plainInit.maps plainInit.mem 4 threeRecords 0x6000000000 0x20).any
      fun s => decide (s.passed.count (sixteen 0x6000000000 (by decide)) = 0) := by
    decide +kernel
  obtain ⟨s, hs, hcount⟩ := (Option.any_eq_true _ _).1 hrun
  refine ⟨s, hs, fun hall => ?_⟩
  have honce := hall.once (sixteen 0x6000000000 (by decide)) (by decide) (by decide)
  rw [of_decide_eq_true hcount] at honce
  exact absurd honce (by decide)

/-! ## No byte twice -/

/-- The byte at `a` is credited by a comparison. -/
def Compared.Credits (c : Compared) (a : ℕ) : Prop :=
  c.mrp.startMemory ≤ a ∧ a < c.mrp.startMemory + c.addLen

/-- A write is credited with no more than its length, and with no byte for two records. -/
structure CreditsOnce (length : ℕ) (s : Scan) : Prop where
  increase : s.sameSize ≤ length
  once : s.compared.Pairwise fun c d => ∀ a, ¬ (c.Credits a ∧ d.Credits a)

/-- If both records are compared, the buffer differs from the file of the first at
or before the first byte of the second, or from the file of the second there. -/
def DiffersBetween (M : FileMaps) (mem : ℕ → UInt8) (tail : ℕ) (a b : TreeRec) : Prop :=
  b.startMemory < tail → ∀ f ∈ comparedTo M a, ∀ g ∈ comparedTo M b,
    (∃ i, a.startMemory + i ≤ b.startMemory ∧ mem (a.startMemory + i) ≠ mem (f + i)) ∨
      mem b.startMemory ≠ mem g

/-- No wrap takes place for a record that the loop comes to. -/
theorem creditOf_eq_some {tail : ℕ} (htail : tail < wordSize) {b : TreeRec}
    (hb : b.startMemory ≤ tail) {c : Compared} (hc : creditOf M mem tail b = some c) :
    ∃ f ∈ comparedTo M b, c.mrp = b ∧
      c.addLen = matchEnd mem tail b.startMemory f - b.startMemory ∧
      b.startMemory ≤ matchEnd mem tail b.startMemory f ∧
      matchEnd mem tail b.startMemory f ≤ tail := by
  obtain ⟨f, hf, rfl⟩ := Option.map_eq_some_iff.1 hc
  have ⟨h₁, h₂⟩ : b.startMemory ≤ matchEnd mem tail b.startMemory f ∧
      matchEnd mem tail b.startMemory f ≤ tail := matchEnd_bounds hb htail
  refine ⟨f, hf, rfl, ?_, h₁, h₂⟩
  dsimp only
  rw [Nat.min_eq_right h₂, wsub_of_le h₁ (by omega)]

/-- Two records that are compared share no credited byte exactly if the buffer
differs from a file between their beginnings. -/
theorem credits_iff {tail : ℕ} (htail : tail < wordSize) {a b : TreeRec}
    (hab : a.startMemory < b.startMemory) (hb : b.startMemory ≤ tail) :
    (∀ c ∈ creditOf M mem tail a, ∀ d ∈ creditOf M mem tail b, ∀ x,
      ¬ (c.Credits x ∧ d.Credits x)) ↔ DiffersBetween M mem tail a b := by
  have hpair : ∀ f g, b.startMemory < tail →
      ((∃ i, a.startMemory + i ≤ b.startMemory ∧ mem (a.startMemory + i) ≠ mem (f + i)) ∨
        mem b.startMemory ≠ mem g ↔
      matchEnd mem tail a.startMemory f ≤ b.startMemory ∨
        matchEnd mem tail b.startMemory g ≤ b.startMemory) := by
    intro f g hlt
    rw [matchEnd_le_iff hab.le hlt htail, matchEnd_le_iff (Nat.le_refl _) hlt htail]
    refine or_congr_right ⟨fun hne => ⟨0, Nat.le_refl _, hne⟩, ?_⟩
    rintro ⟨i, hi, hne⟩
    obtain rfl : i = 0 := by omega
    exact hne
  constructor
  · intro h hlt f hf g hg
    rw [hpair f g hlt]
    by_contra hover
    obtain ⟨c, hc⟩ : ∃ c, creditOf M mem tail a = some c :=
      ⟨_, by rw [creditOf, Option.mem_def.1 hf]; rfl⟩
    obtain ⟨d, hd⟩ : ∃ d, creditOf M mem tail b = some d :=
      ⟨_, by rw [creditOf, Option.mem_def.1 hg]; rfl⟩
    obtain ⟨f', hf', hcm, hcl, h₁, h₂⟩ := creditOf_eq_some htail (by omega) hc
    obtain ⟨g', hg', hdm, hdl, h₃, h₄⟩ := creditOf_eq_some htail hb hd
    rw [Option.mem_def] at hf hg hf' hg'
    rw [hf] at hf'
    rw [hg] at hg'
    cases hf'
    cases hg'
    refine h c hc d hd b.startMemory ⟨⟨?_, ?_⟩, ?_, ?_⟩
    · rw [hcm]
      exact hab.le
    · rw [hcm, hcl]
      omega
    · rw [hdm]
    · rw [hdm, hdl]
      omega
  · intro h c hc d hd x
    obtain ⟨f, hf, hcm, hcl, h₁, h₂⟩ := creditOf_eq_some htail (by omega) hc
    obtain ⟨g, hg, hdm, hdl, h₃, h₄⟩ := creditOf_eq_some htail hb hd
    rintro ⟨⟨-, hx⟩, hx', hx''⟩
    rw [hcm, hcl] at hx
    rw [hdm] at hx'
    rw [hdm, hdl] at hx''
    rcases (hpair f g (by omega)).1 (h (by omega) f hf g hg) with hle | hle
    · omega
    · omega

/-- What is credited for records that lie one behind the other is no more than the
buffer, if no byte is credited twice. -/
theorem sum_credits_le {tail : ℕ} (htail : tail < wordSize) (hbuf : buf ≤ tail)
    {V : List TreeRec} (hin : ∀ b ∈ V, buf ≤ b.startMemory ∧ b.startMemory ≤ tail)
    (hasc : V.Pairwise fun a b => a.startMemory < b.startMemory)
    (honce : (V.filterMap (creditOf M mem tail)).Pairwise fun c d =>
      ∀ a, ¬ (c.Credits a ∧ d.Credits a)) :
    buf + ((V.filterMap (creditOf M mem tail)).map Compared.addLen).sum ≤ tail := by
  refine sum_length_le (fun c => c.mrp.startMemory) Compared.addLen hbuf (fun c hc _ => ?_) ?_
  · obtain ⟨b, hb, hc⟩ := List.mem_filterMap.1 hc
    obtain ⟨f, -, hcm, hcl, h₁, h₂⟩ := creditOf_eq_some htail (hin b hb).2 hc
    rw [hcm, hcl]
    have := (hin b hb).1
    omega
  · have hasc' : (V.filterMap (creditOf M mem tail)).Pairwise fun c d =>
        c.mrp.startMemory < d.mrp.startMemory := by
      rw [List.pairwise_filterMap]
      refine hasc.imp_of_mem fun {a b} ha hb hab c hc d hd => ?_
      obtain ⟨-, -, hcm, -, -, -⟩ := creditOf_eq_some htail (hin a ha).2 hc
      obtain ⟨-, -, hdm, -, -, -⟩ := creditOf_eq_some htail (hin b hb).2 hd
      rw [hcm, hdm]
      exact hab
    refine (honce.and hasc').imp ?_
    rintro c d ⟨h, hcd⟩ - hd
    by_contra hlt
    exact h d.mrp.startMemory ⟨⟨hcd.le, by omega⟩, Nat.le_refl _, by omega⟩

/-- A write is credited soundly if and only if, of any two records that the scan
comes to and compares, the buffer differs from one of the files between their
beginnings. -/
theorem doTsWrite_creditsOnce_iff (M : FileMaps) (mem : ℕ → UInt8) (t : BinaryTree TreeRec)
    (hw : buf + length < wordSize) {fuel : ℕ} (hfuel : (inorder t).length < fuel) :
    (∃ s, doTsWrite M mem fuel t buf length = some s ∧ CreditsOnce length s) ↔
      (scanned t buf (buf + length)).Pairwise (DiffersBetween M mem (buf + length)) := by
  obtain ⟨V, W, exited, hVW, hW, hrun⟩ := doTsWrite_eq M mem t hw (length_scanned_lt hfuel)
  have hsub : V.Sublist (scanned t buf (buf + length)) := hVW ▸ List.sublist_append_left V W
  have hin : ∀ b ∈ V, buf ≤ b.startMemory ∧ b.startMemory ≤ buf + length :=
    fun b hb => bounds_of_mem_scanned (by omega) (hsub.subset hb)
  have hasc : V.Pairwise fun a b => a.startMemory < b.startMemory := by
    refine ((pairwise_scanned (by omega)).sublist hsub).imp fun {a b} hab => ?_
    have := a.accepted.1.1
    omega
  have hcompared : (V.foldl (fun s b => cmpWrite M mem (buf + length) b s) .start).compared =
      V.filterMap (creditOf M mem (buf + length)) := by
    rw [foldl_cmpWrite_compared, Scan.start, List.nil_append]
  have honce : (V.filterMap (creditOf M mem (buf + length))).Pairwise
      (fun c d => ∀ a, ¬ (c.Credits a ∧ d.Credits a)) ↔
        V.Pairwise (DiffersBetween M mem (buf + length)) := by
    rw [List.pairwise_filterMap]
    constructor
    · intro h
      refine (hasc.and h).imp_of_mem fun {a b} _ hb hab => ?_
      exact (credits_iff hw hab.1 (hin b hb).2).1 hab.2
    · intro h
      refine (hasc.and h).imp_of_mem fun {a b} _ hb hab => ?_
      exact (credits_iff hw hab.1 (hin b hb).2).2 hab.2
  have hall : (scanned t buf (buf + length)).Pairwise (DiffersBetween M mem (buf + length)) ↔
      V.Pairwise (DiffersBetween M mem (buf + length)) := by
    rw [hVW, List.pairwise_append]
    refine ⟨fun h => h.1, fun h => ⟨h, List.pairwise_of_forall_mem_list ?_, ?_⟩⟩
    · intro a _ b hb hlt
      exact absurd (hW b hb) hlt.ne
    · intro a _ b hb hlt
      exact absurd (hW b hb) hlt.ne
  rw [hrun, hall, ← honce]
  constructor
  · rintro ⟨s, hs, h⟩
    cases hs
    rw [← hcompared]
    exact h.once
  · intro h
    have hsum := sum_credits_le hw (Nat.le_add_right _ _) hin hasc h
    refine ⟨_, rfl, ?_, ?_⟩
    · show (V.foldl (fun s b => cmpWrite M mem (buf + length) b s) .start).sameSize ≤ length
      rw [foldl_cmpWrite_sameSize V .start (by simp only [Scan.start]; omega)]
      simp only [Scan.start]
      omega
    · show (V.foldl (fun s b => cmpWrite M mem (buf + length) b s) .start).compared.Pairwise _
      rw [hcompared]
      exact h

end

/-- A file of zeros, mapped, and a buffer of zeros but for the byte behind the
record at the root. -/
theorem doTsWrite_creditsOnce_iff_differs : ∃ s s',
    plainRun (openAndMap 3 1 100 0x10000 0x1000) = some s ∧
      doTsWrite s.maps (fun a => if a = 0x6000000020 then 1 else 0) 4 threeRecords 0x6000000010
        0x100 = some s' ∧ CreditsOnce 0x100 s' ∧ s'.sameSize = 0x20 := by
  have hrun : (plainRun (openAndMap 3 1 100 0x10000 0x1000)).any fun s => decide (
      comparedTo s.maps (sixteen 0x6000000010 (by decide)) = some 0x10000 ∧
      (doTsWrite s.maps (fun a => if a = 0x6000000020 then 1 else 0) 4 threeRecords 0x6000000010
        0x100).map Scan.sameSize = some 0x20) := by
    decide +kernel
  obtain ⟨s, hs, hall⟩ := (Option.any_eq_true _ _).1 hrun
  obtain ⟨hfile, hsize⟩ := of_decide_eq_true hall
  have hscanned : scanned threeRecords 0x6000000010 (0x6000000010 + 0x100) =
      [sixteen 0x6000000010 (by decide), sixteen 0x6000000100 (by decide)] := by
    decide
  have hdiffers : (scanned threeRecords 0x6000000010 (0x6000000010 + 0x100)).Pairwise
      (DiffersBetween s.maps (fun a => if a = 0x6000000020 then 1 else 0)
        (0x6000000010 + 0x100)) := by
    rw [hscanned]
    refine List.pairwise_pair.2 fun _ f hf g _ => Or.inl ⟨16, by decide, ?_⟩
    rw [Option.mem_def, hfile] at hf
    cases hf
    decide
  obtain ⟨s', hs', hcredit⟩ := (doTsWrite_creditsOnce_iff s.maps
    (fun a => if a = 0x6000000020 then 1 else 0) threeRecords (by decide)
    (show (inorder threeRecords).length < 4 by decide)).2 hdiffers
  rw [hs'] at hsize
  exact ⟨s, s', hs, hs', hcredit, Option.some.inj hsize⟩

/-- When the buffer is all zeros, both comparisons run to its end. -/
theorem doTsWrite_credits_twice : ∃ s s',
    plainRun (openAndMap 3 1 100 0x10000 0x1000) = some s ∧
      doTsWrite s.maps (fun _ => 0) 4 threeRecords 0x6000000010 0x100 = some s' ∧
        ¬ CreditsOnce 0x100 s' ∧ s'.sameSize = 0x110 := by
  have hrun : (plainRun (openAndMap 3 1 100 0x10000 0x1000)).any fun s =>
      (doTsWrite s.maps (fun _ => 0) 4 threeRecords 0x6000000010 0x100).any fun s' =>
        decide (s'.sameSize = 0x110) := by
    decide +kernel
  obtain ⟨s, hs, hwrite⟩ := (Option.any_eq_true _ _).1 hrun
  obtain ⟨s', hs', hsize⟩ := (Option.any_eq_true _ _).1 hwrite
  have hsize := of_decide_eq_true hsize
  refine ⟨s, s', hs, hs', fun hcredit => ?_, hsize⟩
  have hle := hcredit.increase
  rw [hsize] at hle
  exact absurd hle (by decide)

end Cidl.Base
