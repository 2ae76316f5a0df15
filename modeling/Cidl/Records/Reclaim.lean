import Cidl.Records.Order

/-!
# The compaction loop, block by block

Inside a block neither cursor of the reclaimer moves its pointer, so every
iteration over a block of the queue looks at the first slot of that block.  The
loop therefore goes through a block in one of three ways, each with a closed
form: the record is dead (`loop_dead`), it is alive and the two cursors point at
the same slot (`loop_live_same`), or it is alive and they do not
(`loop_live_copy`).

A node of one block is then easy to follow to the end (`compactNode_single`).
-/

namespace Cidl

open SearchTree Shape

namespace RecTree

variable {L : Libc} {T T' : RecTree} {ofa : ℤ → Option ℕ} {p : ℕ}

/-! ## Predecessors in a queue -/

theorem predIn_append {pre post : List ℕ} {e' e : ℕ} (hnd : (pre ++ e' :: e :: post).Nodup) :
    predIn e (pre ++ e' :: e :: post) = some e' := by
  induction pre with
  | nil => simp [predIn]
  | cons a pre ih =>
    have hnd' := (List.nodup_cons.1 hnd).2
    have hne : ∀ b l, pre ++ e' :: e :: post = b :: l → b ≠ e := by
      intro b l hbl hb
      cases pre with
      | nil =>
        cases hbl
        subst hb
        simp at hnd'
      | cons c pre =>
        cases hbl
        subst hb
        simp at hnd'
    obtain ⟨b, l, hbl⟩ : ∃ b l, pre ++ e' :: e :: post = b :: l := by
      cases pre with
      | nil => exact ⟨_, _, rfl⟩
      | cons c pre => exact ⟨_, _, rfl⟩
    rw [List.cons_append, hbl, predIn, if_neg (hne b l hbl), ← hbl]
    exact ih hnd'

theorem predIn_first {e : ℕ} {l : List ℕ} (hnd : (e :: l).Nodup) : predIn e (e :: l) = none := by
  have key : ∀ (a : ℕ) (l : List ℕ), e ∉ l → predIn e (a :: l) = none := by
    intro a l
    induction l generalizing a with
    | nil => intro _; rfl
    | cons b l ih =>
      intro hmem
      rw [List.mem_cons, not_or] at hmem
      rw [predIn, if_neg (Ne.symm hmem.1)]
      exact ih b hmem.2
  exact key e l (List.nodup_cons.1 hnd).1

/-- The predecessor depends on the shape only. -/
theorem tailqPrev_congr (h : T'.shape = T.shape) (e : ℕ) : T'.tailqPrev e = T.tailqPrev e := by
  have hq : T'.tailheads = T.tailheads := congrArg Shape.queues h
  have he : (T'.recBlockEntries e).queue = (T.recBlockEntries e).queue :=
    congrFun (congrArg Shape.queueOf h) e
  rw [tailqPrev, tailqPrev, hq, he]

theorem tailqPrev_eq (ho : Owned L T.shape) (hp : p ∈ T.nodes) {e : ℕ} (he : e ∈ T.blocks p) :
    T.tailqPrev e = predIn e (T.blocks p) := by
  have hq : (T.recBlockEntries e).queue = some (T.recTreeNodes p).listHead := ho.linked p hp e he
  rw [tailqPrev, hq]
  rfl

theorem tailqPrev_first (ho : Owned L T.shape) (hp : p ∈ T.nodes) {e : ℕ} {older : List ℕ}
    (hb : T.blocks p = e :: older) : T.tailqPrev e = none := by
  have hnd := ho.nodup_blocks hp
  rw [tailqPrev_eq ho hp (by simp [hb]), hb]
  rw [show T.shape.blocks p = _ from hb] at hnd
  exact predIn_first hnd

theorem tailqPrev_older (ho : Owned L T.shape) (hp : p ∈ T.nodes) {e' e : ℕ} {pre post : List ℕ}
    (hb : T.blocks p = pre ++ e' :: e :: post) : T.tailqPrev e = some e' := by
  have hnd := ho.nodup_blocks hp
  rw [tailqPrev_eq ho hp (by simp [hb]), hb]
  rw [show T.shape.blocks p = _ from hb] at hnd
  exact predIn_append hnd

/-! ## Steps of the loop -/

/-- A cursor at index `i` of the block `e`. -/
def cursorAt (T : RecTree) (e : ℕ) (i maxIdx : ℤ) : Cursor where
  idx := i
  maxIdx := maxIdx
  ent := some e
  ptr := some (T.recBlockEntries e).recArr

theorem recArr_congr (h : T'.shape = T.shape) (e : ℕ) :
    (T'.recBlockEntries e).recArr = (T.recBlockEntries e).recArr :=
  congrFun (congrArg Shape.recArr h) e

theorem cursorAt_congr (h : T'.shape = T.shape) (e : ℕ) (i maxIdx : ℤ) :
    T'.cursorAt e i maxIdx = T.cursorAt e i maxIdx := by
  rw [cursorAt, cursorAt, recArr_congr h]

theorem nextSlot_inside {e : ℕ} {i maxIdx : ℤ} (h : i < maxIdx) :
    T'.nextSlot p (T.cursorAt e i maxIdx) = some (T.cursorAt e (i + 1) maxIdx) := by
  simp [nextSlot, cursorAt, h]

/-- The cursor behind the last index of a block that has a newer one. -/
theorem nextSlot_leave {e e' : ℕ} {i maxIdx : ℤ} (h : maxIdx ≤ i)
    (hprev : T'.tailqPrev e = some e') :
    T'.nextSlot p (T.cursorAt e i maxIdx) = some (T'.enterBlock p e') := by
  simp [nextSlot, cursorAt, Int.not_lt.2 h, hprev]

/-- The cursor behind the last index of the newest block. -/
theorem nextSlot_end {e : ℕ} {i maxIdx : ℤ} (h : maxIdx ≤ i) (hprev : T'.tailqPrev e = none) :
    T'.nextSlot p (T.cursorAt e i maxIdx) =
      some { idx := i, maxIdx := maxIdx, ent := none, ptr := none } := by
  simp [nextSlot, cursorAt, Int.not_lt.2 h, hprev]

theorem setCursor_setCursor (e : ℕ) (i j : ℤ) :
    (T.setCursor p e i).setCursor p e j = T.setCursor p e j := by
  simp [setCursor, setNode, setEntry, Function.update_idem]

theorem setRec_setRec (a : ℤ) (r r' : MemRec) : (T.setRec a r).setRec a r' = T.setRec a r' := by
  simp [setRec, Function.update_idem]

theorem cursorAt_ptr (e : ℕ) (i maxIdx : ℤ) :
    (T.cursorAt e i maxIdx).ptr = some ((T.recBlockEntries e).recArr : ℤ) := rfl

/-- One iteration on a dead record. -/
theorem loop_dead {e f fuel : ℕ} {i j mk ms : ℤ}
    (hdead : isLive ofa (T.recMem (T.recBlockEntries f).recArr) = false) :
    reclaimLoop ofa p (fuel + 1) (T.cursorAt e i mk) (T.cursorAt f j ms) T =
      ((T.setCursor p e i).nextSlot p (T.cursorAt e i mk)).bind fun keep =>
        ((T.setCursor p e i).nextSlot p (T.cursorAt f j ms)).bind fun search =>
          reclaimLoop ofa p fuel keep search (T.setCursor p e i) := by
  rw [reclaimLoop]
  simp only [cursorAt_ptr, hdead]
  rfl

/-- One iteration on a live record that both cursors point at. -/
theorem loop_live_same {f fuel : ℕ} {keep : Cursor} {j ms : ℤ}
    (hlive : isLive ofa (T.recMem (T.recBlockEntries f).recArr) = true)
    (hkeep : keep.ptr = some ((T.recBlockEntries f).recArr : ℤ)) :
    reclaimLoop ofa p (fuel + 1) keep (T.cursorAt f j ms) T =
      (T.nextSlot p (T.cursorAt f j ms)).bind fun search =>
        reclaimLoop ofa p fuel keep search T := by
  rw [reclaimLoop]
  simp only [cursorAt_ptr, hlive, hkeep, if_true]
  rfl

/-- One iteration on a live record that the cursor to keep does not point at. -/
theorem loop_live_copy {e f fuel : ℕ} {i j mk ms : ℤ}
    (hlive : isLive ofa (T.recMem (T.recBlockEntries f).recArr) = true)
    (hne : (T.recBlockEntries e).recArr ≠ (T.recBlockEntries f).recArr) {U : RecTree}
    (hU : U = T.setRec (T.recBlockEntries e).recArr (T.recMem (T.recBlockEntries f).recArr)) :
    reclaimLoop ofa p (fuel + 1) (T.cursorAt e i mk) (T.cursorAt f j ms) T =
      (U.nextSlot p (T.cursorAt e i mk)).bind fun keep =>
        (U.nextSlot p (T.cursorAt f j ms)).bind fun search =>
          reclaimLoop ofa p fuel keep search U := by
  subst hU
  rw [reclaimLoop]
  simp only [cursorAt_ptr, hlive, if_true]
  refine (if_neg fun heq => ?_).trans rfl
  exact hne (Int.ofNat_inj.1 (Option.some.inj heq))

/-- A whole block whose first record is dead: the cursor of the node ends up at
the index where the cursor to keep was in the last iteration. -/
theorem loop_dead_block {e f : ℕ} {mk : ℤ}
    (hdead : isLive ofa (T.recMem (T.recBlockEntries f).recArr) = false) {n fuel : ℕ} {i j : ℤ}
    {ms : ℤ} (hk : n ≠ 0 → i + n ≤ mk) (hs : n ≠ 0 → j + n ≤ ms) {U : RecTree}
    (hU : U = T.setCursor p e (i + n)) :
    reclaimLoop ofa p (fuel + n + 1) (T.cursorAt e i mk) (T.cursorAt f j ms) T =
      (U.nextSlot p (T.cursorAt e (i + n) mk)).bind fun keep =>
        (U.nextSlot p (T.cursorAt f (j + n) ms)).bind fun search =>
          reclaimLoop ofa p fuel keep search U := by
  induction n generalizing T i j with
  | zero =>
    subst hU
    simp only [Int.natCast_zero, Int.add_zero, Nat.add_zero]
    exact loop_dead hdead
  | succ n ih =>
    have hk' := hk (Nat.succ_ne_zero n)
    have hs' := hs (Nat.succ_ne_zero n)
    push_cast at hk' hs'
    set V := T.setCursor p e i with hV
    have hshape : V.shape = T.shape := shape_setCursor p e i
    have hU' : U = V.setCursor p e (i + 1 + n) := by
      rw [hU, hV, setCursor_setCursor]
      congr 1
      push_cast
      omega
    have hdead' : isLive ofa (V.recMem (V.recBlockEntries f).recArr) = false := by
      rw [recArr_congr hshape]
      exact hdead
    rw [show fuel + (n + 1) + 1 = fuel + n + 1 + 1 by omega, loop_dead hdead, ← hV,
      nextSlot_inside (by omega), nextSlot_inside (by omega), Option.bind_some, Option.bind_some,
      ← cursorAt_congr hshape, ← cursorAt_congr hshape,
      ih hdead' (fun _ => by omega) (fun _ => by omega) hU', cursorAt_congr hshape,
      cursorAt_congr hshape]
    push_cast
    rw [show i + 1 + (n : ℤ) = i + (n + 1) by omega, show j + 1 + (n : ℤ) = j + (n + 1) by omega]

/-- A whole block whose first record is alive and kept where it is. -/
theorem loop_live_same_block {f : ℕ} {keep : Cursor}
    (hlive : isLive ofa (T.recMem (T.recBlockEntries f).recArr) = true)
    (hkeep : keep.ptr = some ((T.recBlockEntries f).recArr : ℤ)) {n fuel : ℕ} {j ms : ℤ}
    (hs : n ≠ 0 → j + n ≤ ms) :
    reclaimLoop ofa p (fuel + n + 1) keep (T.cursorAt f j ms) T =
      (T.nextSlot p (T.cursorAt f (j + n) ms)).bind fun search =>
        reclaimLoop ofa p fuel keep search T := by
  induction n generalizing j with
  | zero =>
    simp only [Int.natCast_zero, Int.add_zero, Nat.add_zero]
    exact loop_live_same hlive hkeep
  | succ n ih =>
    have hs' := hs (Nat.succ_ne_zero n)
    push_cast at hs'
    rw [show fuel + (n + 1) + 1 = fuel + n + 1 + 1 by omega, loop_live_same hlive hkeep,
      nextSlot_inside (by omega), Option.bind_some, ih fun _ => by omega]
    push_cast
    rw [show j + 1 + (n : ℤ) = j + (n + 1) by omega]

/-- A whole block whose first record is alive and copied to the slot to keep. -/
theorem loop_live_copy_block {e f : ℕ} {mk ms : ℤ}
    (hlive : isLive ofa (T.recMem (T.recBlockEntries f).recArr) = true)
    (hne : (T.recBlockEntries e).recArr ≠ (T.recBlockEntries f).recArr) {n fuel : ℕ} {i j : ℤ}
    (hk : n ≠ 0 → i + n ≤ mk) (hs : n ≠ 0 → j + n ≤ ms) {U : RecTree}
    (hU : U = T.setRec (T.recBlockEntries e).recArr (T.recMem (T.recBlockEntries f).recArr)) :
    reclaimLoop ofa p (fuel + n + 1) (T.cursorAt e i mk) (T.cursorAt f j ms) T =
      (U.nextSlot p (T.cursorAt e (i + n) mk)).bind fun keep =>
        (U.nextSlot p (T.cursorAt f (j + n) ms)).bind fun search =>
          reclaimLoop ofa p fuel keep search U := by
  induction n generalizing T i j with
  | zero =>
    simp only [Int.natCast_zero, Int.add_zero, Nat.add_zero]
    exact loop_live_copy hlive hne hU
  | succ n ih =>
    have hk' := hk (Nat.succ_ne_zero n)
    have hs' := hs (Nat.succ_ne_zero n)
    push_cast at hk' hs'
    -- the copy does not touch the slot that is searched
    have hsame : U.recMem (T.recBlockEntries f).recArr = T.recMem (T.recBlockEntries f).recArr := by
      rw [hU]
      exact Function.update_of_ne (fun h => hne (Int.ofNat_inj.1 h.symm)) _ _
    have hent : U.recBlockEntries = T.recBlockEntries := by rw [hU]; rfl
    have hU' : U = U.setRec (U.recBlockEntries e).recArr
      (U.recMem (U.recBlockEntries f).recArr) := by
      rw [hent, hsame]
      conv_rhs => rw [hU, setRec_setRec]
      exact hU
    have hcur : ∀ g i m, U.cursorAt g i m = T.cursorAt g i m := by
      intro g i m
      rw [cursorAt, cursorAt, hent]
    rw [show fuel + (n + 1) + 1 = fuel + n + 1 + 1 by omega, loop_live_copy hlive hne hU,
      nextSlot_inside (by omega), nextSlot_inside (by omega), Option.bind_some, Option.bind_some,
      ← hcur, ← hcur, ih (by rw [hent, hsame]; exact hlive) (by rw [hent]; exact hne)
        (fun _ => by omega) (fun _ => by omega) hU', hcur, hcur]
    push_cast
    rw [show i + 1 + (n : ℤ) = i + (n + 1) by omega, show j + 1 + (n : ℤ) = j + (n + 1) by omega]

/-- The loop is over when the searching pointer is null. -/
theorem loop_end {fuel : ℕ} {keep search : Cursor} (h : search.ptr = none) :
    reclaimLoop ofa p fuel keep search T = some T := by
  cases fuel with
  | zero => rw [reclaimLoop, h]; rfl
  | succ fuel => rw [reclaimLoop, h]

theorem enterBlock_older {e e' : ℕ} (h : T.tailqPrev e = some e') :
    T.enterBlock p e = T.cursorAt e 0 (memRecPerEntry - 1) := by
  simp [enterBlock, maxIdxOf, cursorAt, h]

theorem enterBlock_newest {e : ℕ} (h : T.tailqPrev e = none) :
    T.enterBlock p e = T.cursorAt e 0 ((T.recTreeNodes p).memRecIdx - 1) := by
  simp [enterBlock, maxIdxOf, cursorAt, h]

/-! ## A node of one block -/

/-- The record in the first slot of a block. -/
abbrev firstRec (T : RecTree) (e : ℕ) : MemRec := T.recMem (T.recBlockEntries e).recArr

theorem Tidy.cur_eq (hn : Tidy T p) {e : ℕ} {older : List ℕ} (hb : T.blocks p = e :: older) :
    (T.recTreeNodes p).recModEntry = e := by
  have := hn.first
  rw [hb] at this
  exact (Option.some.inj this).symm

theorem NodeInv.cur_eq (hn : NodeInv T p) {e : ℕ} {older : List ℕ}
    (hb : T.blocks p = e :: older) : (T.recTreeNodes p).recModEntry = e := hn.tidy.cur_eq hb

variable (ofa) in
/-- The loop over a node with one block and a record in it: when the first record
is alive nothing changes, otherwise the cursor of the node moves back by one. -/
theorem loop_single (ho : Owned L T.shape) (hp : p ∈ T.nodes) (hn : Tidy T p) {e : ℕ}
    (hb : T.blocks p = [e]) (hpos : 0 < (T.recTreeNodes p).memRecIdx) :
    reclaimLoop ofa p ((T.blocks p).length * 32768) (T.enterBlock p e) (T.enterBlock p e) T =
      some (if isLive ofa (T.firstRec e) then T
        else T.setCursor p e ((T.recTreeNodes p).memRecIdx - 1)) := by
  have hprev : T.tailqPrev e = none := tailqPrev_first ho hp hb
  obtain ⟨n, hidx⟩ : ∃ n : ℕ, (T.recTreeNodes p).memRecIdx = (n : ℤ) + 1 :=
    ⟨((T.recTreeNodes p).memRecIdx - 1).toNat, by omega⟩
  have hn38 : n + 1 ≤ 38 := by
    have : (T.recTreeNodes p).memRecIdx ≤ 38 := hn.idx_le
    omega
  have hstart : T.enterBlock p e = T.cursorAt e 0 n := by
    rw [enterBlock_newest hprev, hidx]
    congr 1
    omega
  have hfuel : (T.blocks p).length * 32768 = (32768 - (n + 1)) + n + 1 := by
    rw [hb, List.length_singleton]
    omega
  rw [hstart, hfuel]
  by_cases hlive : isLive ofa (T.firstRec e)
  · rw [loop_live_same_block hlive (T.cursorAt_ptr e 0 n) (fun _ => by omega),
      nextSlot_end (by omega) hprev, Option.bind_some, loop_end rfl, if_pos hlive]
  · have hshape : (T.setCursor p e (0 + n)).shape = T.shape := shape_setCursor p e _
    have hprev' : (T.setCursor p e (0 + n)).tailqPrev e = none := by
      rw [tailqPrev_congr hshape, hprev]
    rw [loop_dead_block (by simpa using hlive) (fun _ => by omega) (fun _ => by omega) rfl,
      nextSlot_end (by omega) hprev', Option.bind_some, Option.bind_some, loop_end rfl,
      if_neg hlive, hidx]
    congr 2
    omega

/-- Such a node is compacted by the loop alone. -/
theorem compactNode_single (ho : Owned L T.shape) (hp : p ∈ T.nodes) (hn : Tidy T p) {e : ℕ}
    (hb : T.blocks p = [e]) (hpos : 0 < (T.recTreeNodes p).memRecIdx) :
    compactNode ofa p T = some (if isLive ofa (T.firstRec e) then T
      else T.setCursor p e ((T.recTreeNodes p).memRecIdx - 1)) := by
  have hq : T.tailheads (T.recTreeNodes p).listHead = [e] := hb
  simp only [compactNode, tailqLast, Option.bind_eq_bind]
  rw [hq, List.getLast?_singleton, Option.bind_some, ← hb, loop_single _ ho hp hn hb hpos,
    Option.bind_some]
  split
  · rw [hq, hn.cur_eq hb, withdrawUntil, if_pos rfl]
  · rw [setCursor_node, show (T.setCursor p e _).tailheads = T.tailheads from rfl, hq,
      withdrawUntil, if_pos rfl]

end RecTree

end Cidl
