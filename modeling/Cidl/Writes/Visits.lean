import Cidl.Lib.Frontier
import Cidl.Model.Api
import Cidl.Records.Order

/-!
# What a write scan does with the records

Both scanners go over the valid records of the pages of a buffer in the order of
their addresses.  The records with their pages are the items of a scan in the
sense of `Extents`: an item begins at the record's address, and `cmpWrite` moves
`diffPos`, the frontier, to where the buffer begins to differ from the file.

* `cmpWrite_eq` — what `cmpWrite` does, whatever routine compares.
* `scanPage_eq` — the loops over the blocks and slots of a page are one pass over
  its records.
* `foldl_visit_eq` — that pass calls `cmpWrite` for the items that are taken.
-/

namespace Cidl

open SearchTree RecTree

/-! ## One record -/

/-- Where a mapping shows what a record was made from, if `cmpWrite` compares the
record with it. -/
def comparedTo (M : FileMaps) (mrp : MemRec) : Option ℕ :=
  match tfind (byKey M.nameKey mrp.fileName) M.fileMapNameTreeRoot with
  | none => none
  | some x =>
    let fmTarNode := M.fileMapTreeNodes x
    if fmTarNode.offset ≤ mrp.fileOffset then
      some (wsub (wadd fmTarNode.start mrp.fileOffset) fmTarNode.offset)
    else none

section

variable (cmp : Comparator) (M : FileMaps) (mem : ℕ → UInt8) (tail : ℕ)

/-- The records of a scan, each with its page.  A comparison moves `diffPos` to
where the routine says that the ranges differ, and else to the end of the buffer. -/
def writeExtents : Extents (ℕ × MemRec) where
  start x := getAddr x.1 x.2.pageOffset
  stop x := (comparedTo M x.2).map fun f =>
    let a := getAddr x.1 x.2.pageOffset
    (cmp mem a f (wsub tail a)).getD tail

/-- `cmpWrite`, by what it compares. -/
def Scan.pass (s : Scan) (x : ℕ × MemRec) : Scan :=
  let bufCmpStart := (writeExtents cmp M mem tail).start x
  let s := { s with passed := s.passed ++ [(x.2, bufCmpStart)] }
  match (writeExtents cmp M mem tail).stop x with
  | none => s
  | some diffPos =>
    let addLen := wsub (min tail diffPos) bufCmpStart
    { s with
      diffPos := diffPos
      metadataItem := wadd s.metadataItem 1
      sameSize := wadd s.sameSize addLen
      compared := s.compared ++
        [⟨x.2, bufCmpStart, wsub tail bufCmpStart, addLen, diffPos⟩] }

end

section

variable {cmp : Comparator} {M : FileMaps} {mem : ℕ → UInt8} {tail : ℕ}

/-- What `cmpWrite` adds is what lies before the end of the comparison. -/
theorem addLen_eq (tail a : ℕ) (cmpRet : Option ℕ) :
    (if cmpRet.isSome then wsub (min tail (cmpRet.getD tail)) a else wsub tail a) =
      wsub (min tail (cmpRet.getD tail)) a := by
  cases cmpRet with
  | none => simp
  | some d => rfl

theorem cmpWrite_eq (x : ℕ × MemRec) (s : Scan) :
    cmpWrite cmp M mem tail x.2 (getAddr x.1 x.2.pageOffset) s = s.pass cmp M mem tail x := by
  unfold cmpWrite Scan.pass writeExtents comparedTo
  dsimp only
  cases tfind (byKey M.nameKey x.2.fileName) M.fileMapNameTreeRoot with
  | none => rfl
  | some n =>
    dsimp only
    split
    · rw [Option.map_some, addLen_eq]
    · rfl

/-! ## A routine that finds the first difference -/

/-- Where the buffer from `a` on begins to differ from what is at `f`, and `tail`
if it does not up to there. -/
def matchEnd (mem : ℕ → UInt8) (tail a f : ℕ) : ℕ :=
  ((List.range (wsub tail a)).find? fun i => decide (mem (a + i) ≠ mem (f + i))).elim tail (a + ·)

theorem matchEnd_of_equal {a f : ℕ} (h : ∀ i < wsub tail a, mem (a + i) = mem (f + i)) :
    matchEnd mem tail a f = tail := by
  have hnone : (List.range (wsub tail a)).find? (fun i => decide (mem (a + i) ≠ mem (f + i))) =
      none := by
    rw [List.find?_eq_none]
    intro i hi
    simpa using h i (List.mem_range.1 hi)
  rw [matchEnd, hnone]
  rfl

theorem matchEnd_of_first {a f i : ℕ} (hi : i < wsub tail a) (hne : mem (a + i) ≠ mem (f + i))
    (hbelow : ∀ j < i, mem (a + j) = mem (f + j)) : matchEnd mem tail a f = a + i := by
  have hsome : (List.range (wsub tail a)).find? (fun i => decide (mem (a + i) ≠ mem (f + i))) =
      some i := by
    rw [List.find?_range_eq_some]
    refine ⟨decide_eq_true hne, List.mem_range.2 hi, fun j hj => ?_⟩
    simpa using hbelow j hj
  rw [matchEnd, hsome]
  rfl

theorem matchEnd_bounds {a f : ℕ} (ha : a ≤ tail) (ht : tail < wordSize) :
    a ≤ matchEnd mem tail a f ∧ matchEnd mem tail a f ≤ tail := by
  unfold matchEnd
  cases hfind : (List.range (wsub tail a)).find? fun i => decide (mem (a + i) ≠ mem (f + i)) with
  | none => exact ⟨ha, Nat.le_refl _⟩
  | some i =>
    have hi := List.mem_range.1 (List.mem_of_find?_eq_some hfind)
    rw [wsub_of_le ha ht] at hi
    simp only [Option.elim_some]
    omega

/-- The comparison stops at or before `x` if there is a difference up to there. -/
theorem matchEnd_le_iff {a f x : ℕ} (ha : a ≤ x) (hx : x < tail) (ht : tail < wordSize) :
    matchEnd mem tail a f ≤ x ↔ ∃ i, a + i ≤ x ∧ mem (a + i) ≠ mem (f + i) := by
  have hlen : wsub tail a = tail - a := wsub_of_le (by omega) ht
  unfold matchEnd
  cases hfind : (List.range (wsub tail a)).find? fun i => decide (mem (a + i) ≠ mem (f + i)) with
  | none =>
    refine iff_of_false (Nat.not_le.2 hx) ?_
    rintro ⟨i, hi, hne⟩
    have hall := List.find?_eq_none.1 hfind i (List.mem_range.2 (by omega))
    exact hall (decide_eq_true hne)
  | some i =>
    obtain ⟨hne, -, hbelow⟩ := List.find?_range_eq_some.1 hfind
    rw [Option.elim_some]
    constructor
    · exact fun hle => ⟨i, hle, of_decide_eq_true hne⟩
    · rintro ⟨j, hj, hne'⟩
      by_contra hlt
      have hji := hbelow j (by omega)
      simp [hne'] at hji

/-- Every routine that keeps the promise finds the same difference. -/
theorem FindsFirst.getD_eq (hcmp : FindsFirst cmp) (mem : ℕ → UInt8) (a f tail : ℕ) :
    (cmp mem a f (wsub tail a)).getD tail = matchEnd mem tail a f := by
  cases hd : cmp mem a f (wsub tail a) with
  | none => rw [matchEnd_of_equal ((hcmp.equal mem a f _).1 hd), Option.getD_none]
  | some d =>
    obtain ⟨i, hi, rfl, hne, hbelow⟩ := hcmp.first mem a f _ d hd
    rw [matchEnd_of_first hi hne hbelow, Option.getD_some]

theorem FindsFirst.stop_eq (hcmp : FindsFirst cmp) (x : ℕ × MemRec) :
    (writeExtents cmp M mem tail).stop x =
      (comparedTo M x.2).map (matchEnd mem tail (getAddr x.1 x.2.pageOffset)) := by
  simp only [writeExtents, hcmp.getD_eq]

/-! ## The records of a page -/

/-- The body of the innermost loop for one record: those below `low` are skipped
before the loop, and a scan may end a block behind `tail`. -/
def visit (cmp : Comparator) (M : FileMaps) (mem : ℕ → UInt8) (tail : ℕ) (stopAtTail : Bool)
    (low : ℕ) (s : Scan) (x : ℕ × MemRec) : Scan :=
  let a := (writeExtents cmp M mem tail).start x
  if a < low ∨ a < s.diffPos ∨ (stopAtTail ∧ tail < a) then s else s.pass cmp M mem tail x

/-- The items of a page for a list of records. -/
def itemsOf (page : ℕ) (rs : List MemRec) : List (ℕ × MemRec) := rs.map (page, ·)

variable {T : RecTree} {L : Libc} {p page : ℕ} {stopAtTail : Bool}

theorem visit_skip {low : ℕ} {s : Scan} {x : ℕ × MemRec}
    (h : (writeExtents cmp M mem tail).start x < low ∨
      (writeExtents cmp M mem tail).start x < s.diffPos ∨
      (stopAtTail ∧ tail < (writeExtents cmp M mem tail).start x)) :
    visit cmp M mem tail stopAtTail low s x = s := if_pos h

theorem visit_pass {low : ℕ} {s : Scan} {x : ℕ × MemRec}
    (h : ¬ ((writeExtents cmp M mem tail).start x < low ∨
      (writeExtents cmp M mem tail).start x < s.diffPos ∨
      (stopAtTail ∧ tail < (writeExtents cmp M mem tail).start x))) :
    visit cmp M mem tail stopAtTail low s x = s.pass cmp M mem tail x := if_neg h

theorem foldl_visit_skip {low : ℕ} {s : Scan} {l : List (ℕ × MemRec)}
    (h : ∀ x ∈ l, (writeExtents cmp M mem tail).start x < low ∨
      (writeExtents cmp M mem tail).start x < s.diffPos ∨
      (stopAtTail ∧ tail < (writeExtents cmp M mem tail).start x)) :
    l.foldl (visit cmp M mem tail stopAtTail low) s = s := by
  induction l with
  | nil => rfl
  | cons x l ih =>
    rw [List.foldl_cons, visit_skip (h x (List.mem_cons_self ..))]
    exact ih fun y hy => h y (List.mem_cons_of_mem _ hy)

/-- The loop over the slots of a block, which ends at the first record behind
`tail`, as a pass over all of them. -/
theorem scanRecs_eq {arr : ℕ} {is : List ℕ} {s : Scan}
    (hasc : is.Pairwise fun i j : ℕ =>
      getAddr page (T.slot arr i).pageOffset < getAddr page (T.slot arr j).pageOffset) :
    scanRecs cmp M mem stopAtTail T tail page arr is s =
      (itemsOf page (is.map fun i : ℕ => T.slot arr i)).foldl
        (visit cmp M mem tail stopAtTail 0) s := by
  induction is generalizing s with
  | nil => rfl
  | cons i is ih =>
    obtain ⟨hi, hrest⟩ := List.pairwise_cons.1 hasc
    rw [scanRecs, itemsOf, List.map_cons, List.map_cons, List.foldl_cons]
    split
    · rename_i hbelow
      have hx : (writeExtents cmp M mem tail).start (page, T.slot arr i) < s.diffPos := hbelow
      rw [ih hrest, visit_skip (Or.inr (Or.inl hx))]
      rfl
    · rename_i hbelow
      split
      · rename_i hbeyond
        have hx : stopAtTail ∧ tail < (writeExtents cmp M mem tail).start (page, T.slot arr i) :=
          hbeyond
        rw [visit_skip (Or.inr (Or.inr hx))]
        refine (foldl_visit_skip fun x hx => Or.inr (Or.inr ⟨hbeyond.1, ?_⟩)).symm
        obtain ⟨r, hr, rfl⟩ := List.mem_map.1 hx
        obtain ⟨j, hj, rfl⟩ := List.mem_map.1 hr
        exact Nat.lt_trans hbeyond.2 (hi j hj)
      · rename_i hbeyond
        rw [ih hrest, visit_pass, ← cmpWrite_eq]
        · rfl
        · rintro (h | h | h)
          · exact absurd h (Nat.not_lt_zero _)
          · exact hbelow h
          · exact hbeyond h

/-- The slots that a block skips at its beginning lie below the bound, and the
others do not. -/
theorem skipBelow_spec (bound : ℕ) {arr idx : ℕ}
    (hasc : (List.range idx).Pairwise fun i j : ℕ =>
      getAddr page (T.slot arr i).pageOffset < getAddr page (T.slot arr j).pageOffset) :
    skipBelow T page arr bound idx ≤ idx ∧
      ∀ i < idx, getAddr page (T.slot arr i).pageOffset < bound ↔
        i < skipBelow T page arr bound idx := by
  unfold skipBelow
  cases hfind : (List.range idx).find? fun i : ℕ =>
      decide (bound ≤ getAddr page (T.slot arr i).pageOffset) with
  | none =>
    rw [List.find?_eq_none] at hfind
    refine ⟨Nat.le_refl _, fun i hi => ⟨fun _ => hi, fun _ => ?_⟩⟩
    have := hfind i (List.mem_range.2 hi)
    simpa using this
  | some k =>
    obtain ⟨hk, hmem, hbelow⟩ := List.find?_range_eq_some.1 hfind
    have hmem := List.mem_range.1 hmem
    rw [decide_eq_true_eq] at hk
    refine ⟨hmem.le, fun i hi => ⟨fun hlt => ?_, fun hlt => ?_⟩⟩
    · by_contra hge
      rcases Nat.lt_or_eq_of_le (Nat.not_lt.1 hge) with hki | hki
      · have := List.pairwise_iff_getElem.1 hasc k i (by simpa using hmem) (by simpa using hi) hki
        simp only [List.getElem_range] at this
        omega
      · simp only [Option.getD_some] at hki
        subst hki
        omega
    · have := hbelow i hlt
      simpa using this

theorem foldl_visit_low {low : ℕ} {s : Scan} {l : List (ℕ × MemRec)}
    (h : ∀ x ∈ l, low ≤ (writeExtents cmp M mem tail).start x) :
    l.foldl (visit cmp M mem tail stopAtTail low) s =
      l.foldl (visit cmp M mem tail stopAtTail 0) s := by
  induction l generalizing s with
  | nil => rfl
  | cons x l ih =>
    have hx : visit cmp M mem tail stopAtTail low s x = visit cmp M mem tail stopAtTail 0 s x := by
      have := h x (List.mem_cons_self ..)
      simp only [visit, Nat.not_lt.2 this, Nat.not_lt_zero, false_or]
    rw [List.foldl_cons, List.foldl_cons, hx]
    exact ih fun y hy => h y (List.mem_cons_of_mem _ hy)

/-- One block is a pass over its valid records. -/
theorem scanBlock_eq {skipTo : Option ℕ} {s : Scan} {e : ℕ}
    (hasc : (T.blockRecs e (scanLimit T p e)).Pairwise fun a b =>
      getAddr page a.pageOffset < getAddr page b.pageOffset) :
    scanBlock cmp M mem stopAtTail skipTo T tail page p s e =
      (itemsOf page (T.blockRecs e (scanLimit T p e))).foldl
        (visit cmp M mem tail stopAtTail (skipTo.getD 0)) s := by
  have hslots := List.pairwise_map.1 hasc
  obtain ⟨hle, hskip⟩ := skipBelow_spec (skipTo.getD s.diffPos) hslots
  rw [scanBlock]
  generalize scanLimit T p e = idx at *
  generalize skipBelow T page (T.recBlockEntries e).recArr (skipTo.getD s.diffPos) idx = k at *
  have hrange : List.range idx = List.range k ++ List.range' k (idx - k) := by
    have happ := List.range'_append_1 (s := 0) (m := k) (n := idx - k)
    rw [Nat.zero_add, ← List.range_eq_range', ← List.range_eq_range',
      Nat.add_sub_cancel' hle] at happ
    exact happ.symm
  have hsub : List.Sublist (List.range' k (idx - k)) (List.range idx) := by
    rw [hrange]
    exact List.sublist_append_right _ _
  have hsplit : itemsOf page (T.blockRecs e idx) =
      itemsOf page ((List.range k).map fun i : ℕ => T.slot (T.recBlockEntries e).recArr i) ++
        itemsOf page ((List.range' k (idx - k)).map fun i : ℕ =>
          T.slot (T.recBlockEntries e).recArr i) := by
    rw [itemsOf, itemsOf, itemsOf, ← List.map_append, ← List.map_append, ← hrange]
    rfl
  have hbelow : (itemsOf page ((List.range k).map fun i : ℕ =>
      T.slot (T.recBlockEntries e).recArr i)).foldl
        (visit cmp M mem tail stopAtTail (skipTo.getD 0)) s = s := by
    refine foldl_visit_skip fun x hx => ?_
    obtain ⟨r, hr, rfl⟩ := List.mem_map.1 hx
    obtain ⟨i, hi, rfl⟩ := List.mem_map.1 hr
    have hi := List.mem_range.1 hi
    have hlt := (hskip i (by omega)).2 hi
    cases skipTo with
    | none => exact Or.inr (Or.inl hlt)
    | some b => exact Or.inl hlt
  rw [hsplit, List.foldl_append, hbelow, scanRecs_eq (hslots.sublist hsub)]
  refine (foldl_visit_low fun x hx => ?_).symm
  obtain ⟨r, hr, rfl⟩ := List.mem_map.1 hx
  obtain ⟨i, hi, rfl⟩ := List.mem_map.1 hr
  have hi := List.mem_range'_1.1 hi
  have hnot := (hskip i (by omega)).not.2 (by omega)
  cases skipTo with
  | none => exact Nat.zero_le _
  | some b => exact Nat.not_lt.1 hnot

/-- The valid records of some blocks of a page as items. -/
def blockItems (T : RecTree) (page p : ℕ) (es : List ℕ) : List (ℕ × MemRec) :=
  itemsOf page (es.flatMap fun e => T.blockRecs e (scanLimit T p e))

/-- Several blocks are a pass over their valid records. -/
theorem foldl_scanBlock {skipTo : Option ℕ} {s : Scan} {es : List ℕ}
    (hasc : ∀ e ∈ es, (T.blockRecs e (scanLimit T p e)).Pairwise fun a b =>
      getAddr page a.pageOffset < getAddr page b.pageOffset) :
    es.foldl (scanBlock cmp M mem stopAtTail skipTo T tail page p) s =
      (blockItems T page p es).foldl (visit cmp M mem tail stopAtTail (skipTo.getD 0)) s := by
  rw [blockItems, itemsOf, List.map_flatMap, List.foldl_flatMap]
  exact List.foldl_ext _ _ _ fun s e he => scanBlock_eq (hasc e he)

/-- The valid records of a node, block by block as the scans limit them. -/
theorem records_eq_scan (h : NodeInv T p) (hnd : (T.blocks p).Nodup) :
    T.records p = (T.blocks p).reverse.flatMap fun e => T.blockRecs e (scanLimit T p e) := by
  obtain ⟨older, hb⟩ := h.blocks_eq
  rw [show T.blocks p = _ from hb] at hnd
  have hne := (List.nodup_cons.1 hnd).1
  rw [RecTree.records, show T.blocks p = _ from hb, recordsOf, List.reverse_cons,
    List.flatMap_append, List.flatMap_singleton, scanLimit, if_pos rfl]
  congr 1
  refine List.flatMap_congr fun e he => ?_
  have hne : (T.recTreeNodes p).recModEntry ≠ e := fun heq => hne (heq ▸ List.mem_reverse.1 he)
  rw [scanLimit, if_neg hne]

/-- The valid records of a block ascend. -/
theorem blockRecs_ascending (h : NodeInv T p) (hw : (page + 1) * pageSize ≤ wordSize)
    (hnd : (T.blocks p).Nodup) {e : ℕ} (he : e ∈ T.blocks p) :
    (T.blockRecs e (scanLimit T p e)).Pairwise fun a b =>
      getAddr page a.pageOffset < getAddr page b.pageOffset := by
  have hasc := addr_ascending h hw
  rw [records_eq_scan h hnd] at hasc
  exact (List.pairwise_flatMap.1 hasc).1 e (List.mem_reverse.2 he)

/-- The records of a page as items. -/
def pageItems (T : RecTree) (page : ℕ) : List (ℕ × MemRec) :=
  match T.findNode page with
  | none => []
  | some p => itemsOf page (T.records p)

/-- What a scan does with a page that it does not pass over. -/
theorem scanPage_eq (cmp : Comparator) (hrep : Rep L T)
    (hw : (page + 1) * pageSize ≤ wordSize) {skipTo : Option ℕ} {pageEnd : ℤ} {buf length : ℕ}
    {s : Scan} (hskip : ¬ getAddr page pageEnd < s.diffPos) :
    scanPage cmp M mem stopAtTail skipTo pageEnd T buf length tail s page =
      match T.findNode page with
      | none => { s with notFoundSize := addInt s.notFoundSize (notFoundLen buf length page) }
      | some _ => (pageItems T page).foldl (visit cmp M mem tail stopAtTail (skipTo.getD 0)) s := by
  rw [scanPage, if_neg hskip, pageItems]
  cases hp : T.findNode page with
  | none => rfl
  | some p =>
    have hpn := mem_nodes_of_findNode hp
    have h := hrep.node p hpn
    have hnd := hrep.owned.nodup_blocks hpn
    dsimp only
    rw [records_eq_scan h hnd]
    exact foldl_scanBlock fun e he => blockRecs_ascending h hw hnd (List.mem_reverse.1 he)

/-! ## A pass over records -/

@[simp] theorem Scan.pass_diffPos (s : Scan) (x : ℕ × MemRec) :
    (s.pass cmp M mem tail x).diffPos = ((writeExtents cmp M mem tail).stop x).getD s.diffPos := by
  unfold Scan.pass
  dsimp only
  cases (writeExtents cmp M mem tail).stop x <;> rfl

/-- A scan calls `cmpWrite` for the records that are taken. -/
theorem foldl_visit_eq (cmp : Comparator) (stopAtTail : Bool) (mem : ℕ → UInt8) (tail : ℕ)
    {low : ℕ} {s : Scan} {l : List (ℕ × MemRec)}
    (htail : stopAtTail → ∀ x ∈ l, (writeExtents cmp M mem tail).start x ≤ tail)
    (hlow : ∀ x ∈ l, low ≤ (writeExtents cmp M mem tail).start x →
      ∀ e ∈ (writeExtents cmp M mem tail).stop x, low ≤ e) :
    l.foldl (visit cmp M mem tail stopAtTail low) s =
      ((writeExtents cmp M mem tail).taken (max low s.diffPos) l).foldl
        (Scan.pass cmp M mem tail) s := by
  induction l generalizing s with
  | nil => rfl
  | cons x l ih =>
    have ih := fun s => ih (s := s) (fun h y hy => htail h y (List.mem_cons_of_mem _ hy))
      fun y hy => hlow y (List.mem_cons_of_mem _ hy)
    rw [List.foldl_cons, Extents.taken]
    split
    · rename_i hx
      rw [visit_skip, ih]
      omega
    · rename_i hx
      rw [visit_pass, ih, List.foldl_cons, Scan.pass_diffPos]
      · cases hs : (writeExtents cmp M mem tail).stop x with
        | none => rfl
        | some e =>
          have := hlow x (List.mem_cons_self ..) (by omega) e hs
          rw [Option.getD_some, Option.getD_some, Nat.max_eq_right this]
      · rintro (h | h | ⟨h, hlt⟩)
        · omega
        · omega
        · have := htail h x (List.mem_cons_self ..)
          omega

/-- A scan but for the count of what is not found. -/
def Scan.forget (s : Scan) : Scan := { s with notFoundSize := 0 }

theorem Scan.forget_count (s : Scan) (k : ℕ) : { s with notFoundSize := k }.forget = s.forget := rfl

@[simp] theorem Scan.pass_forget (s : Scan) (x : ℕ × MemRec) :
    (s.pass cmp M mem tail x).forget = s.forget.pass cmp M mem tail x := by
  unfold Scan.pass Scan.forget
  dsimp only
  cases (writeExtents cmp M mem tail).stop x <;> rfl

theorem foldl_pass_forget (s : Scan) (l : List (ℕ × MemRec)) :
    (l.foldl (Scan.pass cmp M mem tail) s).forget =
      l.foldl (Scan.pass cmp M mem tail) s.forget := by
  induction l generalizing s with
  | nil => rfl
  | cons x l ih => rw [List.foldl_cons, List.foldl_cons, ih, Scan.pass_forget]

theorem visit_forget {low : ℕ} (s : Scan) (x : ℕ × MemRec) :
    (visit cmp M mem tail stopAtTail low s x).forget =
      visit cmp M mem tail stopAtTail low s.forget x := by
  rw [visit, visit]
  split
  · rename_i h
    exact (if_pos h).symm
  · rename_i h
    rw [Scan.pass_forget]
    exact (if_neg h).symm

theorem foldl_visit_forget {low : ℕ} (s : Scan) (l : List (ℕ × MemRec)) :
    (l.foldl (visit cmp M mem tail stopAtTail low) s).forget =
      l.foldl (visit cmp M mem tail stopAtTail low) s.forget := by
  induction l generalizing s with
  | nil => rfl
  | cons x l ih => rw [List.foldl_cons, List.foldl_cons, ih, visit_forget]

/-! ## `do_ts_write` -/

/-- The records of a page ascend. -/
theorem pageItems_ascending (hrep : Rep L T) (hw : (page + 1) * pageSize ≤ wordSize) :
    (pageItems T page).Pairwise fun x y =>
      getAddr x.1 x.2.pageOffset < getAddr y.1 y.2.pageOffset := by
  unfold pageItems
  split
  · exact List.Pairwise.nil
  · rename_i p hp
    exact List.pairwise_map.2 (addr_ascending (hrep.node p (mem_nodes_of_findNode hp)) hw)

/-- The records of a page lie on it. -/
theorem pageItems_bounds (hrep : Rep L T) (hw : (page + 1) * pageSize ≤ wordSize)
    {x : ℕ × MemRec} (hx : x ∈ pageItems T page) :
    page * pageSize ≤ getAddr x.1 x.2.pageOffset ∧
      getAddr x.1 x.2.pageOffset < (page + 1) * pageSize := by
  unfold pageItems at hx
  split at hx
  · cases hx
  · rename_i p hp
    obtain ⟨r, hr, rfl⟩ := List.mem_map.1 hx
    have hon := page_of_record (hrep.node p (mem_nodes_of_findNode hp)) hw hr
    simp only [addr2PageNum, pageSize] at *
    omega

/-- The records that a write may be compared with: all those on its pages. -/
def bufItems (T : RecTree) (buf length : ℕ) : List (ℕ × MemRec) :=
  (bufPages buf length).flatMap (pageItems T)

/-- The pages of a buffer lie in memory, also when it wraps around. -/
theorem fits_of_mem_bufPages {buf length : ℕ} (hpage : page ∈ bufPages buf length) :
    (page + 1) * pageSize ≤ wordSize := by
  have := (mem_pagesFrom.1 hpage).2
  simp only [addr2PageNum, wadd, pageSize, wordSize] at *
  omega

theorem getAddr_firstByte (hw : (page + 1) * pageSize ≤ wordSize) :
    getAddr page 0 = page * pageSize := by
  have h : (0 : ℤ) < pageSize := by
    simp only [pageSize]
    omega
  rw [getAddr_eq (Int.le_refl 0) h hw, Int.toNat_zero, Nat.add_zero]

theorem getAddr_lastByte (hw : (page + 1) * pageSize ≤ wordSize) :
    getAddr page 4095 = page * pageSize + 4095 := by
  have h : (4095 : ℤ) < pageSize := by
    simp only [pageSize]
    omega
  exact getAddr_eq (by omega) h hw

theorem foldl_pass_diffPos {s : Scan} {d : ℕ} (hd : s.diffPos = d) (l : List (ℕ × MemRec)) :
    (((writeExtents cmp M mem tail).taken d l).foldl (Scan.pass cmp M mem tail) s).diffPos =
      (writeExtents cmp M mem tail).frontier d l := by
  induction l generalizing s d with
  | nil => exact hd
  | cons x l ih =>
    rw [Extents.taken, Extents.frontier]
    split
    · exact ih hd
    · rw [List.foldl_cons]
      exact ih (by rw [Scan.pass_diffPos, hd])

/-- A page that `do_ts_write` passes over has no record that it would take. -/
theorem doTsWrite_page (cmp : Comparator) (hrep : Rep L T)
    (hw : (page + 1) * pageSize ≤ wordSize) {buf length : ℕ} {s : Scan} :
    (scanPage cmp M mem false none 4095 T buf length tail s page).forget =
        ((writeExtents cmp M mem tail).taken s.diffPos (pageItems T page)).foldl
          (Scan.pass cmp M mem tail) s.forget ∧
      (scanPage cmp M mem false none 4095 T buf length tail s page).diffPos =
        (writeExtents cmp M mem tail).frontier s.diffPos (pageItems T page) := by
  by_cases hskip : getAddr page 4095 < s.diffPos
  · have hbelow : ∀ x ∈ pageItems T page, (writeExtents cmp M mem tail).start x < s.diffPos := by
      intro x hx
      have hbound : (writeExtents cmp M mem tail).start x < (page + 1) * pageSize :=
        (pageItems_bounds hrep hw hx).2
      have hend := getAddr_lastByte hw
      simp only [pageSize] at *
      omega
    obtain ⟨hnil, hfrontier⟩ := Extents.taken_eq_nil hbelow
    rw [scanPage, if_pos hskip, hnil, hfrontier]
    exact ⟨rfl, rfl⟩
  · rw [scanPage_eq cmp hrep hw hskip]
    cases hp : T.findNode page with
    | none =>
      have hnil : pageItems T page = [] := by rw [pageItems, hp]
      rw [hnil]
      exact ⟨Scan.forget_count s _, rfl⟩
    | some p =>
      have hrun := foldl_visit_eq cmp false mem tail (M := M) (s := s) (l := pageItems T page)
        (fun h => nomatch h) (fun _ _ _ _ _ => Nat.zero_le _)
      rw [Nat.zero_max] at hrun
      simp only [Option.getD_none]
      rw [hrun]
      exact ⟨foldl_pass_forget .., foldl_pass_diffPos rfl _⟩

/-- `do_ts_write` calls `cmpWrite` for the records that are taken. -/
theorem doTsWrite_eq (cmp : Comparator) (hrep : Rep L T) {buf length : ℕ}
    (hw : buf + length < wordSize) :
    (doTsWrite cmp M mem T buf length).forget =
      ((writeExtents cmp M mem (buf + length)).taken buf (bufItems T buf length)).foldl
        (Scan.pass cmp M mem (buf + length)) (.start buf) := by
  have hpages : ∀ (pages : List ℕ) (s : Scan),
      (∀ page ∈ pages, (page + 1) * pageSize ≤ wordSize) →
      (pages.foldl (scanPage cmp M mem false none 4095 T buf length (buf + length)) s).forget =
        ((writeExtents cmp M mem (buf + length)).taken s.diffPos
          (pages.flatMap (pageItems T))).foldl
          (Scan.pass cmp M mem (buf + length)) s.forget := by
    intro pages
    induction pages with
    | nil => exact fun s _ => rfl
    | cons page pages ih =>
      intro s hfits
      obtain ⟨hpage, hfrontier⟩ := doTsWrite_page (M := M) (s := s) cmp hrep
        (hfits page (List.mem_cons_self ..))
      rw [List.foldl_cons, ih _ fun q hq => hfits q (List.mem_cons_of_mem _ hq), hpage, hfrontier,
        List.flatMap_cons, Extents.taken_append, List.foldl_append]
  rw [doTsWrite, wadd_of_lt hw, bufItems]
  refine hpages _ _ fun page hpage => ?_
  rw [bufPages, wadd_of_lt hw] at hpage
  exact page_fits hw hpage

end

end Cidl
