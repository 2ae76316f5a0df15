import Cidl.Records.Ascent
import Cidl.Records.CopyPages
import Cidl.Records.MoveLoop

/-!
# What `ts_realloc` inserts when the block has moved

The loop over the slots of a block passes over the records at or before `ptr`
and stops at the first one at or behind `tail`; as the records ascend, it
inserts those strictly between the two (`Inside`), each at its new place
(`moveCall`).  `ReadsAs` says which records it reads, whatever the insertions do
to the tree meanwhile, and with that which insertions it makes
(`ReadsAs.moveRecs_eq`).

When the new block shares no page with the old one, all slots are read as they
were, so the loop over the blocks of a page follows a script (`follows_moves`),
and a call of `ts_realloc` that returns has made the insertions `moveCalls`, in
the order of their addresses (`tsRealloc_moved`).
-/

namespace Cidl

open SearchTree Shape

namespace RecTree

variable {L : Libc} {T T' T₀ U V W : RecTree} {ofa : ℤ → Option ℕ} {p page : ℕ} {pages : List ℕ}
  {ret ptr tail : ℕ} {r : MemRec}

/-! ## One record -/

/-- The call of `insertRec` by which a record of the page `page` is moved. -/
def moveCall (ret ptr page : ℕ) (r : MemRec) : InsertCall where
  fileOffset := r.fileOffset
  src := 0
  dest := wadd (wsub (getAddr page r.pageOffset) ptr) ret
  fileName := r.fileName
  fd := r.fd
  origin := r.origin

/-- The record lies between `ptr` and `tail`, and at neither of them. -/
def Inside (ptr tail page : ℕ) (r : MemRec) : Prop :=
  ptr < getAddr page r.pageOffset ∧ getAddr page r.pageOffset < tail

instance (ptr tail page : ℕ) (r : MemRec) : Decidable (Inside ptr tail page r) :=
  inferInstanceAs (Decidable (_ ∧ _))

/-- The records of a list that are moved. -/
def inside (ptr tail page : ℕ) (l : List MemRec) : List MemRec :=
  l.filter fun r => decide (Inside ptr tail page r)

theorem mem_inside {l : List MemRec} :
    r ∈ inside ptr tail page l ↔ r ∈ l ∧ Inside ptr tail page r := by
  simp [inside]

theorem inside_append (l m : List MemRec) : inside ptr tail page (l ++ m) =
    inside ptr tail page l ++ inside ptr tail page m := List.filter_append ..

theorem inside_cons_of_inside {l : List MemRec} (hr : Inside ptr tail page r) :
    inside ptr tail page (r :: l) = r :: inside ptr tail page l :=
  List.filter_cons_of_pos (decide_eq_true hr)

theorem inside_cons_of_not {l : List MemRec} (hr : ¬ Inside ptr tail page r) :
    inside ptr tail page (r :: l) = inside ptr tail page l :=
  List.filter_cons_of_neg (by simpa using hr)

theorem inside_eq_nil {l : List MemRec} (h : ∀ r ∈ l, ¬ Inside ptr tail page r) :
    inside ptr tail page l = [] :=
  List.filter_eq_nil_iff.2 fun r hr => by simpa using h r hr

/-- A record is moved by as much as its block. -/
theorem moveCall_dest (hr : Inside ptr tail page r) (htail : tail < wordSize)
    (hret : ret + (tail - ptr) ≤ wordSize) :
    (moveCall ret ptr page r).dest = ret + (getAddr page r.pageOffset - ptr) := by
  obtain ⟨hptr, hlt⟩ := hr
  show wadd (wsub _ ptr) ret = _
  rw [wsub_of_le (Nat.le_of_lt hptr) (hlt.trans htail), Nat.add_comm ret]
  refine wadd_of_lt ?_
  omega

/-! ## The loop over the slots of a block -/

section

variable {insert : InsertCall → RecTree → Option RecTree} {arr n : ℕ} {f : ℕ → MemRec}
  {P : ℕ → RecTree → Prop}

/-- The first `n` slots of the array are read as the records `f`, at ascending
addresses.  `P j` holds when the records before slot `j` have been dealt with. -/
structure ReadsAs (insert : InsertCall → RecTree → Option RecTree) (ret ptr tail page arr : ℕ)
    (f : ℕ → MemRec) (n : ℕ) (P : ℕ → RecTree → Prop) : Prop where
  read : ∀ j < n, ∀ U, P j U → U.slot arr j = f j
  skip : ∀ j < n, ∀ U, P j U → ¬ Inside ptr tail page (f j) → P (j + 1) U
  step : ∀ j < n, ∀ U V, P j U → Inside ptr tail page (f j) →
    insert (moveCall ret ptr page (f j)) U = some V → P (j + 1) V
  ascending : ∀ i j, i < j → j < n →
    getAddr page (f i).pageOffset < getAddr page (f j).pageOffset

/-- Where the loop stops, no later record lies inside. -/
theorem ReadsAs.outside (h : ReadsAs insert ret ptr tail page arr f n P) {i : ℕ}
    (hbehind : tail ≤ getAddr page (f i).pageOffset) {j : ℕ} (hij : i ≤ j) (hj : j < n) :
    ¬ Inside ptr tail page (f j) := by
  intro hr
  rcases Nat.eq_or_lt_of_le hij with rfl | hlt
  · exact Nat.not_lt.2 hbehind hr.2
  · exact Nat.not_lt.2 hbehind ((h.ascending i j hlt hj).trans hr.2)

theorem ReadsAs.skip_all (h : ReadsAs insert ret ptr tail page arr f n P) {i k : ℕ}
    (hik : i + k = n) (hout : ∀ j, i ≤ j → j < n → ¬ Inside ptr tail page (f j)) (hP : P i U) :
    P n U := by
  induction k generalizing i with
  | zero => exact hik ▸ hP
  | succ k ih =>
    have hi : i < n := by omega
    exact ih (by omega) (fun j hij hj => hout j (by omega) hj)
      (h.skip i hi U hP (hout i (Nat.le_refl i) hi))

/-- The insertions that the loop makes, and what holds after it. -/
theorem ReadsAs.moveRecs_eq (h : ReadsAs insert ret ptr tail page arr f n P) {i k : ℕ}
    (hik : i + k = n) (hP : P i U) :
    moveRecs insert ret ptr tail page arr (List.range' i k) U = runAll insert
      ((inside ptr tail page ((List.range' i k).map f)).map (moveCall ret ptr page)) U ∧
    ∀ V, moveRecs insert ret ptr tail page arr (List.range' i k) U = some V → P n V := by
  induction k generalizing i U with
  | zero =>
    refine ⟨rfl, fun V hV => ?_⟩
    cases hV
    exact hik ▸ hP
  | succ k ih =>
    have hi : i < n := by omega
    rw [List.range'_succ, moveRecs, h.read i hi U hP, List.map_cons]
    split
    · rename_i hbelow
      have hout : ¬ Inside ptr tail page (f i) := fun hr => Nat.not_lt.2 hbelow hr.1
      rw [inside_cons_of_not hout]
      exact ih (by omega) (h.skip i hi U hP hout)
    · rename_i hbelow
      split
      · -- all later records lie behind `tail` as well
        rename_i hbehind
        have hout := fun j => h.outside (j := j) hbehind
        have hnone : inside ptr tail page (f i :: (List.range' (i + 1) k).map f) = [] := by
          rw [← List.map_cons, ← List.range'_succ]
          refine inside_eq_nil fun r hr => ?_
          obtain ⟨j, hj, rfl⟩ := List.mem_map.1 hr
          obtain ⟨hij, hlt⟩ := List.mem_range'_1.1 hj
          exact hout j hij (by omega)
        rw [hnone]
        refine ⟨rfl, fun V hV => ?_⟩
        cases hV
        exact h.skip_all hik hout hP
      · rename_i hbehind
        have hr : Inside ptr tail page (f i) := ⟨Nat.not_le.1 hbelow, Nat.not_le.1 hbehind⟩
        rw [inside_cons_of_inside hr, List.map_cons, runAll_cons]
        refine ⟨Option.bind_congr fun V hV => ?_, fun W hW => ?_⟩
        · exact (ih (by omega) (h.step i hi U V hP hr hV)).1
        · obtain ⟨V, hV, hrest⟩ := Option.bind_eq_some_iff.1 hW
          exact (ih (by omega) (h.step i hi U V hP hr hV)).2 W hrest

end

/-! ## The records of a block -/

/-- The valid records of a block of the node `p`. -/
def validRecs (T : RecTree) (p e : ℕ) : List MemRec :=
  T.blockRecs e (T.copyLimit p (T.recTreeNodes p).recModEntry memRecPerEntry e).toNat

/-- The records of a node, block by block. -/
theorem records_eq_validRecs (h : Tidy T p) (hnd : (T.blocks p).Nodup) :
    T.records p = (T.oldestFirst p).flatMap (T.validRecs p) := by
  obtain ⟨older, hb⟩ := h.blocks_eq
  rw [hb] at hnd
  have hcur : (T.recTreeNodes p).recModEntry ∉ older := (List.nodup_cons.1 hnd).1
  have holder : ∀ e ∈ older.reverse, T.blockRecs e memRecPerEntry = T.validRecs p e := by
    intro e he
    have hne : e ≠ (T.recTreeNodes p).recModEntry := fun heq => hcur (heq ▸ List.mem_reverse.1 he)
    rw [validRecs, copyLimit, if_neg hne, Int.toNat_natCast]
  rw [records, oldestFirst, hb, recordsOf, List.reverse_cons, List.flatMap_append,
    List.flatMap_singleton, List.flatMap_congr holder]
  rw [validRecs, copyLimit, if_pos rfl]

theorem copyLimit_le (h : Tidy T p) (e : ℕ) :
    T.copyLimit p (T.recTreeNodes p).recModEntry memRecPerEntry e ≤ memRecPerEntry := by
  unfold copyLimit
  split
  · exact h.idx_le
  · exact le_rfl

theorem mem_records_of_validRecs (h : Tidy T p) (hnd : (T.blocks p).Nodup) {e : ℕ}
    (he : e ∈ T.blocks p) (hr : r ∈ T.validRecs p e) : r ∈ T.records p := by
  rw [records_eq_validRecs h hnd]
  exact List.mem_flatMap.2 ⟨e, List.mem_reverse.2 he, hr⟩

/-- The slots of a block are read in the order of their addresses. -/
theorem validRecs_ascending (h : NodeInv T p) (hnd : (T.blocks p).Nodup)
    (hw : (page + 1) * pageSize ≤ wordSize) {e : ℕ} (he : e ∈ T.blocks p) (i j : ℕ) (hij : i < j)
    (hj : j < (T.copyLimit p (T.recTreeNodes p).recModEntry memRecPerEntry e).toNat) :
    getAddr page (T.slot (T.recBlockEntries e).recArr i).pageOffset <
      getAddr page (T.slot (T.recBlockEntries e).recArr j).pageOffset := by
  have hasc := addr_ascending h hw
  rw [records_eq_validRecs h.tidy hnd] at hasc
  have hblock := (List.pairwise_flatMap.1 hasc).1 e (List.mem_reverse.2 he)
  rw [validRecs, blockRecs, List.pairwise_map] at hblock
  have hrange := List.pairwise_iff_getElem.1 hblock i j (by simpa using hij.trans hj)
    (by simpa using hj) hij
  simpa using hrange

/-! ## A block that has moved -/

/-- Where `realloc` has put the block: behind no end of memory, and on pages of
its own. -/
structure NewBlock (ret ptr tail : ℕ) : Prop where
  noWrap : ret + (tail - ptr) ≤ wordSize
  apart : ∀ a, ptr ≤ a → a < tail →
    addr2PageNum (ret + (a - ptr)) ∉ pagesFrom (addr2PageNum ptr) (addr2PageNum tail)

theorem page_fits_of_mem (htail : tail < wordSize)
    (hpage : page ∈ pagesFrom (addr2PageNum ptr) (addr2PageNum tail)) :
    (page + 1) * pageSize ≤ wordSize := by
  have := (mem_pagesFrom.1 hpage).2
  simp only [addr2PageNum, pageSize, wordSize] at *
  omega

/-- The insertions for a page. -/
def moveCalls (T : RecTree) (ret ptr tail page : ℕ) : List InsertCall :=
  (inside ptr tail page (T.pageLists page)).map (moveCall ret ptr page)

/-- No record is moved to one of the pages. -/
def MovesOff (pages : List ℕ) (ret ptr tail page : ℕ) (l : List MemRec) : Prop :=
  ∀ r ∈ l, Inside ptr tail page r → addr2PageNum (moveCall ret ptr page r).dest ∉ pages

theorem NewBlock.movesOff (h : NewBlock ret ptr tail) (htail : tail < wordSize) (l : List MemRec) :
    MovesOff (pagesFrom (addr2PageNum ptr) (addr2PageNum tail)) ret ptr tail page l := by
  intro r _ hr
  rw [moveCall_dest hr htail h.noWrap]
  exact h.apart _ (Nat.le_of_lt hr.1) hr.2

/-! ## The iterations for a page -/

/-- The iteration for a block that is read as it is in `T`. -/
def moveStep (T : RecTree) (ret ptr tail page p e : ℕ) : MoveStep where
  page := page
  node := p
  block := e
  calls := (inside ptr tail page (T.validRecs p e)).map (moveCall ret ptr page)

/-- The iterations for the blocks `es`. -/
def moveSteps (T : RecTree) (ret ptr tail page p : ℕ) (es : List ℕ) : List MoveStep :=
  es.map (T.moveStep ret ptr tail page p)

theorem calls_moveSteps (es : List ℕ) :
    (T.moveSteps ret ptr tail page p es).flatMap MoveStep.calls =
      (inside ptr tail page (es.flatMap (T.validRecs p))).map (moveCall ret ptr page) := by
  rw [moveSteps, List.flatMap_map, inside, List.filter_flatMap, List.map_flatMap]
  rfl

theorem moveSteps_cons (e : ℕ) (es : List ℕ) : T.moveSteps ret ptr tail page p (e :: es) =
    T.moveStep ret ptr tail page p e :: T.moveSteps ret ptr tail page p es := rfl

theorem head_moveSteps (T : RecTree) (ret ptr tail page p : ℕ) (es : List ℕ) :
    (T.moveSteps ret ptr tail page p es).head?.map MoveStep.block = es.head? := by
  cases es <;> rfl

/-- Where an iteration stands in the list. -/
theorem moveSteps_split {es : List ℕ} {pre rest : List MoveStep} {b : MoveStep}
    (h : T.moveSteps ret ptr tail page p es = pre ++ b :: rest) :
    ∃ es₁ e es₂, es = es₁ ++ e :: es₂ ∧ pre = T.moveSteps ret ptr tail page p es₁ ∧
      b = T.moveStep ret ptr tail page p e ∧ rest = T.moveSteps ret ptr tail page p es₂ := by
  obtain ⟨es₁, es', rfl, rfl, htail⟩ := List.map_eq_append_iff.1 h
  obtain ⟨e, es₂, rfl, rfl, rfl⟩ := List.map_eq_cons_iff.1 htail
  exact ⟨es₁, e, es₂, rfl, rfl, rfl, rfl⟩

theorem pass_eq {insert : InsertCall → RecTree → Option RecTree} (e : ℕ) {n : ℕ}
    (hn : ((loopOf L ret ptr tail page p T₀).uplimit U e).toNat = n) :
    (loopOf L ret ptr tail page p T₀).pass insert (e, U) =
      moveRecs insert ret ptr tail page (U.recBlockEntries e).recArr (List.range' 0 n) U := by
  rw [PageLoop.pass, hn, List.range_eq_range']
  rfl

/-- What an iteration inserts whose slots are read as they are in `T`. -/
theorem ReadsAs.block_eq {insert : InsertCall → RecTree → Option RecTree} {e n : ℕ}
    {P : ℕ → RecTree → Prop} (h : ReadsAs insert ret ptr tail page (T.recBlockEntries e).recArr
      (fun j => T.slot (T.recBlockEntries e).recArr j) n P) (hP : P 0 U) :
    moveRecs insert ret ptr tail page (T.recBlockEntries e).recArr (List.range' 0 n) U =
      runAll insert ((inside ptr tail page (T.blockRecs e n)).map (moveCall ret ptr page)) U ∧
    ∀ V, moveRecs insert ret ptr tail page (T.recBlockEntries e).recArr (List.range' 0 n) U =
      some V → P n V := by
  rw [blockRecs, List.range_eq_range']
  exact h.moveRecs_eq (Nat.zero_add n) hP

/-- What an iteration inserts. -/
theorem pass_moves (hW : Apart L pages T₀ W) (ha : Apart L pages T₀ U) (hpage : page ∈ pages)
    (hp : T₀.findNode page = some p) (h : NodeInv T₀ p) (hnd : (T₀.blocks p).Nodup)
    (hw : (page + 1) * pageSize ≤ wordSize) {e : ℕ} (he : e ∈ T₀.blocks p)
    (hoff : MovesOff pages ret ptr tail page (T₀.validRecs p e)) :
    (loopOf L ret ptr tail page p W).pass (steadyInsert L ofa) (e, U) =
      runAll (steadyInsert L ofa) (T₀.moveStep ret ptr tail page p e).calls U ∧
    ∀ V, (loopOf L ret ptr tail page p W).pass (steadyInsert L ofa) (e, U) = some V →
      Apart L pages T₀ V := by
  have hsame := ha.same page hpage p hp
  have hlimit : (loopOf L ret ptr tail page p W).uplimit U e =
      T₀.copyLimit p (T₀.recTreeNodes p).recModEntry memRecPerEntry e := by
    unfold PageLoop.uplimit loopOf copyLimit
    dsimp only
    rw [reread_of_walks L p (ha.walks.trans hW.walks.symm), hsame.node,
      (hW.same page hpage p hp).node]
  have hle := copyLimit_le h.tidy e
  rw [moveStep, validRecs]
  rw [validRecs] at hoff
  set n := (T₀.copyLimit p (T₀.recTreeNodes p).recModEntry memRecPerEntry e).toNat with hn
  rw [pass_eq e (congrArg Int.toNat hlimit), hsame.entries e he]
  refine ReadsAs.block_eq (P := fun _ V => Apart L pages T₀ V) ⟨?_, fun _ _ _ hV _ => hV, ?_,
    validRecs_ascending h hnd hw he⟩ ha
  · intro j hj V hV
    exact (hV.same page hpage p hp).slots e he j (Int.natCast_nonneg j) (by omega)
  · intro j hj V V' hV hr hstep
    exact apart_steadyInsert hV (hoff _ (List.mem_map.2 ⟨j, List.mem_range.2 hj, rfl⟩) hr) hstep

/-- The loop over the blocks of a page whose records go to other pages. -/
theorem follows_moves (ofa : ℤ → Option ℕ) (hW : Apart L pages T₀ W) (hpage : page ∈ pages)
    (hp : T₀.findNode page = some p) (h : NodeInv T₀ p) (hnd : (T₀.blocks p).Nodup)
    (hw : (page + 1) * pageSize ≤ wordSize)
    (hoff : MovesOff pages ret ptr tail page (T₀.records p)) :
    (loopOf L ret ptr tail page p W).Follows (steadyInsert L ofa)
      (T₀.moveSteps ret ptr tail page p (T₀.oldestFirst p)) (fun _ U => Apart L pages T₀ U)
      fun U => Apart L pages T₀ U := by
  have hblocks : ∀ e ∈ T₀.blocks p, MovesOff pages ret ptr tail page (T₀.validRecs p e) :=
    fun e he r hr => hoff r (mem_records_of_validRecs h.tidy hnd he hr)
  constructor
  · rintro pre b rest U hs hU
    obtain ⟨es₁, e, es₂, hes, -, rfl, -⟩ := moveSteps_split hs
    have he := mem_blocks_of_oldestFirst hes
    exact (pass_moves hW hU hpage hp h hnd hw he (hblocks e he)).1
  · rintro pre b rest U V hs hU hV
    obtain ⟨es₁, e, es₂, hes, -, rfl, rfl⟩ := moveSteps_split hs
    have he := mem_blocks_of_oldestFirst hes
    obtain ⟨hcalls, haV⟩ := pass_moves hW hU hpage hp h hnd hw he (hblocks e he)
    have haV := haV V (hcalls.trans hV)
    exact ⟨by rw [head_moveSteps]; exact haV.tailqPrev hpage hp hes, fun _ => haV, fun _ => haV⟩

/-- The loop over the blocks begins with the oldest one. -/
theorem SameNode.tailqLast (h : SameNode T U p) :
    U.tailqLast (U.recTreeNodes p).listHead = (T.oldestFirst p).head? := by
  rw [oldestFirst, List.head?_reverse, RecTree.tailqLast, h.node, h.queue]
  rfl

/-- What the loop over the pages inserts for one of them. -/
theorem movePage_moves (hrep : Rep L T₀) (ha : Apart L pages T₀ U) (hpage : page ∈ pages)
    (hw : (page + 1) * pageSize ≤ wordSize)
    (hoff : MovesOff pages ret ptr tail page (T₀.pageLists page)) {fuel : ℕ}
    (h : movePage L (steadyInsert L ofa) fuel ret ptr tail page U = some V) :
    Apart L pages T₀ V ∧
      runAll (steadyInsert L ofa) (T₀.moveCalls ret ptr tail page) U = some V := by
  have hfind := ha.find page hpage
  cases hp : T₀.findNode page with
  | none =>
    rw [hp] at hfind
    rw [moveCalls, pageLists_of_none hp]
    simp only [movePage, hfind, Option.some.injEq] at h
    subst h
    exact ⟨ha, rfl⟩
  | some p =>
    rw [hp] at hfind
    have hpn := mem_nodes_of_findNode hp
    have hinv := hrep.node p hpn
    have hnd : (T₀.blocks p).Nodup := hrep.owned.nodup_blocks hpn
    have hsame := ha.same page hpage p hp
    rw [pageLists_of_findNode hp] at hoff
    rw [movePage_eq hfind] at h
    obtain ⟨e, he, hrun⟩ := Option.bind_eq_some_iff.1 h
    rw [hsame.tailqLast] at he
    obtain ⟨es, hes⟩ := List.head?_eq_some_iff.1 he
    have hfollows := follows_moves ofa ha hpage hp hinv hnd hw hoff
    rw [hes, moveSteps_cons] at hfollows
    obtain ⟨hcalls, haV⟩ := hfollows.run_eq (List.nil_append _).symm ha hrun
    rw [← moveSteps_cons, ← hes, calls_moveSteps, ← records_eq_validRecs hinv.tidy hnd] at hcalls
    rw [moveCalls, pageLists_of_findNode hp]
    exact ⟨haV, hcalls⟩

/-- A call for a block that has moved to pages of its own makes the insertions
for its pages, one page after the other. -/
theorem tsRealloc_moved (hrep : Rep L T) (htail : tail < wordSize)
    (hblock : NewBlock ret ptr tail) {fuel : ℕ}
    (h : tsRealloc L (steadyInsert L ofa) fuel ret ptr tail T = some T') :
    runAll (steadyInsert L ofa) ((pagesFrom (addr2PageNum ptr) (addr2PageNum tail)).flatMap
      (T.moveCalls ret ptr tail)) T = some T' := by
  set pages := pagesFrom (addr2PageNum ptr) (addr2PageNum tail) with hpages
  refine (runAll_flatMap_of_some (P := Apart L pages T) (fun page hpage U V hU hV => ?_)
    (Apart.refl hrep.owned hrep.tidyTree.placed) h).2
  have hw := page_fits_of_mem htail hpage
  exact movePage_moves hrep hU hpage hw (hblock.movesOff htail _) hV

end RecTree

end Cidl
