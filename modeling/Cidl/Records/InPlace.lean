import Cidl.Records.MoveCalls

/-!
# What `ts_realloc` does when the block has stayed

With `ret` equal to `ptr` every record strictly inside the block is inserted
again at its own place, into the page that the loop is walking over.

* The first of these insertions finds the last record of the page at or behind
  its own and clears the page.  The loop goes on reading the block it is at,
  which has been given back or is being overwritten from its first slot on, but
  never ahead of the reads (`Rewriting`), and it ends with this block, as no
  other one is linked in front of it any more.
* Only if the current block of the page is empty, nothing is cleared at first:
  the records are appended (`Appending`) until the loop comes to the current
  block, which now holds the first of them.

`Rewritten` is what becomes of the records of a page, and
`tsRealloc_inPlace` the result for all of them.
-/

namespace Cidl

open SearchTree Shape

namespace RecTree

variable {L : Libc} {S T T' U V : RecTree} {ofa : ℤ → Option ℕ} {p page b : ℕ}
  {ptr tail : ℕ} {r : MemRec} {rs : List MemRec} {c : InsertCall}

/-! ## A record at its own place -/

/-- Offsets and addresses on one page are ordered alike. -/
theorem addr_lt_of_offset_lt {r r' : MemRec} (hw : (page + 1) * pageSize ≤ wordSize)
    (h₀ : 0 ≤ r.pageOffset) (h₁ : r'.pageOffset < pageSize) (hlt : r.pageOffset < r'.pageOffset) :
    getAddr page r.pageOffset < getAddr page r'.pageOffset := by
  rw [getAddr_eq h₀ (hlt.trans h₁) hw, getAddr_eq (h₀.trans (Int.le_of_lt hlt)) h₁ hw]
  omega

/-- Moved by nothing, a record is inserted as it is. -/
theorem moveCall_self (hw : (page + 1) * pageSize ≤ wordSize) (htail : tail < wordSize)
    (h₀ : 0 ≤ r.pageOffset) (h₁ : r.pageOffset < pageSize) (hr : Inside ptr tail page r) :
    addr2PageNum (moveCall ptr ptr page r).dest = page ∧
      addr2PageOffset (moveCall ptr ptr page r).dest = r.pageOffset ∧
      recordOf (moveCall ptr ptr page r) page = r := by
  have hlt := hr.1.trans hr.2
  have hdest : (moveCall ptr ptr page r).dest = page * pageSize + r.pageOffset.toNat := by
    rw [moveCall_dest hr htail (by omega), ← getAddr_eq h₀ h₁ hw]
    have := hr.1
    omega
  have hpage : addr2PageNum (moveCall ptr ptr page r).dest = page := by
    rw [hdest]
    simp only [addr2PageNum, pageSize] at *
    omega
  have hoff : addr2PageOffset (moveCall ptr ptr page r).dest = r.pageOffset := by
    rw [hdest, addr2PageOffset_eq]
    simp only [pageSize] at *
    omega
  refine ⟨hpage, hoff, ?_⟩
  have hrec := recordOf_pageOffset (moveCall ptr ptr page r)
  rw [hpage, hoff] at hrec
  cases r
  simp only [recordOf, MemRec.mk.injEq] at hrec ⊢
  exact ⟨rfl, rfl, hrec, rfl, rfl⟩

/-! ## A page that is being rewritten -/

/-- The page of `p` was cleared down to the block `b` after `S`, and `rs` has
been written there since.  The other blocks are given back, with their slots as
they were. -/
structure Rewriting (S : RecTree) (p b : ℕ) (rs : List MemRec) (U : RecTree) : Prop where
  blocks : U.blocks p = [b]
  cursor : (U.recTreeNodes p).recModEntry = b
  idx : (U.recTreeNodes p).memRecIdx = rs.length
  arr : (U.recBlockEntries b).recArr = (S.recBlockEntries b).recArr
  mem : ∀ a : ℤ, (∀ i < rs.length, a ≠ (S.recBlockEntries b).recArr + i) →
    U.recMem a = S.recMem a
  written : U.records p = rs
  gone : ∀ e ∈ S.blocks p, e ≠ b → (U.recBlockEntries e).queue = none

/-- Clearing begins it. -/
theorem rewriting_clearPage (ho : Owned L S.shape) (hp : p ∈ S.nodes) {dest : ℕ}
    (hclear : S.mustClear p dest) (h : clearPage p dest S = some U) :
    ∃ b ∈ S.blocks p, Rewriting S p b [] U := by
  rcases clearPage_blocks ho hp h with ⟨hkeep, -⟩ | ⟨-, newer, b, W, hb, hW, rfl⟩
  · exact absurd hclear hkeep
  obtain ⟨-, w⟩ := owned_withdrawBlocks ho hp hb hW
  have hnd : (S.blocks p).Nodup := ho.nodup_blocks hp
  have hnew : b ∉ newer := by
    rw [hb] at hnd
    exact fun hmem => (List.nodup_append.1 hnd).2.2 b hmem b (List.mem_singleton_self b) rfl
  have hblocks : W.blocks p = [b] := w.blocks
  refine ⟨b, by simp [hb], ?_, ?_, ?_, ?_, fun a _ => ?_, ?_, fun e he hne => ?_⟩
  · rw [blocks_setCursor, hblocks]
  · rw [setCursor_node]
  · rw [setCursor_node]
    rfl
  · rw [show ((W.setCursor p b 0).recBlockEntries b).recArr = (W.recBlockEntries b).recArr from
      congrFun (congrArg Shape.recArr (shape_setCursor p b 0)) b, w.entries b hnew]
  · exact congrFun w.recMem a
  · rw [records, setCursor_node, blocks_setCursor, hblocks]
    rfl
  · rw [hb, List.mem_append, List.mem_singleton] at he
    rw [queue_setCursor]
    exact queue_withdrawBlocks hW e (Or.inl (he.resolve_right hne))

/-- Another record. -/
theorem Rewriting.write (h : Rewriting S p b rs U) (ho : Owned L U.shape)
    (hp : U.findNode page = some p) (hlen : rs.length < memRecPerEntry)
    (hV : writeRec L c page p U = some V) :
    Rewriting S p b (rs ++ [recordOf c page]) V := by
  have htidy : Tidy U p := by
    refine ⟨?_, ?_, ?_⟩
    · rw [h.blocks, h.cursor]
      rfl
    · rw [h.idx]
      exact Int.natCast_nonneg _
    · rw [h.idx]
      exact_mod_cast Nat.le_of_lt hlen
  have hrecords := records_writeRec ho hp htidy hV
  rcases writeRec_eq_some hp hV with ⟨-, rfl⟩ | ⟨hfull, -⟩
  · have hcur : U.curArr p = (S.recBlockEntries b).recArr := by rw [curArr, h.cursor, h.arr]
    refine ⟨?_, ?_, ?_, ?_, fun a ha => ?_, ?_, fun e he hne => ?_⟩
    · rw [blocks_setCursor, blocks_setRec, h.blocks]
    · rw [setCursor_node]
      exact h.cursor
    · rw [setCursor_node, h.idx, List.length_append]
      push_cast
      rfl
    · rw [← h.arr]
      exact congrFun (congrArg Shape.recArr (shape_setCursor p _ _)) b
    · rw [List.length_append, List.length_singleton] at ha
      have hne : a ≠ U.curArr p + (U.recTreeNodes p).memRecIdx := by
        rw [hcur, h.idx]
        exact ha rs.length (Nat.lt_succ_self _)
      refine (Function.update_of_ne hne _ _).trans (h.mem a fun i hi => ha i ?_)
      exact Nat.lt_succ_of_lt hi
    · rw [hrecords, h.written]
    · rw [queue_setCursor]
      exact h.gone e he hne
  · rw [h.idx] at hfull
    exact absurd hlen (Nat.not_lt.2 (by exact_mod_cast hfull))

/-- The log is not part of what is rewritten. -/
theorem Rewriting.logCall (h : Rewriting S p b rs U) : Rewriting S p b rs (U.logCall c) :=
  ⟨h.blocks, h.cursor, h.idx, h.arr, h.mem, h.written, h.gone⟩

/-- An insertion for a page that has a node. -/
theorem steadyInsert_found (hp : S.findNode (addr2PageNum c.dest) = some p)
    (h : steadyInsert L ofa c S = some V) :
    ∃ U, clearPage p c.dest (S.logCall c) = some U ∧
      writeRec L c (addr2PageNum c.dest) p U = some V := by
  obtain ⟨-, h⟩ := steadyInsert_eq_some h
  have hp' : (S.logCall c).findNode (addr2PageNum c.dest) = some p := hp
  simp only [insertRec, hp'] at h
  exact Option.bind_eq_some_iff.1 h

/-- An insertion that clears its page begins to rewrite it. -/
theorem rewriting_first (ho : Owned L S.shape) (hp : S.findNode (addr2PageNum c.dest) = some p)
    (hclear : S.mustClear p c.dest) (h : steadyInsert L ofa c S = some V) :
    V.findNode (addr2PageNum c.dest) = some p ∧
      ∃ b ∈ S.blocks p, Rewriting S p b [recordOf c (addr2PageNum c.dest)] V := by
  obtain ⟨U, hU, hV⟩ := steadyInsert_found hp h
  have hoS : Owned L (S.logCall c).shape := ho
  have hpU := findNode_clearPage (T := S.logCall c) hoS hp hU
  have hoU := (owned_clearPage hoS (mem_nodes_of_findNode hp) hU).1
  obtain ⟨b, hb, hrew⟩ := rewriting_clearPage hoS (mem_nodes_of_findNode hp) hclear hU
  have hrew : Rewriting S p b [] U :=
    ⟨hrew.blocks, hrew.cursor, hrew.idx, hrew.arr, hrew.mem, hrew.written, hrew.gone⟩
  have hV' := hrew.write hoU hpU (by simp) hV
  exact ⟨findNode_writeRec hoU hpU hV, b, hb, hV'⟩

/-- An insertion behind what was written goes on with it. -/
theorem Rewriting.next (h : Rewriting S p b rs U) (ho : Owned L U.shape)
    (hp : U.findNode (addr2PageNum c.dest) = some p) (hlen : rs.length < memRecPerEntry)
    (hlast : ∀ a ∈ rs, a.pageOffset < addr2PageOffset c.dest)
    (hV : steadyInsert L ofa c U = some V) :
    V.findNode (addr2PageNum c.dest) = some p ∧
      Rewriting S p b (rs ++ [recordOf c (addr2PageNum c.dest)]) V := by
  obtain ⟨W, hW, hV⟩ := steadyInsert_found hp hV
  have hlog : Rewriting S p b rs (U.logCall c) := h.logCall
  have hoU : Owned L (U.logCall c).shape := ho
  have hpU : (U.logCall c).findNode (addr2PageNum c.dest) = some p := hp
  generalize U.logCall c = U' at hW hlog hoU hpU
  have hpn := mem_nodes_of_findNode hpU
  rcases clearPage_blocks hoU hpn hW with ⟨-, rfl⟩ | ⟨⟨hpos, hle⟩, -⟩
  · exact ⟨findNode_writeRec hoU hpU hV, hlog.write hoU hpU hlen hV⟩
  · -- the last record that was written lies before the destination
    have hrecords := getLast?_records (T := U') (p := p)
      ⟨by rw [hlog.blocks, hlog.cursor]; rfl, Int.le_of_lt hpos, by rw [hlog.idx]; omega⟩ hpos
    rw [hlog.written] at hrecords
    exact absurd hle (Int.not_le.2 (hlast _ (List.mem_of_getLast? hrecords)))

/-! ## The iteration that rewrites the page -/

/-- Slots that are not written since are read as they were. -/
theorem Rewriting.slot (h : Rewriting S p b rs U) (ho : Owned L S.shape) (hp : p ∈ S.nodes)
    (hb : b ∈ S.blocks p) {e j : ℕ} (he : e ∈ S.blocks p) (hj : j < memRecPerEntry)
    (hlen : rs.length ≤ j) :
    U.slot (S.recBlockEntries e).recArr j = S.slot (S.recBlockEntries e).recArr j := by
  refine h.mem _ fun i hi => ?_
  by_cases hne : e = b
  · subst hne
    omega
  · have hapart := ho.recArr_apart (Owned.mem_entries hp he) (Owned.mem_entries hp hb) hne
    simp only [shape, Function.comp_apply] at hapart
    omega

/-- No block is linked in front of one of a page that was rewritten. -/
theorem Rewriting.tailqPrev (h : Rewriting S p b rs U) (ho : Owned L U.shape) (hp : p ∈ U.nodes)
    {e : ℕ} (he : e ∈ S.blocks p) : U.tailqPrev e = none := by
  by_cases hne : e = b
  · exact tailqPrev_first ho hp (hne ▸ h.blocks)
  · rw [RecTree.tailqPrev, h.gone e he hne]
    rfl

/-- The states of an iteration: nothing was inserted yet, or the page is being
rewritten with the records that were. -/
def Rewrites (L : Libc) (S : RecTree) (p page : ℕ) (rs : List MemRec) (U : RecTree) : Prop :=
  TidyTree L U ∧ OnPage S U page ∧ ((rs = [] ∧ U = S) ∨ (rs ≠ [] ∧ U.findNode page = some p ∧
    ∃ b ∈ S.blocks p, Rewriting S p b rs U))

theorem rewrites_insert (hS : TidyTree L S) (hp : S.findNode page = some p)
    (hw : (page + 1) * pageSize ≤ wordSize) (htail : tail < wordSize)
    (h₀ : 0 ≤ r.pageOffset) (h₁ : r.pageOffset < pageSize) (hr : Inside ptr tail page r)
    (hclear : S.mustClear p (moveCall ptr ptr page r).dest) (hlen : rs.length < memRecPerEntry)
    (hlast : ∀ a ∈ rs, a.pageOffset < r.pageOffset) (hU : Rewrites L S p page rs U)
    (hV : steadyInsert L ofa (moveCall ptr ptr page r) U = some V) :
    Rewrites L S p page (rs ++ [r]) V := by
  obtain ⟨hpage, hoff, hrec⟩ := moveCall_self hw htail h₀ h₁ hr
  obtain ⟨htidy, hon, hU⟩ := hU
  have honV := htidy.onPage hV
  rw [hpage] at honV
  refine ⟨htidy.steadyInsert hV, hon.trans honV, Or.inr ⟨by simp, ?_⟩⟩
  rcases hU with ⟨rfl, rfl⟩ | ⟨-, hpU, b, hb, hrew⟩
  · obtain ⟨hpV, b, hb, hrew⟩ := rewriting_first hS.owned (by rw [hpage]; exact hp) hclear hV
    rw [hpage] at hpV
    rw [hpage, hrec] at hrew
    exact ⟨hpV, b, hb, hrew⟩
  · obtain ⟨hpV, hrewV⟩ := hrew.next htidy.owned (by rw [hpage]; exact hpU) hlen
      (by rw [hoff]; exact hlast) hV
    rw [hpage] at hpV
    rw [hpage, hrec] at hrewV
    exact ⟨hpV, b, hb, hrewV⟩

/-- An iteration of which every insertion may clear the page: the records of
its block that lie inside are those of the page afterwards. -/
theorem pass_rewrites (ofa : ℤ → Option ℕ) (hS : TidyTree L S) (hp : S.findNode page = some p)
    (hw : (page + 1) * pageSize ≤ wordSize) (htail : tail < wordSize) {e n : ℕ}
    (he : e ∈ S.blocks p) (hn : n ≤ memRecPerEntry)
    (hin : ∀ r ∈ S.blockRecs e n, 0 ≤ r.pageOffset ∧ r.pageOffset < pageSize)
    (hasc : (S.blockRecs e n).Pairwise fun a b => a.pageOffset < b.pageOffset)
    (hclear : ∀ r ∈ S.blockRecs e n, 0 < (S.recTreeNodes p).memRecIdx ∧ r.pageOffset ≤
      (S.slot (S.curArr p) ((S.recTreeNodes p).memRecIdx - 1)).pageOffset) :
    moveRecs (steadyInsert L ofa) ptr ptr tail page (S.recBlockEntries e).recArr
      (List.range' 0 n) S = runAll (steadyInsert L ofa)
        ((inside ptr tail page (S.blockRecs e n)).map (moveCall ptr ptr page)) S ∧
    ∀ V, moveRecs (steadyInsert L ofa) ptr ptr tail page (S.recBlockEntries e).recArr
      (List.range' 0 n) S = some V →
        Rewrites L S p page (inside ptr tail page (S.blockRecs e n)) V := by
  have hpn := mem_nodes_of_findNode hp
  set arr := (S.recBlockEntries e).recArr with harr
  have hmem : ∀ j < n, S.slot arr j ∈ S.blockRecs e n := fun j hj =>
    List.mem_map.2 ⟨j, List.mem_range.2 hj, rfl⟩
  have hlt : ∀ i j, i < j → j < n → (S.slot arr i).pageOffset < (S.slot arr j).pageOffset := by
    intro i j hij hj
    have hpair := List.pairwise_iff_getElem.1 hasc i j (by simpa using hij.trans hj)
      (by simpa using hj) hij
    simpa [blockRecs] using hpair
  have hnext : ∀ j, S.blockRecs e (j + 1) = S.blockRecs e j ++ [S.slot arr j] :=
    fun j => blockRecs_succ e j
  have hlen : ∀ j, (inside ptr tail page (S.blockRecs e j)).length ≤ j := fun j => by
    have hle := List.length_filter_le (fun r => decide (Inside ptr tail page r)) (S.blockRecs e j)
    rwa [length_blockRecs] at hle
  refine ReadsAs.block_eq
    (P := fun j U => Rewrites L S p page (inside ptr tail page (S.blockRecs e j)) U)
    ⟨?_, ?_, ?_, fun i j hij hj => addr_lt_of_offset_lt hw (hin _ (hmem i (hij.trans hj))).1
      (hin _ (hmem j hj)).2 (hlt i j hij hj)⟩ ?_
  · rintro j hj U ⟨-, -, ⟨-, rfl⟩ | ⟨-, -, b, hb, hrew⟩⟩
    · rfl
    · exact hrew.slot hS.owned hpn hb he (hj.trans_le hn) (hlen j)
  · intro j hj U hU hr
    rw [hnext, inside_append, show inside ptr tail page [S.slot arr j] = [] from
      inside_cons_of_not hr, List.append_nil]
    exact hU
  · intro j hj U U' hU hr hstep
    obtain ⟨h₀, h₁⟩ := hin _ (hmem j hj)
    obtain ⟨hpos, hle⟩ := hclear _ (hmem j hj)
    rw [hnext, inside_append, show inside ptr tail page [S.slot arr j] = [S.slot arr j] from
      inside_cons_of_inside hr]
    refine rewrites_insert hS hp hw htail h₀ h₁ hr ⟨hpos, ?_⟩ ?_ (fun a ha => ?_) hU hstep
    · rw [(moveCall_self hw htail h₀ h₁ hr).2.1]
      exact hle
    · exact (hlen j).trans_lt (hj.trans_le hn)
    · obtain ⟨i, hi, rfl⟩ := List.mem_map.1 (mem_inside.1 ha).1
      exact hlt i j (List.mem_range.1 hi) hj
  · exact ⟨hS, OnPage.refl hS.placed page, Or.inl ⟨rfl, rfl⟩⟩

/-! ## A page whose current block holds records -/

/-- In a list with ascending offsets the last record has the greatest. -/
theorem offset_le_getLast {l : List MemRec} {a : MemRec}
    (h : l.Pairwise fun a b => a.pageOffset < b.pageOffset) (hr : r ∈ l)
    (hlast : l.getLast? = some a) : r.pageOffset ≤ a.pageOffset := by
  obtain ⟨init, rfl⟩ := List.getLast?_eq_some_iff.1 hlast
  rcases List.mem_append.1 hr with hr | hr
  · exact Int.le_of_lt ((List.pairwise_append.1 h).2.2 r hr a (List.mem_singleton_self a))
  · rw [List.mem_singleton.1 hr]

theorem validRecs_pairwise (h : NodeInv S p) (hnd : (S.blocks p).Nodup) {e : ℕ}
    (he : e ∈ S.blocks p) :
    (S.validRecs p e).Pairwise fun a b => a.pageOffset < b.pageOffset := by
  have hasc := h.ascending
  rw [records_eq_validRecs h.tidy hnd] at hasc
  exact (List.pairwise_flatMap.1 hasc).1 e (List.mem_reverse.2 he)

/-- The blocks up to the first one with a record inside. -/
def untilInside (T : RecTree) (ptr tail page p : ℕ) : List ℕ → List ℕ
  | [] => []
  | e :: es =>
    if inside ptr tail page (T.validRecs p e) = [] then e :: T.untilInside ptr tail page p es
    else [e]

theorem head_untilInside (es : List ℕ) : (S.untilInside ptr tail page p es).head? = es.head? := by
  cases es with
  | nil => rfl
  | cons e es => unfold untilInside; split <;> rfl

/-- Before the last block of them there are no records inside. -/
theorem untilInside_split {es es₁ es₂ : List ℕ} {e : ℕ}
    (h : S.untilInside ptr tail page p es = es₁ ++ e :: es₂) :
    (∀ f ∈ es₁, inside ptr tail page (S.validRecs p f) = []) ∧ ∃ es', es = es₁ ++ e :: es' ∧
      (inside ptr tail page (S.validRecs p e) = [] → es₂ = S.untilInside ptr tail page p es') ∧
      (inside ptr tail page (S.validRecs p e) ≠ [] → es₂ = []) := by
  induction es generalizing es₁ with
  | nil => simp [untilInside] at h
  | cons f es ih =>
    rw [untilInside] at h
    cases es₁ with
    | nil =>
      refine ⟨fun f hf => absurd hf List.not_mem_nil, es, ?_⟩
      split at h
      · rename_i hnone
        obtain ⟨rfl, rfl⟩ := List.cons.inj h
        exact ⟨rfl, fun _ => rfl, fun hsome => absurd hnone hsome⟩
      · rename_i hsome
        obtain ⟨rfl, rfl⟩ := List.cons.inj h
        exact ⟨rfl, fun hnone => absurd hnone hsome, fun _ => rfl⟩
    | cons g es₁ =>
      split at h
      · rename_i hnone
        obtain ⟨rfl, hrest⟩ := List.cons.inj h
        obtain ⟨hall, es', rfl, hlast⟩ := ih hrest
        exact ⟨List.forall_mem_cons.2 ⟨hnone, hall⟩, es', rfl, hlast⟩
      · simp at h

/-- An iteration of the loop on the page as it was. -/
theorem pass_first (ofa : ℤ → Option ℕ) (hS : TidyTree L S) (hp : S.findNode page = some p)
    (h : NodeInv S p)
    (hidx : 0 < (S.recTreeNodes p).memRecIdx) (hw : (page + 1) * pageSize ≤ wordSize)
    (htail : tail < wordSize) {e : ℕ} (he : e ∈ S.blocks p) :
    (loopOf L ptr ptr tail page p S).pass (steadyInsert L ofa) (e, S) =
      runAll (steadyInsert L ofa) (S.moveStep ptr ptr tail page p e).calls S ∧
    ∀ V, (loopOf L ptr ptr tail page p S).pass (steadyInsert L ofa) (e, S) = some V →
      Rewrites L S p page (inside ptr tail page (S.validRecs p e)) V := by
  have hnd : (S.blocks p).Nodup := hS.owned.nodup_blocks (mem_nodes_of_findNode hp)
  have hlimit : (loopOf L ptr ptr tail page p S).uplimit S e =
      S.copyLimit p (S.recTreeNodes p).recModEntry memRecPerEntry e := by
    unfold PageLoop.uplimit loopOf copyLimit
    dsimp only
    rw [reread_of_walks L p rfl]
  rw [pass_eq e (congrArg Int.toNat hlimit)]
  exact pass_rewrites ofa hS hp hw htail he (Int.toNat_le.2 (copyLimit_le h.tidy e))
    (fun r hr => h.inPage r (mem_records_of_validRecs h.tidy hnd he hr))
    (validRecs_pairwise h hnd he)
    (fun r hr => ⟨hidx, offset_le_getLast h.ascending
      (mem_records_of_validRecs h.tidy hnd he hr) (getLast?_records h.tidy hidx)⟩)

/-- The loop over the blocks: the records inside of the first one that has any
are what is left of the page. -/
theorem follows_rewrites (ofa : ℤ → Option ℕ) (hS : TidyTree L S) (hp : S.findNode page = some p)
    (h : NodeInv S p)
    (hidx : 0 < (S.recTreeNodes p).memRecIdx) (hw : (page + 1) * pageSize ≤ wordSize)
    (htail : tail < wordSize) :
    (loopOf L ptr ptr tail page p S).Follows (steadyInsert L ofa)
      (S.moveSteps ptr ptr tail page p (S.untilInside ptr tail page p (S.oldestFirst p)))
      (fun _ U => U = S) fun V => TidyTree L V ∧ OnPage S V page ∧
        (((∀ e ∈ S.oldestFirst p, inside ptr tail page (S.validRecs p e) = []) ∧ V = S) ∨
          ∃ e ∈ S.oldestFirst p, inside ptr tail page (S.validRecs p e) ≠ [] ∧
            V.pageLists page = inside ptr tail page (S.validRecs p e)) := by
  constructor
  · rintro pre b rest U hs rfl
    obtain ⟨es₁, e, es₂, hes, -, rfl, -⟩ := moveSteps_split hs
    obtain ⟨-, es', hb, -⟩ := untilInside_split hes
    exact (pass_first ofa hS hp h hidx hw htail (mem_blocks_of_oldestFirst hb)).1
  · rintro pre b rest U V hs rfl hV
    obtain ⟨es₁, e, es₂, hes, -, rfl, rfl⟩ := moveSteps_split hs
    obtain ⟨hnone, es', hb, hmore, hlast⟩ := untilInside_split hes
    have he := mem_blocks_of_oldestFirst hb
    obtain ⟨hcalls, hrewrites⟩ := pass_first ofa hS hp h hidx hw htail he
    obtain ⟨htidy, hon, ⟨hempty, rfl⟩ | ⟨hsome, hpV, f, hf, hrew⟩⟩ :=
      hrewrites V (hcalls.trans hV)
    · have hapart : Apart L [page] V V := Apart.refl hS.owned hS.placed
      have hprev := hapart.tailqPrev (List.mem_singleton_self page) hp hb
      have hhead : es₂.head? = es'.head? := by rw [hmore hempty, head_untilInside]
      rw [head_moveSteps, hhead]
      refine ⟨hprev, fun _ => rfl, fun hend => ?_⟩
      -- no block comes after this one
      rw [List.map_eq_nil_iff.1 hend, List.head?_nil, eq_comm, List.head?_eq_none_iff] at hhead
      refine ⟨htidy, hon, Or.inl ⟨fun g hg => ?_, rfl⟩⟩
      rw [hb, hhead, List.mem_append, List.mem_singleton] at hg
      rcases hg with hg | rfl
      · exact hnone g hg
      · exact hempty
    · rw [hlast hsome]
      have hlist : V.pageLists page = inside ptr tail page (U.validRecs p e) := by
        rw [pageLists_of_findNode hpV, hrew.written]
      exact ⟨hrew.tailqPrev htidy.owned (mem_nodes_of_findNode hpV) he,
        fun hne => absurd rfl hne,
        fun _ => ⟨htidy, hon, Or.inr ⟨e, List.mem_reverse.2 he, hsome, hlist⟩⟩⟩

/-! ## A page whose current block is empty -/

/-- The records `rs` were appended to the page of `p`, which had an empty current
block in `S`. -/
structure Appending (L : Libc) (S : RecTree) (p page : ℕ) (rs : List MemRec) (U : RecTree) :
    Prop where
  tidy : TidyTree L U
  onPage : OnPage S U page
  find : U.findNode page = some p
  blocks : ∃ front, U.blocks p = front ++ S.blocks p
  arrs : ∀ e ∈ S.blocks p, (U.recBlockEntries e).recArr = (S.recBlockEntries e).recArr
  records : U.records p = S.records p ++ rs
  idx_zero : rs = [] → (U.recTreeNodes p).memRecIdx = 0
  idx_pos : rs ≠ [] → 0 < (U.recTreeNodes p).memRecIdx

theorem Appending.refl (hS : TidyTree L S) (hp : S.findNode page = some p)
    (hidx : (S.recTreeNodes p).memRecIdx = 0) : Appending L S p page [] S where
  tidy := hS
  onPage := OnPage.refl hS.placed page
  find := hp
  blocks := ⟨[], rfl⟩
  arrs _ _ := rfl
  records := (List.append_nil _).symm
  idx_zero _ := hidx
  idx_pos h := absurd rfl h

/-- Where `writeRec` writes, the older blocks stay. -/
theorem blocks_writeRec (ho : Owned L U.shape) (hp : U.findNode page = some p)
    (hnonneg : 0 ≤ (U.recTreeNodes p).memRecIdx) (h : writeRec L c page p U = some V) :
    (∃ front, V.blocks p = front ++ U.blocks p) ∧
      (∀ e ∈ U.blocks p, (V.recBlockEntries e).recArr = (U.recBlockEntries e).recArr) ∧
      0 < (V.recTreeNodes p).memRecIdx := by
  have hpn := mem_nodes_of_findNode hp
  rcases writeRec_eq_some hp h with ⟨-, rfl⟩ | ⟨-, f, arr, ep, ap, hf, -, rfl⟩
  · refine ⟨⟨[], by rw [blocks_setCursor]; rfl⟩, fun e _ => ?_, ?_⟩
    · exact congrFun (congrArg Shape.recArr (shape_setCursor p _ _)) e
    · rw [setCursor_node]
      exact Int.lt_add_one_of_le hnonneg
  · refine ⟨⟨[f], by rw [blocks_withBlock]; rfl⟩, fun e he => ?_, ?_⟩
    · have hne : e ≠ f := by
        rintro rfl
        exact ho.entry.fresh hf (Owned.mem_entries hpn he)
      exact congrArg RecBlockEntry.recArr (Function.update_of_ne hne _ _)
    · simp [withBlock]

/-- Another record. -/
theorem Appending.next (h : Appending L S p (addr2PageNum c.dest) rs U)
    (hlast : ∀ a ∈ rs, a.pageOffset < addr2PageOffset c.dest)
    (hV : steadyInsert L ofa c U = some V) :
    Appending L S p (addr2PageNum c.dest) (rs ++ [recordOf c (addr2PageNum c.dest)]) V := by
  obtain ⟨W, hW, hwrite⟩ := steadyInsert_found h.find hV
  have htidyV := h.tidy.steadyInsert hV
  have honV := h.onPage.trans (h.tidy.onPage hV)
  have hpn := mem_nodes_of_findNode h.find
  have hoU : Owned L (U.logCall c).shape := h.tidy.owned
  have htidy := h.tidy.tidy p hpn
  -- nothing is cleared
  have hkeep : ¬ U.mustClear p c.dest := by
    rintro ⟨hpos, hle⟩
    have hne : rs ≠ [] := fun hnil => by
      rw [h.idx_zero hnil] at hpos
      exact lt_irrefl 0 hpos
    have hget := getLast?_records htidy hpos
    rw [h.records, List.getLast?_append_of_ne_nil _ hne] at hget
    exact Int.not_le.2 (hlast _ (List.mem_of_getLast? hget)) hle
  rcases clearPage_blocks hoU hpn hW with ⟨-, rfl⟩ | ⟨hclear, -⟩
  swap
  · exact absurd hclear hkeep
  have htidyU : Tidy (U.logCall c) p := ⟨htidy.first, htidy.idx_nonneg, htidy.idx_le⟩
  have hpU : (U.logCall c).findNode (addr2PageNum c.dest) = some p := h.find
  obtain ⟨⟨front', hfront'⟩, harrs, hpos⟩ := blocks_writeRec hoU hpU htidy.idx_nonneg hwrite
  obtain ⟨front, hfront⟩ := h.blocks
  have hblocks : (U.logCall c).blocks p = front ++ S.blocks p := hfront
  refine ⟨htidyV, honV, findNode_writeRec hoU hpU hwrite, ⟨front' ++ front, ?_⟩, fun e he => ?_,
    ?_, fun hnil => ?_, fun _ => hpos⟩
  · rw [hfront', hblocks, List.append_assoc]
  · refine (harrs e ?_).trans (h.arrs e he)
    rw [hblocks]
    exact List.mem_append_right _ he
  · rw [records_writeRec hoU hpU htidyU hwrite, ← List.append_assoc, ← h.records]
    rfl
  · simp at hnil

theorem getElem?_records (h : Tidy T p) {j : ℕ} (hj : j < T.recCount p) :
    (T.records p)[j]? = some (T.recAt p j) := by
  rw [records_eq_recAt h, List.getElem?_map, List.getElem?_range hj]
  rfl

/-- How many new blocks there are, and how many records in the newest one. -/
theorem Appending.counts (h : Appending L S p page rs U) (hS : Tidy S p)
    (hidx : (S.recTreeNodes p).memRecIdx = 0) : ∃ front, U.blocks p = front ++ S.blocks p ∧
      memRecPerEntry * front.length + (U.recTreeNodes p).memRecIdx.toNat = rs.length := by
  obtain ⟨front, hfront⟩ := h.blocks
  obtain ⟨older, hb⟩ := hS.blocks_eq
  refine ⟨front, hfront, ?_⟩
  have hlen := congrArg List.length h.records
  have htidy := h.tidy.tidy p (mem_nodes_of_findNode h.find)
  rw [List.length_append, length_records htidy, length_records hS, recCount, recCount,
    hfront, hidx, hb] at hlen
  simp only [List.length_append, List.length_cons, memRecPerEntry] at *
  omega

/-- The slots of the blocks of `S`, by number. -/
theorem Appending.slot (h : Appending L S p page rs U) {pre rest : List ℕ} {e i : ℕ}
    (hb : S.oldestFirst p = pre ++ e :: rest) (hi : i < memRecPerEntry)
    (hlt : memRecPerEntry * pre.length + i < (S.records p ++ rs).length) :
    (S.records p ++ rs)[memRecPerEntry * pre.length + i]? =
      some (U.slot (S.recBlockEntries e).recArr i) := by
  obtain ⟨front, hfront⟩ := h.blocks
  have he := mem_blocks_of_oldestFirst hb
  have htidy := h.tidy.tidy p (mem_nodes_of_findNode h.find)
  have hget : (U.oldestFirst p).getD pre.length 0 = e := by
    rw [oldestFirst, hfront, List.reverse_append, show (S.blocks p).reverse = _ from hb]
    simp
  rw [← h.records] at hlt ⊢
  rw [getElem?_records htidy (length_records htidy ▸ hlt), recAt_eq _ hi, hget,
    h.arrs e he]

/-- The older blocks are read as they were. -/
theorem Appending.slot_older (h : Appending L S p page rs U) (hS : TidyTree L S)
    (hp : S.findNode page = some p) (hidx : (S.recTreeNodes p).memRecIdx = 0)
    {pre rest : List ℕ} {e i : ℕ} (hb : S.oldestFirst p = pre ++ e :: rest) (hrest : rest ≠ [])
    (hi : i < memRecPerEntry) :
    U.slot (S.recBlockEntries e).recArr i = S.slot (S.recBlockEntries e).recArr i := by
  have hlen := length_records (hS.tidy p (mem_nodes_of_findNode hp))
  have hblocks : (S.blocks p).length = pre.length + (rest.length + 1) := by
    have := congrArg List.length hb
    rwa [oldestFirst, List.length_reverse, List.length_append, List.length_cons] at this
  have hpos := List.length_pos_iff.2 hrest
  rw [recCount, hidx, hblocks] at hlen
  have hlt : memRecPerEntry * pre.length + i < (S.records p).length := by
    simp only [memRecPerEntry] at *
    omega
  have hU := h.slot hb hi (by rw [List.length_append]; omega)
  have hS' := (Appending.refl hS hp hidx).slot hb hi (by rw [List.append_nil]; exact hlt)
  rw [List.getElem?_append_left hlt] at hU hS'
  rw [hU] at hS'
  exact Option.some.inj hS'

/-- The block that was current in `S` holds the first of the new records. -/
theorem Appending.blockRecs_current (h : Appending L S p page rs U) (hS : TidyTree L S)
    (hp : S.findNode page = some p) (hidx : (S.recTreeNodes p).memRecIdx = 0)
    {pre : List ℕ} {e n : ℕ} (hb : S.oldestFirst p = pre ++ [e]) (hn : n ≤ memRecPerEntry)
    (hle : n ≤ rs.length) : U.blockRecs e n = rs.take n := by
  have he := mem_blocks_of_oldestFirst hb
  have hlen : (S.records p).length = memRecPerEntry * pre.length := by
    have hblocks := congrArg List.length hb
    rw [oldestFirst, List.length_reverse, List.length_append, List.length_singleton] at hblocks
    rw [length_records (hS.tidy p (mem_nodes_of_findNode hp)), recCount, hidx, hblocks]
    rfl
  refine List.ext_getElem? fun i => ?_
  by_cases hi : i < n
  · have hslot := h.slot hb (hi.trans_le hn) (by rw [List.length_append, hlen]; omega)
    rw [List.getElem?_append_right (by omega), hlen, Nat.add_sub_cancel_left] at hslot
    rw [List.getElem?_take_of_lt hi, hslot, blockRecs, List.getElem?_map, List.getElem?_range hi,
      h.arrs e he]
    rfl
  · rw [List.getElem?_eq_none (by simpa using Nat.not_lt.1 hi),
      List.getElem?_eq_none (by simpa using Or.inl (Nat.not_lt.1 hi))]

/-- An iteration for an older block appends the records inside. -/
theorem pass_appends (ofa : ℤ → Option ℕ) (hS : TidyTree L S) (hp : S.findNode page = some p)
    (h : NodeInv S p)
    (hidx : (S.recTreeNodes p).memRecIdx = 0) (hw : (page + 1) * pageSize ≤ wordSize)
    (htail : tail < wordSize) {pre rest : List ℕ} {e : ℕ}
    (hb : S.oldestFirst p = pre ++ e :: rest) (hrest : rest ≠ [])
    (he : S.validRecs p e = S.blockRecs e memRecPerEntry)
    (hU : Appending L S p page (inside ptr tail page (pre.flatMap (S.validRecs p))) U) :
    moveRecs (steadyInsert L ofa) ptr ptr tail page (U.recBlockEntries e).recArr
      (List.range' 0 memRecPerEntry) U = runAll (steadyInsert L ofa)
        ((inside ptr tail page (S.blockRecs e memRecPerEntry)).map (moveCall ptr ptr page)) U ∧
    ∀ V, moveRecs (steadyInsert L ofa) ptr ptr tail page (U.recBlockEntries e).recArr
      (List.range' 0 memRecPerEntry) U = some V →
        Appending L S p page (inside ptr tail page ((pre ++ [e]).flatMap (S.validRecs p))) V := by
  have hpn := mem_nodes_of_findNode hp
  have hnd : (S.blocks p).Nodup := hS.owned.nodup_blocks hpn
  have hmem := mem_blocks_of_oldestFirst hb
  rw [hU.arrs e hmem]
  set arr := (S.recBlockEntries e).recArr with harr
  have hvalid : ∀ j < memRecPerEntry, S.slot arr j ∈ S.validRecs p e := fun j hj => by
    rw [he]
    exact List.mem_map.2 ⟨j, List.mem_range.2 hj, rfl⟩
  have hin : ∀ j < memRecPerEntry, 0 ≤ (S.slot arr j).pageOffset ∧
      (S.slot arr j).pageOffset < pageSize := fun j hj =>
    h.inPage _ (mem_records_of_validRecs h.tidy hnd hmem (hvalid j hj))
  have hlt : ∀ i j, i < j → j < memRecPerEntry →
      (S.slot arr i).pageOffset < (S.slot arr j).pageOffset := by
    intro i j hij hj
    have hpair := validRecs_pairwise h hnd hmem
    rw [he] at hpair
    have hpair := List.pairwise_iff_getElem.1 hpair i j (by simpa using hij.trans hj)
      (by simpa using hj) hij
    simpa [blockRecs] using hpair
  -- the records of the blocks before this one come before its own
  have hbefore : ∀ a ∈ pre.flatMap (S.validRecs p), ∀ j < memRecPerEntry,
      a.pageOffset < (S.slot arr j).pageOffset := by
    intro a ha j hj
    have hasc := h.ascending
    rw [records_eq_validRecs h.tidy hnd, hb, List.flatMap_append] at hasc
    refine (List.pairwise_append.1 hasc).2.2 a ha _ ?_
    rw [List.flatMap_cons]
    exact List.mem_append_left _ (hvalid j hj)
  have hnext : ∀ j, S.blockRecs e (j + 1) = S.blockRecs e j ++ [S.slot arr j] :=
    fun j => blockRecs_succ e j
  have hend : (pre ++ [e]).flatMap (S.validRecs p) =
      pre.flatMap (S.validRecs p) ++ S.blockRecs e memRecPerEntry := by
    rw [List.flatMap_append, List.flatMap_singleton, he]
  rw [hend]
  refine ReadsAs.block_eq (P := fun j U => Appending L S p page
      (inside ptr tail page (pre.flatMap (S.validRecs p) ++ S.blockRecs e j)) U)
    ⟨?_, ?_, ?_, fun i j hij hj => addr_lt_of_offset_lt hw (hin i (hij.trans hj)).1 (hin j hj).2
      (hlt i j hij hj)⟩ ?_
  · intro j hj W hW
    exact hW.slot_older hS hp hidx hb hrest hj
  · intro j hj W hW hr
    rw [hnext, ← List.append_assoc, inside_append,
      show inside ptr tail page [S.slot arr j] = [] from inside_cons_of_not hr, List.append_nil]
    exact hW
  · intro j hj W W' hW hr hstep
    obtain ⟨hpage, hoff, hrec⟩ := moveCall_self hw htail (hin j hj).1 (hin j hj).2 hr
    rw [hnext, ← List.append_assoc, inside_append,
      show inside ptr tail page [S.slot arr j] = [S.slot arr j] from inside_cons_of_inside hr]
    rw [← hpage] at hW
    have hnew := hW.next (fun a ha => ?_) hstep
    · rw [hpage, hrec] at hnew
      exact hnew
    · rw [hoff]
      rw [hpage] at ha
      rcases List.mem_append.1 (mem_inside.1 ha).1 with ha | ha
      · exact hbefore a ha j hj
      · obtain ⟨i, hi, rfl⟩ := List.mem_map.1 ha
        exact hlt i j (List.mem_range.1 hi) hj
  · rw [show S.blockRecs e 0 = [] from rfl, List.append_nil]
    exact hU

/-- What is left of a page whose current block was empty: the first of the
records inside, as many as its newest block holds when all are appended. -/
def Overwritten (S : RecTree) (ptr tail page p : ℕ) (l : List MemRec) : Prop :=
  (inside ptr tail page (S.records p) = [] ∧ l = S.records p) ∨
    (inside ptr tail page (S.records p) ≠ [] ∧ ∃ n ≤ memRecPerEntry,
      l = (inside ptr tail page (S.records p)).take n ∧
      ((inside ptr tail page (S.records p)).length ≤ memRecPerEntry →
        (inside ptr tail page (S.records p)).length ≤ n))

/-- The iteration for the block that was current: it inserts again the first of
the records that were appended. -/
def lastStep (T : RecTree) (ptr tail page p : ℕ) : MoveStep where
  page := page
  node := p
  block := (T.recTreeNodes p).recModEntry
  calls := ((inside ptr tail page (T.records p)).take
    (((inside ptr tail page (T.records p)).length - 1) % memRecPerEntry + 1)).map
      (moveCall ptr ptr page)

/-- The iterations for a page whose current block is empty. -/
def appendSteps (T : RecTree) (ptr tail page p : ℕ) : List MoveStep :=
  T.moveSteps ptr ptr tail page p (T.oldestFirst p).dropLast ++ [T.lastStep ptr tail page p]

theorem oldestFirst_eq (h : Tidy S p) :
    S.oldestFirst p = (S.oldestFirst p).dropLast ++ [(S.recTreeNodes p).recModEntry] := by
  obtain ⟨older, hb⟩ := h.blocks_eq
  rw [oldestFirst, hb, List.reverse_cons, List.dropLast_concat]

/-- Where an iteration stands in the list. -/
theorem appendSteps_split {pre rest : List MoveStep} {s : MoveStep}
    (h : S.appendSteps ptr tail page p = pre ++ s :: rest) :
    (∃ es₁ e es₂, (S.oldestFirst p).dropLast = es₁ ++ e :: es₂ ∧
      pre = S.moveSteps ptr ptr tail page p es₁ ∧ s = S.moveStep ptr ptr tail page p e ∧
      rest = S.moveSteps ptr ptr tail page p es₂ ++ [S.lastStep ptr tail page p]) ∨
    (pre = S.moveSteps ptr ptr tail page p (S.oldestFirst p).dropLast ∧
      s = S.lastStep ptr tail page p ∧ rest = []) := by
  rcases List.eq_nil_or_concat' rest with rfl | ⟨rest, c, rfl⟩
  · obtain ⟨rfl, hlast⟩ := List.append_inj' h rfl
    exact Or.inr ⟨rfl, (List.singleton_inj.1 hlast).symm, rfl⟩
  · rw [← List.cons_append, ← List.append_assoc] at h
    obtain ⟨hsteps, hlast⟩ := List.append_inj' h rfl
    obtain ⟨es₁, e, es₂, hes, rfl, rfl, rfl⟩ := moveSteps_split hsteps
    rw [← List.singleton_inj.1 hlast]
    exact Or.inl ⟨es₁, e, es₂, hes, rfl, rfl, rfl⟩

/-- An iteration for an older block. -/
theorem pass_older (ofa : ℤ → Option ℕ) (hS : TidyTree L S) (hp : S.findNode page = some p)
    (h : NodeInv S p)
    (hidx : (S.recTreeNodes p).memRecIdx = 0) (hw : (page + 1) * pageSize ≤ wordSize)
    (htail : tail < wordSize) {pre rest : List ℕ} {e : ℕ}
    (hb : S.oldestFirst p = pre ++ e :: rest) (hrest : rest ≠ [])
    (hU : Appending L S p page (inside ptr tail page (pre.flatMap (S.validRecs p))) U) :
    (loopOf L ptr ptr tail page p S).pass (steadyInsert L ofa) (e, U) =
      runAll (steadyInsert L ofa) (S.moveStep ptr ptr tail page p e).calls U ∧
    ∀ V, (loopOf L ptr ptr tail page p S).pass (steadyInsert L ofa) (e, U) = some V →
      V.tailqPrev e = rest.head? ∧
        Appending L S p page (inside ptr tail page ((pre ++ [e]).flatMap (S.validRecs p))) V := by
  have hnd : (S.blocks p).Nodup := hS.owned.nodup_blocks (mem_nodes_of_findNode hp)
  have hene : e ≠ (S.recTreeNodes p).recModEntry := fun heq =>
    hrest (newest_comes_last hnd (heq ▸ h.first) hb)
  have hlimit : ((loopOf L ptr ptr tail page p S).uplimit U e).toNat = memRecPerEntry := by
    rw [PageLoop.uplimit,
      if_neg (show ¬ e = (loopOf L ptr ptr tail page p S).mostRecBlock from hene)]
    rfl
  have hvalid : S.validRecs p e = S.blockRecs e memRecPerEntry := by
    rw [validRecs, copyLimit, if_neg hene]
    rfl
  rw [pass_eq e hlimit, moveStep, hvalid]
  obtain ⟨hcalls, hnew⟩ := pass_appends ofa hS hp h hidx hw htail hb hrest hvalid hU
  refine ⟨hcalls, fun V hV => ⟨?_, hnew V hV⟩⟩
  obtain ⟨f, rest, rfl⟩ := List.exists_cons_of_ne_nil hrest
  obtain ⟨front, hfront⟩ := (hnew V hV).blocks
  have hblocks : V.blocks p = (front ++ rest.reverse) ++ f :: e :: pre.reverse := by
    rw [hfront, ← List.reverse_reverse (S.blocks p), show (S.blocks p).reverse = _ from hb]
    simp
  exact tailqPrev_older (hnew V hV).tidy.owned (mem_nodes_of_findNode (hnew V hV).find) hblocks

/-- How many records the newest block holds when all are appended. -/
theorem Appending.idx_eq (h : Appending L S p page rs U) (hS : Tidy S p)
    (hidx : (S.recTreeNodes p).memRecIdx = 0) (hne : rs ≠ []) :
    (U.recTreeNodes p).memRecIdx.toNat = (rs.length - 1) % memRecPerEntry + 1 := by
  obtain ⟨front, -, hcount⟩ := h.counts hS hidx
  have hpos := h.idx_pos hne
  have hle := (h.tidy.tidy p (mem_nodes_of_findNode h.find)).idx_le
  simp only [memRecPerEntry] at *
  omega

/-- The iteration for the block that was current in `S`: it clears the page. -/
theorem pass_current (ofa : ℤ → Option ℕ) (hS : TidyTree L S) (hp : S.findNode page = some p)
    (h : NodeInv S p)
    (hidx : (S.recTreeNodes p).memRecIdx = 0) (hw : (page + 1) * pageSize ≤ wordSize)
    (htail : tail < wordSize)
    (hU : Appending L S p page (inside ptr tail page (S.records p)) U) :
    (loopOf L ptr ptr tail page p S).pass (steadyInsert L ofa)
        ((S.lastStep ptr tail page p).block, U) =
      runAll (steadyInsert L ofa) (S.lastStep ptr tail page p).calls U ∧
    ∀ V, (loopOf L ptr ptr tail page p S).pass (steadyInsert L ofa)
        ((S.lastStep ptr tail page p).block, U) = some V →
      V.tailqPrev (S.lastStep ptr tail page p).block = none ∧ TidyTree L V ∧ OnPage S V page ∧
        Overwritten S ptr tail page p (V.pageLists page) := by
  have hb := oldestFirst_eq h.tidy
  set pre := (S.oldestFirst p).dropLast
  set moved := inside ptr tail page (S.records p) with hmoved
  set n := (U.recTreeNodes p).memRecIdx.toNat with hn
  have hpU := mem_nodes_of_findNode hU.find
  have htidyU := hU.tidy.tidy p hpU
  have hn38 : n ≤ memRecPerEntry := Int.toNat_le.2 htidyU.idx_le
  obtain ⟨front, hfront, hcount⟩ := hU.counts h.tidy hidx
  rw [← hn] at hcount
  show (loopOf L ptr ptr tail page p S).pass _ ((S.recTreeNodes p).recModEntry, U) = _ ∧ ∀ V,
    (loopOf L ptr ptr tail page p S).pass _ ((S.recTreeNodes p).recModEntry, U) = some V →
      V.tailqPrev (S.recTreeNodes p).recModEntry = none ∧ _
  set e := (S.recTreeNodes p).recModEntry with hecur
  obtain ⟨older, holder⟩ : ∃ older, S.blocks p = e :: older := h.tidy.blocks_eq
  have heU : e ∈ U.blocks p := by simp [hfront, holder]
  have hlimit : ((loopOf L ptr ptr tail page p S).uplimit U e).toNat = n := by
    rw [PageLoop.uplimit, if_pos
      (show e = (loopOf L ptr ptr tail page p S).mostRecBlock from hecur),
      show (loopOf L ptr ptr tail page p S).res U = p from reread_of_walks L p hU.onPage.walks]
  rw [pass_eq e hlimit]
  have hrecs := hU.blockRecs_current hS hp hidx hb hn38 (by omega)
  have hasc : moved.Pairwise fun a b => a.pageOffset < b.pageOffset := h.ascending.filter _
  have hmem : ∀ r ∈ U.blockRecs e n, r ∈ moved := fun r hr => by
    rw [hrecs] at hr
    exact List.mem_of_mem_take hr
  have hall : inside ptr tail page (U.blockRecs e n) = moved.take n := by
    rw [← hrecs]
    exact List.filter_eq_self.2 fun r hr => decide_eq_true (mem_inside.1 (hmem r hr)).2
  have hcalls : (S.lastStep ptr tail page p).calls =
    (moved.take n).map (moveCall ptr ptr page) := by
    by_cases hnil : moved = []
    · rw [lastStep, ← hmoved, hnil, List.take_nil, List.take_nil]
    · rw [lastStep, ← hmoved, hn, hU.idx_eq h.tidy hidx hnil]
  obtain ⟨hrun, hrewrites⟩ := pass_rewrites ofa hU.tidy hU.find hw htail heU hn38
    (fun r hr => h.inPage r (mem_inside.1 (hmem r hr)).1)
    (hrecs ▸ hasc.sublist (List.take_sublist n moved)) (fun r hr => by
      have hne : moved ≠ [] := List.ne_nil_of_mem (hmem r hr)
      have hpos := hU.idx_pos hne
      refine ⟨hpos, offset_le_getLast hasc (hmem r hr) ?_⟩
      rw [← List.getLast?_append_of_ne_nil (S.records p) hne, ← hU.records]
      exact getLast?_records htidyU hpos)
  rw [hall] at hrun hrewrites
  refine ⟨by rw [hcalls]; exact hrun, fun V hV => ?_⟩
  obtain ⟨htidy, hon, ⟨hnone, rfl⟩ | ⟨hsome, hpV, b, hbmem, hrew⟩⟩ := hrewrites V hV
  · -- no record lies inside: the page is as it was
    have hnil : moved = [] := by
      by_contra hne
      have hzero := (List.take_eq_nil_iff.1 hnone).resolve_right hne
      rw [hzero] at hn
      exact Nat.not_lt.2 (Nat.le_of_eq hn.symm) (Int.pos_iff_toNat_pos.1 (hU.idx_pos hne))
    have hempty : front = [] := by
      rw [hnil, List.length_nil] at hcount
      exact List.length_eq_zero_iff.1 (by simp only [memRecPerEntry] at *; omega)
    rw [hempty, List.nil_append, holder] at hfront
    refine ⟨tailqPrev_first hU.tidy.owned hpU hfront, htidy, hU.onPage, Or.inl ⟨hnil, ?_⟩⟩
    rw [pageLists_of_findNode hU.find, hU.records, hnil, List.append_nil]
  · have hne : moved ≠ [] := fun hnil => hsome (by rw [hnil, List.take_nil])
    have hpos := hU.idx_pos hne
    refine ⟨hrew.tailqPrev htidy.owned (mem_nodes_of_findNode hpV) heU, htidy, hU.onPage.trans hon,
      Or.inr ⟨hne, n, hn38, ?_, fun hle : moved.length ≤ memRecPerEntry => ?_⟩⟩
    · rw [pageLists_of_findNode hpV, hrew.written]
    · show moved.length ≤ n
      simp only [memRecPerEntry] at *
      omega

/-- The loop over the blocks: all records inside are appended, and then the first
ones of them are inserted again. -/
theorem follows_appends (ofa : ℤ → Option ℕ) (hS : TidyTree L S) (hp : S.findNode page = some p)
    (h : NodeInv S p)
    (hidx : (S.recTreeNodes p).memRecIdx = 0) (hw : (page + 1) * pageSize ≤ wordSize)
    (htail : tail < wordSize) :
    (loopOf L ptr ptr tail page p S).Follows (steadyInsert L ofa) (S.appendSteps ptr tail page p)
      (fun j U => Appending L S p page
        (inside ptr tail page (((S.oldestFirst p).take j).flatMap (S.validRecs p))) U)
      fun V => TidyTree L V ∧ OnPage S V page ∧
        Overwritten S ptr tail page p (V.pageLists page) := by
  have hnd : (S.blocks p).Nodup := hS.owned.nodup_blocks (mem_nodes_of_findNode hp)
  have hlast := oldestFirst_eq h.tidy
  -- when the older blocks are done, all records inside have been appended
  have hall : ((S.oldestFirst p).take (S.moveSteps ptr ptr tail page p
      (S.oldestFirst p).dropLast).length).flatMap (S.validRecs p) = S.records p := by
    have hempty : S.validRecs p (S.recTreeNodes p).recModEntry = [] := by
      rw [validRecs, copyLimit, if_pos rfl, hidx]
      rfl
    rw [moveSteps, List.length_map, ← List.prefix_iff_eq_take.1 (List.dropLast_prefix _),
      records_eq_validRecs h.tidy hnd]
    conv_rhs => rw [hlast, List.flatMap_append, List.flatMap_singleton, hempty, List.append_nil]
  constructor
  · intro pre s rest U hs hU
    rcases appendSteps_split hs with ⟨es₁, e, es₂, hes, rfl, rfl, -⟩ | ⟨rfl, rfl, -⟩
    · have hb : S.oldestFirst p = es₁ ++ e :: (es₂ ++ [(S.recTreeNodes p).recModEntry]) := by
        rw [hlast, hes, List.append_assoc, List.cons_append]
      rw [moveSteps, List.length_map, hb, List.take_left] at hU
      exact (pass_older ofa hS hp h hidx hw htail hb (by simp) hU).1
    · rw [hall] at hU
      exact (pass_current ofa hS hp h hidx hw htail hU).1
  · intro pre s rest U V hs hU hV
    rcases appendSteps_split hs with ⟨es₁, e, es₂, hes, rfl, rfl, rfl⟩ | ⟨rfl, rfl, rfl⟩
    · have hb : S.oldestFirst p = es₁ ++ e :: (es₂ ++ [(S.recTreeNodes p).recModEntry]) := by
        rw [hlast, hes, List.append_assoc, List.cons_append]
      rw [moveSteps, List.length_map, hb, List.take_left] at hU
      obtain ⟨hcalls, hnew⟩ := pass_older ofa hS hp h hidx hw htail hb (by simp) hU
      obtain ⟨hprev, hnew⟩ := hnew V (hcalls.trans hV)
      refine ⟨hprev.trans ?_, fun _ => ?_, fun hend => absurd hend (by simp)⟩
      · cases es₂ <;> rfl
      · rw [moveSteps, List.length_map, hb, List.take_length_add_append]
        exact hnew
    · rw [hall] at hU
      obtain ⟨hcalls, hnew⟩ := pass_current ofa hS hp h hidx hw htail hU
      obtain ⟨hprev, hend⟩ := hnew V (hcalls.trans hV)
      exact ⟨hprev, fun hne => absurd rfl hne, fun _ => hend⟩

/-! ## The pages of the block -/

/-- What becomes of the records of the node `p` of a page. -/
def Rewritten (S : RecTree) (ptr tail page p : ℕ) (l : List MemRec) : Prop :=
  (inside ptr tail page (S.records p) = [] ∧ l = S.records p) ∨
  (inside ptr tail page (S.records p) ≠ [] ∧ 0 < (S.recTreeNodes p).memRecIdx ∧
    ∃ e ∈ S.blocks p, inside ptr tail page (S.validRecs p e) ≠ [] ∧
      l = inside ptr tail page (S.validRecs p e)) ∨
  (inside ptr tail page (S.records p) ≠ [] ∧ (S.recTreeNodes p).memRecIdx = 0 ∧
    ∃ n ≤ memRecPerEntry, l = (inside ptr tail page (S.records p)).take n ∧
      ((inside ptr tail page (S.records p)).length ≤ memRecPerEntry →
        (inside ptr tail page (S.records p)).length ≤ n))

theorem SameNode.validRecs (h : SameNode T U p) (ht : Tidy T p) {e : ℕ} (he : e ∈ T.blocks p) :
    U.validRecs p e = T.validRecs p e := by
  have hlimit : U.copyLimit p (U.recTreeNodes p).recModEntry memRecPerEntry e =
      T.copyLimit p (T.recTreeNodes p).recModEntry memRecPerEntry e := by
    rw [copyLimit, copyLimit, h.node]
  rw [RecTree.validRecs, RecTree.validRecs, hlimit]
  exact h.blockRecs he (Int.toNat_le.2 (copyLimit_le ht e))

theorem Rewritten.of_same {l : List MemRec} (h : SameNode T U p) (ht : Tidy T p)
    (hl : Rewritten U ptr tail page p l) : Rewritten T ptr tail page p l := by
  unfold Rewritten at hl ⊢
  rw [h.records ht.idx_le, h.node, h.blocks] at hl
  refine hl.imp_right (Or.imp_left ?_)
  rintro ⟨hne, hidx, e, he, hsome, heq⟩
  rw [h.validRecs ht he] at hsome heq
  exact ⟨hne, hidx, e, he, hsome, heq⟩

/-- The iterations for a page of a block that has stayed. -/
def stayedSteps (T : RecTree) (ptr tail page p : ℕ) : List MoveStep :=
  if 0 < (T.recTreeNodes p).memRecIdx then
    T.moveSteps ptr ptr tail page p (T.untilInside ptr tail page p (T.oldestFirst p))
  else T.appendSteps ptr tail page p

theorem head_stayedSteps (h : Tidy S p) :
    (S.stayedSteps ptr tail page p).head?.map MoveStep.block = (S.oldestFirst p).head? := by
  unfold stayedSteps
  split
  · rw [head_moveSteps, head_untilInside]
  · have hlast := oldestFirst_eq h
    unfold appendSteps
    cases hfirst : (S.oldestFirst p).dropLast with
    | nil =>
      rw [hfirst] at hlast
      rw [hlast]
      rfl
    | cons e es =>
      rw [hfirst] at hlast
      rw [hlast]
      rfl

/-- What the loop over the blocks of a page does. -/
theorem follows_stayed (ofa : ℤ → Option ℕ) (hS : TidyTree L S) (hp : S.findNode page = some p)
    (h : NodeInv S p)
    (hw : (page + 1) * pageSize ≤ wordSize) (htail : tail < wordSize) :
    ∃ I, I 0 S ∧ (loopOf L ptr ptr tail page p S).Follows (steadyInsert L ofa)
      (S.stayedSteps ptr tail page p) I fun V =>
        TidyTree L V ∧ OnPage S V page ∧ Rewritten S ptr tail page p (V.pageLists page) := by
  have hnd : (S.blocks p).Nodup := hS.owned.nodup_blocks (mem_nodes_of_findNode hp)
  have hinside : inside ptr tail page (S.records p) =
      (S.oldestFirst p).flatMap fun e => inside ptr tail page (S.validRecs p e) := by
    rw [records_eq_validRecs h.tidy hnd, inside, List.filter_flatMap]
    rfl
  unfold stayedSteps
  split
  · rename_i hidx
    refine ⟨_, rfl, (follows_rewrites ofa hS hp h hidx hw htail).imp ?_⟩
    rintro V ⟨htidy, hon, ⟨hnone, rfl⟩ | ⟨e, he, hsome, hl⟩⟩
    · refine ⟨htidy, hon, Or.inl ⟨?_, pageLists_of_findNode hp⟩⟩
      rw [hinside]
      exact List.flatMap_eq_nil_iff.2 hnone
    · refine ⟨htidy, hon, Or.inr (Or.inl ⟨fun hnil => hsome ?_, hidx, e, List.mem_reverse.1 he,
        hsome, hl⟩)⟩
      rw [hinside] at hnil
      exact List.flatMap_eq_nil_iff.1 hnil e he
  · rename_i hidx
    have hzero : (S.recTreeNodes p).memRecIdx = 0 :=
      Int.le_antisymm (Int.not_lt.1 hidx) h.idx_nonneg
    refine ⟨_, Appending.refl hS hp hzero, (follows_appends ofa hS hp h hzero hw htail).imp ?_⟩
    rintro V ⟨htidy, hon, ⟨hnil, hl⟩ | ⟨hsome, n, hn, hl, hle⟩⟩
    · exact ⟨htidy, hon, Or.inl ⟨hnil, hl⟩⟩
    · exact ⟨htidy, hon, Or.inr (Or.inr ⟨hsome, hzero, n, hn, hl, hle⟩)⟩

/-- What the loop over the pages does to one of them. -/
theorem movePage_inPlace (hS : TidyTree L S) (hp : S.findNode page = some p) (h : NodeInv S p)
    (hw : (page + 1) * pageSize ≤ wordSize) (htail : tail < wordSize) {fuel : ℕ}
    (hV : movePage L (steadyInsert L ofa) fuel ptr ptr tail page S = some V) :
    TidyTree L V ∧ OnPage S V page ∧ Rewritten S ptr tail page p (V.pageLists page) := by
  rw [movePage_eq hp] at hV
  obtain ⟨e, he, hrun⟩ := Option.bind_eq_some_iff.1 hV
  rw [(SameNode.refl S p).tailqLast, ← head_stayedSteps h.tidy] at he
  obtain ⟨s, hs, rfl⟩ := Option.map_eq_some_iff.1 he
  obtain ⟨rest, hsteps⟩ := List.head?_eq_some_iff.1 hs
  obtain ⟨I, hI, hfollows⟩ := follows_stayed ofa hS hp h hw htail
  exact (hfollows.run_eq (hsteps.trans (List.nil_append _).symm) hI hrun).2

/-- What a call does to the pages of a block that has stayed. -/
theorem tsRealloc_inPlace (hrep : Rep L T) (htail : tail < wordSize) {fuel : ℕ}
    (h : tsRealloc L (steadyInsert L ofa) fuel ptr ptr tail T = some T') :
    ∀ page ∈ pagesFrom (addr2PageNum ptr) (addr2PageNum tail), ∀ p, T.findNode page = some p →
      Rewritten T ptr tail page p (T'.pageLists page) := by
  have hfits : ∀ page ∈ pagesFrom (addr2PageNum ptr) (addr2PageNum tail),
      (page + 1) * pageSize ≤ wordSize := fun page hpage => page_fits_of_mem htail hpage
  have hnd : (pagesFrom (addr2PageNum ptr) (addr2PageNum tail)).Nodup := List.nodup_range'
  have hapart : Apart L (pagesFrom (addr2PageNum ptr) (addr2PageNum tail)) T T :=
    Apart.refl hrep.owned hrep.tidyTree.placed
  rw [tsRealloc] at h
  generalize pagesFrom (addr2PageNum ptr) (addr2PageNum tail) = pages at *
  -- a page is dealt with once, and then left alone
  suffices hrun : ∀ U, TidyTree L U → Apart L pages T U →
      runAll (movePage L (steadyInsert L ofa) fuel ptr ptr tail) pages U = some T' →
      (∀ page ∈ pages, ∀ p, T.findNode page = some p →
        Rewritten T ptr tail page p (T'.pageLists page)) ∧
      ∀ page, page ∉ pages → T'.pageLists page = U.pageLists page from
    (hrun T hrep.tidyTree hapart h).1
  clear h hapart
  induction pages with
  | nil =>
    intro U _ _ h
    cases h
    exact ⟨fun page hpage => absurd hpage List.not_mem_nil, fun _ _ => rfl⟩
  | cons page pages ih =>
    intro U hU hapart h
    obtain ⟨V, hV, hrest⟩ := runAll_cons_eq_some.1 h
    obtain ⟨hfresh, hnd⟩ := List.nodup_cons.1 hnd
    have hfind := hapart.find page (List.mem_cons_self ..)
    have hpages := hapart.subset (List.subset_cons_self page pages)
    have hstep : TidyTree L V ∧ OnPage U V page ∧ ∀ p, T.findNode page = some p →
        Rewritten T ptr tail page p (V.pageLists page) := by
      cases hp : T.findNode page with
      | none =>
        rw [hp] at hfind
        simp only [movePage, hfind, Option.some.injEq] at hV
        subst hV
        exact ⟨hU, OnPage.refl hU.placed page, fun p hp => absurd hp.symm (Option.some_ne_none p)⟩
      | some p =>
        rw [hp] at hfind
        have hinv := hrep.node p (mem_nodes_of_findNode hp)
        have hsame := hapart.same page (List.mem_cons_self ..) p hp
        obtain ⟨htidy, hon, hl⟩ := movePage_inPlace hU hfind (hsame.nodeInv hinv)
          (hfits page (List.mem_cons_self ..)) htail hV
        refine ⟨htidy, hon, fun q hq => ?_⟩
        cases hq
        exact hl.of_same hsame hinv.tidy
    obtain ⟨htidy, hon, hl⟩ := hstep
    obtain ⟨hlater, hothers⟩ := ih (fun other hother => hfits other (List.mem_cons_of_mem _ hother))
      hnd V htidy (hpages.onPage htidy.owned hon hfresh) hrest
    refine ⟨List.forall_mem_cons.2 ⟨fun p hp => ?_, hlater⟩, fun other hother => ?_⟩
    · rw [hothers page hfresh]
      exact hl p hp
    · obtain ⟨hne, hother⟩ := not_or.1 (List.mem_cons.not.1 hother)
      rw [hothers other hother]
      exact pageLists_of_onPage hU.owned htidy.owned hU.placed hon hne

end RecTree

end Cidl
