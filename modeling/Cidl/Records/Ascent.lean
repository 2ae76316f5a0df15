import Cidl.Records.Refinement

/-!
# Insertions in the order of their addresses

A run of insertions that go to ascending addresses and reclaim no garbage clears
a page at its first record there, if at all: behind its own record a page is
never cleared by the next one.  So every record of the run is in the tree at the
end, and of the records that were there before exactly those of the pages that
the first insertion did not clear (`mem_pageLists_run`).
-/

namespace Cidl

open SearchTree Shape

namespace RecTree

variable {L : Libc} {T T' : RecTree} {ofa : ℤ → Option ℕ} {p page : ℕ} {c : InsertCall}

/-- Every object has one owner, and every node appends to its newest block. -/
structure TidyTree (L : Libc) (T : RecTree) : Prop where
  owned : Owned L T.shape
  tidy : ∀ q ∈ T.nodes, Tidy T q

theorem Rep.tidyTree (h : Rep L T) : TidyTree L T := ⟨h.owned, h.tidy⟩

theorem TidyTree.placed (h : TidyTree L T) : ∀ q ∈ T.nodes, Placed T q :=
  fun q hq => (h.tidy q hq).placed

theorem TidyTree.steadyInsert (h : TidyTree L T) (hc : steadyInsert L ofa c T = some T') :
    TidyTree L T' := by
  obtain ⟨hsteady, hc⟩ := steadyInsert_eq_some hc
  exact ⟨owned_insertRec h.owned hc, tidy_insertRec h.owned h.tidy hsteady hc⟩

/-- What the insertion does to the lists of the pages. -/
theorem TidyTree.pageLists (h : TidyTree L T) (hc : RecTree.steadyInsert L ofa c T = some T') :
    T'.pageLists = Function.update T.pageLists (addr2PageNum c.dest)
      ((if T.Clears c.dest then [] else T.pageLists (addr2PageNum c.dest)) ++
        [recordOf c (addr2PageNum c.dest)]) := by
  obtain ⟨hsteady, hc⟩ := steadyInsert_eq_some hc
  exact pageLists_insertRec h.owned h.tidy hsteady hc

/-- The insertion changes its own page only. -/
theorem TidyTree.onPage (h : TidyTree L T) (hc : RecTree.steadyInsert L ofa c T = some T') :
    OnPage T T' (addr2PageNum c.dest) := by
  obtain ⟨hsteady, hc⟩ := steadyInsert_eq_some hc
  exact onPage_insertRec h.owned h.placed hsteady hc

/-- Whether another page is cleared does not depend on what happens on this one. -/
theorem clears_of_onPage (ho : Owned L T.shape) (ho' : Owned L T'.shape)
    (hall : ∀ q ∈ T.nodes, Placed T q) (h : OnPage T T' page) {dest : ℕ}
    (hne : addr2PageNum dest ≠ page) : T'.Clears dest ↔ T.Clears dest := by
  unfold Clears
  rw [h.findNode ho ho' hne]
  refine exists_congr fun q => and_congr_right fun hq => ?_
  obtain ⟨hqn, hkey⟩ := (findNode_eq_some ho).1 hq
  have hsame := (h.others q hqn (hkey ▸ hne)).2
  have hpl := hall q hqn
  have hcur : T'.curArr q = T.curArr q := by
    rw [curArr, curArr, hsame.node, hsame.entries _ hpl.mem]
  unfold mustClear
  rw [hcur, hsame.node]
  refine and_congr_right fun hpos => ?_
  have hle := hpl.le
  rw [show T'.slot (T.curArr q) ((T.recTreeNodes q).memRecIdx - 1) =
    T.slot (T.curArr q) ((T.recTreeNodes q).memRecIdx - 1) from
      hsame.slots _ hpl.mem _ (by omega) (by omega)]

/-- A page whose last record lies below the destination is not cleared. -/
theorem not_clears_of_last (h : TidyTree L T) {dest : ℕ} {r : MemRec}
    (hlast : (T.pageLists (addr2PageNum dest)).getLast? = some r)
    (hlt : r.pageOffset < addr2PageOffset dest) : ¬ T.Clears dest := by
  rintro ⟨p, hp, hpos, hle⟩
  rw [pageLists_of_findNode hp, getLast?_records (h.tidy p (mem_nodes_of_findNode hp)) hpos,
    Option.some.injEq] at hlast
  rw [hlast] at hle
  omega

/-- The offsets on one page are ordered as the addresses. -/
theorem offset_lt_of_page {a b : ℕ} (hpage : addr2PageNum a = addr2PageNum b) (hlt : a < b) :
    addr2PageOffset a < addr2PageOffset b := by
  rw [addr2PageOffset_eq, addr2PageOffset_eq]
  simp only [addr2PageNum, pageSize] at *
  omega

/-- The insertions of a list that go to a page. -/
def callsTo (cs : List InsertCall) (page : ℕ) : List InsertCall :=
  cs.filter fun c => decide (addr2PageNum c.dest = page)

/-- The first insertion to the page clears it. -/
def ClearedBy (T : RecTree) (cs : List InsertCall) (page : ℕ) : Prop :=
  ∃ c ∈ (callsTo cs page).head?, T.Clears c.dest

instance (T : RecTree) (cs : List InsertCall) (page : ℕ) : Decidable (T.ClearedBy cs page) :=
  inferInstanceAs (Decidable (∃ c ∈ _, _))

/-- The records of a page after a run of insertions to ascending addresses. -/
theorem mem_pageLists_run {cs : List InsertCall} (hT : TidyTree L T)
    (hasc : cs.Pairwise fun c d => c.dest < d.dest)
    (h : runAll (steadyInsert L ofa) cs T = some T') (page : ℕ) (r : MemRec) :
    r ∈ T'.pageLists page ↔ (∃ c ∈ callsTo cs page, r = recordOf c page) ∨
      (r ∈ T.pageLists page ∧ ¬ T.ClearedBy cs page) := by
  induction cs generalizing T with
  | nil =>
    cases h
    simp [callsTo, ClearedBy]
  | cons c cs ih =>
    obtain ⟨U, hU, hrest⟩ := runAll_cons_eq_some.1 h
    obtain ⟨hfirst, hasc⟩ := List.pairwise_cons.1 hasc
    have hTU := hT.steadyInsert hU
    have hlists := hT.pageLists hU
    rw [ih hTU hasc hrest]
    by_cases hpage : addr2PageNum c.dest = page
    · subst hpage
      have hcalls : callsTo (c :: cs) (addr2PageNum c.dest) =
          c :: callsTo cs (addr2PageNum c.dest) := by simp [callsTo]
      -- no later insertion clears the page
      have hkeep : ¬ U.ClearedBy cs (addr2PageNum c.dest) := by
        rintro ⟨d, hd, hclears⟩
        obtain ⟨hdmem, hdpage⟩ := List.mem_filter.1 (List.mem_of_mem_head? hd)
        have hdpage := of_decide_eq_true hdpage
        refine not_clears_of_last hTU (r := recordOf c (addr2PageNum c.dest)) ?_ ?_ hclears
        · rw [hdpage, hlists, Function.update_self, List.getLast?_concat]
        · rw [recordOf_pageOffset]
          exact offset_lt_of_page hdpage.symm (hfirst d hdmem)
      have hcleared : T.ClearedBy (c :: cs) (addr2PageNum c.dest) ↔ T.Clears c.dest := by
        simp [ClearedBy, hcalls]
      rw [hcleared, hcalls, hlists, Function.update_self]
      by_cases hclears : T.Clears c.dest
      · simp [hclears, hkeep, or_comm]
      · simp [hclears, hkeep, or_comm, or_assoc]
    · have hcalls : callsTo (c :: cs) page = callsTo cs page := by simp [callsTo, hpage]
      have hcleared : U.ClearedBy cs page ↔ T.ClearedBy (c :: cs) page := by
        unfold ClearedBy
        rw [hcalls]
        refine exists_congr fun d => and_congr_right fun hd => ?_
        have hdpage := of_decide_eq_true (List.mem_filter.1 (List.mem_of_mem_head? hd)).2
        exact clears_of_onPage hT.owned hTU.owned hT.placed (hT.onPage hU)
          fun heq => hpage (heq.symm.trans hdpage)
      rw [hcleared, hcalls, hlists, Function.update_of_ne (Ne.symm hpage)]

/-! ## The invariant along the run -/

/-- Behind its last record a page hides nothing. -/
theorem not_hidesLast_of_last {dest : ℕ} {r : MemRec}
    (hlast : (T.pageLists (addr2PageNum dest)).getLast? = some r)
    (hlt : r.pageOffset < addr2PageOffset dest) : ¬ T.HidesLast dest := by
  rintro ⟨p, hp, -, a, ha, hle⟩
  rw [pageLists_of_findNode hp, Option.mem_def.1 ha, Option.some.injEq] at hlast
  subst hlast
  omega

/-- What another page hides does not depend on what happens on this one. -/
theorem hidesLast_of_onPage (ho : Owned L T.shape) (ho' : Owned L T'.shape)
    (hall : ∀ q ∈ T.nodes, Placed T q) (h : OnPage T T' page) {dest : ℕ}
    (hne : addr2PageNum dest ≠ page) : T'.HidesLast dest ↔ T.HidesLast dest := by
  unfold HidesLast
  rw [h.findNode ho ho' hne]
  refine exists_congr fun q => and_congr_right fun hq => ?_
  obtain ⟨hqn, hkey⟩ := (findNode_eq_some ho).1 hq
  have hsame := (h.others q hqn (hkey ▸ hne)).2
  rw [hsame.node, hsame.records (hall q hqn).le]

/-- A run of insertions to ascending addresses keeps the invariant when no page
hides a record from its first insertion. -/
theorem rep_run_ascending {cs : List InsertCall} (hrep : Rep L T)
    (hasc : cs.Pairwise fun c d => c.dest < d.dest) (hhides : ∀ c ∈ cs, ¬ T.HidesLast c.dest)
    (h : runAll (steadyInsert L ofa) cs T = some T') : Rep L T' := by
  induction cs generalizing T with
  | nil =>
    cases h
    exact hrep
  | cons c cs ih =>
    obtain ⟨U, hU, hrest⟩ := runAll_cons_eq_some.1 h
    obtain ⟨hfirst, hasc⟩ := List.pairwise_cons.1 hasc
    obtain ⟨hc, hhides⟩ := List.forall_mem_cons.1 hhides
    have hT := hrep.tidyTree
    obtain ⟨hsteady, hinsert⟩ := steadyInsert_eq_some hU
    have hrepU := (refines_of_not_hidesLast hrep hsteady hinsert hc).2
    refine ih hrepU hasc (fun d hd => ?_) hrest
    by_cases hpage : addr2PageNum d.dest = addr2PageNum c.dest
    · refine not_hidesLast_of_last (r := recordOf c (addr2PageNum c.dest)) ?_ ?_
      · rw [hpage, hT.pageLists hU, Function.update_self, List.getLast?_concat]
      · rw [recordOf_pageOffset]
        exact offset_lt_of_page hpage.symm (hfirst d hd)
    · exact (hidesLast_of_onPage hT.owned hrepU.owned hT.placed (hT.onPage hU) hpage).not.2
        (hhides d hd)

end RecTree

end Cidl
