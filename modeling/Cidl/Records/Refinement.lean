import Cidl.Records.Traced

/-!
# The record tree as append-only lists

What `insertRec` is for, without blocks, cursors and pools: every page has a
list of records, and a new one goes behind the others, unless the last of them
lies at or behind it; then the page is forgotten first (`appendRec`).
`pageLists` reads these lists off a record tree.

* `pageLists_insertRec` — what the code does to the lists, for every insertion
  that does not reclaim garbage.  It forgets the page under `Clears`, which
  looks at the current block only.
* `insertRec_refines_iff` — it follows the abstract rule unless the current
  block is empty and older ones hold a record at or behind the new one.
* `pageLists_run` — a run of insertions that do not meet this case is a run of
  the abstract rule.
-/

namespace Cidl

open SearchTree Shape

namespace RecTree

variable {L : Libc} {T T' : RecTree} {ofa : ℤ → Option ℕ} {p page : ℕ} {c : InsertCall}

/-! ## The abstract rule -/

/-- The last record of `l` lies at or behind the offset `off`. -/
def Overtakes (l : List MemRec) (off : ℤ) : Prop := ∃ a ∈ l.getLast?, off ≤ a.pageOffset

instance (l : List MemRec) (off : ℤ) : Decidable (Overtakes l off) :=
  inferInstanceAs (Decidable (∃ a ∈ _, _))

/-- A new record of a page with the records `l`. -/
def appendRec (l : List MemRec) (r : MemRec) : List MemRec :=
  if Overtakes l r.pageOffset then [r] else l ++ [r]

/-- The records of every page, and one more on the page `page`. -/
def appendTo (lists : ℕ → List MemRec) (page : ℕ) (r : MemRec) : ℕ → List MemRec :=
  Function.update lists page (appendRec (lists page) r)

theorem not_overtakes_nil (off : ℤ) : ¬ Overtakes [] off := by simp [Overtakes]

/-! ## The lists of a record tree -/

/-- The records of each page, oldest first; none where the page has no node. -/
def pageLists (T : RecTree) (page : ℕ) : List MemRec := (T.findNode page).elim [] T.records

theorem pageLists_of_findNode (hp : T.findNode page = some p) : T.pageLists page = T.records p := by
  rw [pageLists, hp]
  rfl

theorem pageLists_of_none (hp : T.findNode page = none) : T.pageLists page = [] := by
  rw [pageLists, hp]
  rfl

/-- Other pages keep their lists. -/
theorem pageLists_of_onPage (ho : Owned L T.shape) (ho' : Owned L T'.shape)
    (hall : ∀ q ∈ T.nodes, Placed T q) (h : OnPage T T' page) {other : ℕ} (hne : other ≠ page) :
    T'.pageLists other = T.pageLists other := by
  have hfind := h.findNode ho ho' hne
  cases hq : T.findNode other with
  | none =>
    rw [hq] at hfind
    rw [pageLists_of_none hq, pageLists_of_none hfind]
  | some q =>
    rw [hq] at hfind
    obtain ⟨hqn, hkey⟩ := (findNode_eq_some ho).1 hq
    rw [pageLists_of_findNode hq, pageLists_of_findNode hfind]
    exact (h.others q hqn (hkey ▸ hne)).2.records (hall q hqn).le

/-! ## What the code does to the lists -/

/-- `insertRec` clears the page of `dest`. -/
def Clears (T : RecTree) (dest : ℕ) : Prop :=
  ∃ p ∈ T.findNode (addr2PageNum dest), T.mustClear p dest

instance (T : RecTree) (dest : ℕ) : Decidable (T.Clears dest) :=
  inferInstanceAs (Decidable (∃ p ∈ _, _))

/-- `writeRec` keeps the node of its page. -/
theorem findNode_writeRec (ho : Owned L T.shape) (hp : T.findNode page = some p)
    (h : writeRec L c page p T = some T') : T'.findNode page = some p := by
  refine (findNode_eq_some (owned_writeRec ho hp h)).2 ?_
  obtain ⟨hpn, hkey⟩ := (findNode_eq_some ho).1 hp
  rcases writeRec_eq_some hp h with ⟨-, rfl⟩ | ⟨-, e, arr, ep, ap, -, -, rfl⟩
  · refine ⟨by simpa [RecTree.nodes] using hpn, ?_⟩
    rw [setCursor_node]
    exact hkey
  · refine ⟨hpn, ?_⟩
    simpa [withBlock] using hkey

/-- The node stays tidy and gets the record. -/
theorem tidyNode_writeRec (ho : Owned L T.shape) (hp : T.findNode page = some p) (hn : Tidy T p)
    (h : writeRec L c page p T = some T') :
    T'.findNode page = some p ∧ Tidy T' p ∧ T'.records p = T.records p ++ [recordOf c page] :=
  ⟨findNode_writeRec ho hp h, tidy_writeRec ho hp hn h, records_writeRec ho hp hn h⟩

/-- The node of the page that an insertion writes to. -/
theorem findNode_insertRec (ho : Owned L T.shape) (htidy : ∀ q ∈ T.nodes, Tidy T q)
    (hsteady : ¬ (T.findNode (addr2PageNum c.dest) = none ∧ T.needsReclaim))
    (h : insertRec L ofa c T = some T') :
    ∃ p, T'.findNode (addr2PageNum c.dest) = some p ∧ Tidy T' p ∧ T'.records p =
      (if T.Clears c.dest then [] else T.pageLists (addr2PageNum c.dest)) ++
        [recordOf c (addr2PageNum c.dest)] := by
  show ∃ p, _ ∧ _ ∧ _ =
    (if (T.logCall c).Clears c.dest then [] else (T.logCall c).pageLists _) ++ _
  have hoU : Owned L (T.logCall c).shape := ho
  have htidyU : ∀ q ∈ (T.logCall c).nodes, Tidy (T.logCall c) q := fun q hq => by
    obtain ⟨h₁, h₂, h₃⟩ := htidy q hq
    exact ⟨h₁, h₂, h₃⟩
  have hsteadyU : ¬ ((T.logCall c).findNode (addr2PageNum c.dest) = none ∧
      (T.logCall c).needsReclaim) := hsteady
  clear ho htidy hsteady
  simp only [insertRec] at h
  generalize T.logCall c = U at h hoU htidyU hsteadyU ⊢
  split at h
  · rename_i p hp
    obtain ⟨V, hV, hW⟩ := Option.bind_eq_some_iff.1 h
    have hpn := mem_nodes_of_findNode hp
    have hoV := (owned_clearPage hoU hpn hV).1
    have hpV := findNode_clearPage hoU hp hV
    have hclears : U.Clears c.dest ↔ U.mustClear p c.dest := by simp [Clears, hp]
    rcases cleared_clearPage hoU hpn hV with ⟨hkeep, rfl⟩ | ⟨hclear, hempty⟩
    · rw [if_neg (hclears.not.2 hkeep), pageLists_of_findNode hp]
      exact ⟨p, tidyNode_writeRec hoU hp (htidyU p hpn) hW⟩
    · obtain ⟨hp', hn', hrec⟩ := tidyNode_writeRec hoV hpV hempty.inv.tidy hW
      rw [hempty.records] at hrec
      rw [if_pos (hclears.2 hclear)]
      exact ⟨p, hp', hn', hrec⟩
  · rename_i hnew
    obtain ⟨⟨p, V⟩, hV, h⟩ := Option.bind_eq_some_iff.1 h
    obtain ⟨hoV, hpV⟩ := owned_addTreeNode hoU hnew hV
    obtain ⟨W, hW, hV⟩ := Option.bind_eq_some_iff.1 hV
    rw [reclaimIfNeeded, if_neg fun hneeds => hsteadyU ⟨hnew, hneeds⟩] at hW
    cases hW
    obtain ⟨hempty, hinv, -⟩ := cleared_newTreeNode hoU hV
    have hclears : ¬ U.Clears c.dest := by simp [Clears, hnew]
    obtain ⟨hp', hn', hrec⟩ := tidyNode_writeRec hoV hpV hinv.tidy h
    rw [hempty] at hrec
    rw [if_neg hclears, pageLists_of_none hnew]
    exact ⟨p, hp', hn', hrec⟩

/-- An insertion without a reclaim keeps all nodes tidy. -/
theorem tidy_insertRec (ho : Owned L T.shape) (htidy : ∀ q ∈ T.nodes, Tidy T q)
    (hsteady : ¬ (T.findNode (addr2PageNum c.dest) = none ∧ T.needsReclaim))
    (h : insertRec L ofa c T = some T') : ∀ q ∈ T'.nodes, Tidy T' q := by
  intro q hq
  have hon := onPage_insertRec ho (fun q hq => (htidy q hq).placed) hsteady h
  by_cases hpage : (T'.recTreeNodes q).pageNum = addr2PageNum c.dest
  · obtain ⟨p, hp, hn, -⟩ := findNode_insertRec ho htidy hsteady h
    rw [(findNode_eq_some (owned_insertRec ho h)).2 ⟨hq, hpage⟩] at hp
    cases hp
    exact hn
  · obtain ⟨hqT, hne⟩ := hon.fresh q hq hpage
    exact (hon.others q hqT hne).2.tidy (htidy q hqT)

/-- What an insertion without a reclaim does to the lists of all pages. -/
theorem pageLists_insertRec (ho : Owned L T.shape) (htidy : ∀ q ∈ T.nodes, Tidy T q)
    (hsteady : ¬ (T.findNode (addr2PageNum c.dest) = none ∧ T.needsReclaim))
    (h : insertRec L ofa c T = some T') :
    T'.pageLists = Function.update T.pageLists (addr2PageNum c.dest)
      ((if T.Clears c.dest then [] else T.pageLists (addr2PageNum c.dest)) ++
        [recordOf c (addr2PageNum c.dest)]) := by
  have hplaced : ∀ q ∈ T.nodes, Placed T q := fun q hq => (htidy q hq).placed
  have hon := onPage_insertRec ho hplaced hsteady h
  funext other
  by_cases hother : other = addr2PageNum c.dest
  · subst hother
    obtain ⟨p, hp, -, hrec⟩ := findNode_insertRec ho htidy hsteady h
    rw [Function.update_self, pageLists_of_findNode hp, hrec]
  · rw [Function.update_of_ne hother]
    exact pageLists_of_onPage ho (owned_insertRec ho h) hplaced hon hother

/-! ## The refinement -/

/-- The current block of the page of `dest` is empty, and the last record of its
older blocks lies at or behind `dest`. -/
def HidesLast (T : RecTree) (dest : ℕ) : Prop :=
  ∃ p ∈ T.findNode (addr2PageNum dest), (T.recTreeNodes p).memRecIdx = 0 ∧
    Overtakes (T.records p) (addr2PageOffset dest)

instance (T : RecTree) (dest : ℕ) : Decidable (T.HidesLast dest) :=
  inferInstanceAs (Decidable (∃ p ∈ _, _))

/-- Clearing goes by the last record, where the current block has it. -/
theorem clears_iff (hrep : Rep L T) {dest : ℕ} : T.Clears dest ↔
    Overtakes (T.pageLists (addr2PageNum dest)) (addr2PageOffset dest) ∧ ¬ T.HidesLast dest := by
  cases hp : T.findNode (addr2PageNum dest) with
  | none =>
    rw [pageLists_of_none hp]
    simp [Clears, hp, not_overtakes_nil]
  | some p =>
    have hn := hrep.node p (mem_nodes_of_findNode hp)
    have hnonneg := hn.idx_nonneg
    rw [pageLists_of_findNode hp]
    simp only [Clears, HidesLast, hp, Option.mem_some_iff, exists_eq_left', mustClear]
    by_cases hidx : (T.recTreeNodes p).memRecIdx = 0
    · simp [hidx]
    · have hpos : 0 < (T.recTreeNodes p).memRecIdx := by omega
      simp [hidx, hpos, Overtakes, getLast?_records hn.tidy hpos]

theorem insertOk_of_not_hidesLast
    (hsteady : ¬ (T.findNode (addr2PageNum c.dest) = none ∧ T.needsReclaim))
    (h : ¬ T.HidesLast c.dest) : T.InsertOk c := by
  unfold InsertOk
  cases hp : T.findNode (addr2PageNum c.dest) with
  | none => exact fun hneeds => absurd ⟨hp, hneeds⟩ hsteady
  | some p =>
    intro hidx a ha
    by_contra hle
    exact h ⟨p, hp, hidx, a, ha, Int.not_lt.1 hle⟩

/-- The abstract rule, written as what the code does. -/
theorem appendRec_recordOf (l : List MemRec) (c : InsertCall) :
    appendRec l (recordOf c (addr2PageNum c.dest)) =
      (if Overtakes l (addr2PageOffset c.dest) then [] else l) ++
        [recordOf c (addr2PageNum c.dest)] := by
  rw [appendRec, recordOf_pageOffset]
  split <;> simp

/-- Where no last record is hidden, the insertion follows the abstract rule. -/
theorem refines_of_not_hidesLast (hrep : Rep L T)
    (hsteady : ¬ (T.findNode (addr2PageNum c.dest) = none ∧ T.needsReclaim))
    (h : insertRec L ofa c T = some T') (hhides : ¬ T.HidesLast c.dest) :
    T'.pageLists = appendTo T.pageLists (addr2PageNum c.dest)
      (recordOf c (addr2PageNum c.dest)) ∧ Rep L T' := by
  refine ⟨?_, rep_insertRec hrep (insertOk_of_not_hidesLast hsteady hhides) h⟩
  rw [pageLists_insertRec hrep.owned hrep.tidy hsteady h, appendTo, appendRec_recordOf]
  simp only [clears_iff hrep, hhides, not_false_eq_true, and_true]

/-- An insertion that does not reclaim garbage follows the abstract rule and
keeps the invariant, exactly when the last record of its page is not hidden by
an empty current block. -/
theorem insertRec_refines_iff (hrep : Rep L T)
    (hsteady : ¬ (T.findNode (addr2PageNum c.dest) = none ∧ T.needsReclaim))
    (h : insertRec L ofa c T = some T') :
    T'.pageLists = appendTo T.pageLists (addr2PageNum c.dest)
        (recordOf c (addr2PageNum c.dest)) ∧ Rep L T' ↔
      ¬ T.HidesLast c.dest := by
  refine ⟨fun hagree hhides => ?_, refines_of_not_hidesLast hrep hsteady h⟩
  -- the code appends behind a record that the rule would have forgotten
  have hkeep : ¬ T.Clears c.dest := fun hclears => ((clears_iff hrep).1 hclears).2 hhides
  obtain ⟨p, hp, -, hover⟩ := hhides
  rw [← pageLists_of_findNode hp] at hover
  have hne : T.pageLists (addr2PageNum c.dest) ≠ [] := by
    intro hnil
    rw [hnil] at hover
    exact not_overtakes_nil _ hover
  have heq := congrFun ((pageLists_insertRec hrep.owned hrep.tidy hsteady h).symm.trans hagree.1)
    (addr2PageNum c.dest)
  rw [appendTo, Function.update_self, Function.update_self, appendRec_recordOf, if_pos hover,
    if_neg hkeep] at heq
  exact hne (List.append_cancel_right heq)

/-- A run of insertions without a reclaim, of which none meets a hidden last
record, is a run of the abstract rule. -/
theorem pageLists_run {cs : List InsertCall} (hrep : Rep L T)
    (hmeets : Meets (fun c T => ¬ T.HidesLast c.dest) (steadyInsert L ofa) cs T)
    (h : runAll (steadyInsert L ofa) cs T = some T') :
    T'.pageLists = cs.foldl (fun lists c => appendTo lists (addr2PageNum c.dest)
      (recordOf c (addr2PageNum c.dest))) T.pageLists ∧ Rep L T' := by
  induction cs generalizing T with
  | nil =>
    cases h
    exact ⟨rfl, hrep⟩
  | cons c cs ih =>
    obtain ⟨U, hU, hrest⟩ := runAll_cons_eq_some.1 h
    obtain ⟨hsteady, hinsert⟩ := steadyInsert_eq_some hU
    obtain ⟨hlists, hrepU⟩ := refines_of_not_hidesLast hrep hsteady hinsert hmeets.1
    rw [List.foldl_cons, ← hlists]
    exact ih hrepU (hmeets.2 U hU) hrest

end RecTree

/-- The insertion of a record of the first byte of the file that `onePage` maps. -/
def firstByte (dest : ℕ) : InsertCall := ⟨0, 0x10000, dest, 100, 3, some 1⟩

/-- Behind a full block the record opens a new one. -/
theorem insertRec_refines_iff_fullBlock : ∃ s, plainRun (onePage 38) = some s ∧
    ¬ s.tree.HidesLast 0x500130 ∧
    ∃ T', RecTree.insertRec plainLibc s.maps.openFileArray (firstByte 0x500130) s.tree = some T' ∧
      T'.pageLists = RecTree.appendTo s.tree.pageLists 0x500
        (RecTree.recordOf (firstByte 0x500130) 0x500) ∧ RecTree.Rep plainLibc T' := by
  have hrun : (plainRun (onePage 38)).any fun s => decide ((∀ p ∈ s.tree.nodes,
        RecTree.NodeInv s.tree p) ∧ ¬ s.tree.needsReclaim ∧ ¬ s.tree.HidesLast 0x500130) &&
      (RecTree.insertRec plainLibc s.maps.openFileArray (firstByte 0x500130) s.tree).isSome := by
    decide +kernel
  obtain ⟨s, hs, hall⟩ := (Option.any_eq_true _ _).1 hrun
  obtain ⟨hstate, hsome⟩ := Bool.and_eq_true_iff.1 hall
  obtain ⟨hnodes, hneeds, hhides⟩ := of_decide_eq_true hstate
  obtain ⟨T', hT'⟩ := Option.isSome_iff_exists.1 hsome
  exact ⟨s, hs, hhides, T', hT', (RecTree.insertRec_refines_iff (rep_of_check hs hnodes)
    (fun h => hneeds h.2) hT').2 hhides⟩

/-- Forty records, of which the two in the second block are cut off again. -/
def emptiedBlock : List Call := onePage 40 ++ [.memcpyTraced 0x900000 0x500130 100]

/-- A record is written in front of the last one of the full block, and all of
that block's records stay. -/
theorem insertRec_hiddenLast : ∃ s, plainRun emptiedBlock = some s ∧ Reachable plainEnv s ∧
    RecTree.Rep plainLibc s.tree ∧ ¬ s.tree.needsReclaim ∧
    ∃ T', RecTree.insertRec plainLibc s.maps.openFileArray (firstByte 0x500100) s.tree = some T' ∧
      (T'.pageLists 0x500).length = 39 ∧
      T'.pageLists ≠ RecTree.appendTo s.tree.pageLists 0x500
        (RecTree.recordOf (firstByte 0x500100) 0x500) := by
  have hrun : (plainRun emptiedBlock).any fun s => decide ((∀ p ∈ s.tree.nodes,
        RecTree.NodeInv s.tree p) ∧ ¬ s.tree.needsReclaim ∧
        RecTree.appendTo s.tree.pageLists 0x500
          (RecTree.recordOf (firstByte 0x500100) 0x500) 0x500 =
          [RecTree.recordOf (firstByte 0x500100) 0x500]) &&
      (RecTree.insertRec plainLibc s.maps.openFileArray (firstByte 0x500100) s.tree).any fun T' =>
        decide ((T'.pageLists 0x500).length = 39) := by
    decide +kernel
  obtain ⟨s, hs, hall⟩ := (Option.any_eq_true _ _).1 hrun
  obtain ⟨hstate, hafter⟩ := Bool.and_eq_true_iff.1 hall
  obtain ⟨hnodes, hneeds, hrule⟩ := of_decide_eq_true hstate
  obtain ⟨T', hT', hlen⟩ := (Option.any_eq_true _ _).1 hafter
  have hlen' := of_decide_eq_true hlen
  have hreach := reachable_plainRun hs
  refine ⟨s, hs, hreach, ⟨reachable_owned hreach, hnodes⟩, hneeds, T', hT', hlen', fun heq => ?_⟩
  rw [heq, hrule] at hlen'
  cases hlen'

end Cidl
