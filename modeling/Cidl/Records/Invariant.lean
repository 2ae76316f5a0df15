import Cidl.Records.Counts
import Cidl.Records.Reclaim

/-!
# The representation invariant along runs

`Rep` does not survive everything the library does.  Three things break it, and
this module shows that nothing else does:

* an insertion whose node has an empty current block behind full ones is not
  checked against the records of those (`InsertOk`, first part);
* a reclaim mixes up the records of nodes with more than one block (`InsertOk`,
  second part);
* `ts_memcpy_traced` may cut its source page in an older block and leave the
  newer ones in front of it (`CutOk`).

`checkedInsert` is `insertRec` with the first condition checked, so that a call
that runs as well with it (`SafeCall`) meets the condition at every insertion.
A run of safe calls keeps the invariant (`reachable_nodeInv` in `Records.Runs`).
-/

namespace Cidl

open SearchTree Shape

namespace RecTree

variable {L : Libc} {T T' : RecTree} {ofa : ℤ → Option ℕ} {p : ℕ}

/-- The invariant is about the objects and their contents only. -/
theorem rep_congr (hrep : Rep L T) (hshape : T'.shape = T.shape)
    (hnodes : T'.recTreeNodes = T.recTreeNodes) (hent : T'.recBlockEntries = T.recBlockEntries)
    (hmem : T'.recMem = T.recMem) : Rep L T' where
  owned := hshape ▸ hrep.owned
  node q hq := by
    have hsame : SameNode T T' q :=
      { node := by rw [hnodes]
        queue := congrFun (congrArg Shape.queues hshape) _
        entries := fun e _ => by rw [hent]
        slots := fun e _ i _ _ => by rw [slot, slot, hmem] }
    rw [RecTree.nodes, hshape] at hq
    exact hsame.nodeInv (hrep.node q hq)

/-! ## Moving the cursor back -/

/-- Moving the cursor back in the newest block cuts the records there. -/
theorem records_setCursor_le {e : ℕ} {older : List ℕ} (hb : T.blocks p = e :: older) {k : ℤ}
    (hk : k ≤ (T.recTreeNodes p).memRecIdx) : (T.setCursor p e k).records p <+: T.records p := by
  rw [records, records, setCursor_node, blocks_setCursor, recordsOf_setCursor, hb, recordsOf,
    recordsOf]
  exact (List.prefix_append_right_inj _).2 (blockRecs_initial e (Int.toNat_le_toNat hk))

theorem nodeInv_setCursor (hn : NodeInv T p) {e : ℕ} {older : List ℕ}
    (hb : T.blocks p = e :: older) {k : ℤ} (h₀ : 0 ≤ k)
    (hk : k ≤ (T.recTreeNodes p).memRecIdx) : NodeInv (T.setCursor p e k) p := by
  have hpre := records_setCursor_le hb hk
  have hcur : (T.recTreeNodes p).recModEntry = e := by
    have := hn.first
    rw [hb] at this
    exact (Option.some.inj this).symm
  refine ⟨?_, ?_, ?_, ?_, ?_, ?_, ?_⟩
  · rw [blocks_setCursor, setCursor_node, hb]
    rfl
  · rw [setCursor_node]
    exact h₀
  · rw [setCursor_node]
    exact Int.le_trans hk hn.idx_le
  · intro f hf hne
    rw [setCursor_node] at hne
    rw [blocks_setCursor] at hf
    rw [setCursor_entry_of_ne hne]
    exact hn.full f hf (hcur ▸ hne)
  · rw [setCursor_node]
    exact setCursor_filled _ _
  · exact fun r hr => hn.inPage r (hpre.subset hr)
  · exact hn.ascending.sublist hpre.sublist

theorem rep_setCursor (hrep : Rep L T) (hp : p ∈ T.nodes) {e : ℕ} {older : List ℕ}
    (hb : T.blocks p = e :: older) {k : ℤ} (h₀ : 0 ≤ k)
    (hk : k ≤ (T.recTreeNodes p).memRecIdx) : Rep L (T.setCursor p e k) where
  owned := by simpa using hrep.owned
  node q hq := by
    rw [RecTree.nodes, shape_setCursor] at hq
    by_cases hqp : q = p
    · exact hqp ▸ nodeInv_setCursor (hrep.node p hp) hb h₀ hk
    · have he : e ∈ T.blocks p := by simp [hb]
      exact (sameNode_setCursor hqp fun hmem =>
        hqp (hrep.owned.owner_unique hq hp hmem he)).nodeInv (hrep.node q hq)

/-! ## Reclaiming nodes of one block -/

/-- Every page has a single block. -/
def OneBlock (T : RecTree) : Prop := ∀ q ∈ T.nodes, (T.blocks q).length = 1

instance (T : RecTree) : Decidable T.OneBlock := inferInstanceAs (Decidable (∀ q ∈ _, _))

theorem sameNode_withdrawNode (ho : Owned L T.shape) {e q : ℕ} (hp : p ∈ T.nodes)
    (hb : T.blocks p = [e]) (h : withdrawNode L p e T = some T') (hq : q ∈ T.nodes)
    (hne : q ≠ p) : SameNode T T' q := by
  simp only [withdrawNode, withdrawTailHead, withdrawRecTreeNode, Option.bind_eq_bind,
    Option.bind_eq_some_iff, Option.map_eq_some_iff, Option.some.injEq] at h
  obtain ⟨U, hU, -, ⟨hpool, -, rfl⟩, -, ⟨npool, -, rfl⟩, rfl⟩ := h
  have hsame := sameNode_withdrawn ho hp hq hne hb (owned_withdrawBlock ho hp hb hU).2
  exact { node := (Function.update_of_ne hne _ _).trans hsame.node
          queue := hsame.queue
          entries := hsame.entries
          slots := hsame.slots }

theorem rep_reclaimRecTreeNode (hrep : Rep L T) (hone : T.OneBlock)
    (h : reclaimRecTreeNode L ofa p T = some T') : Rep L T' ∧ T'.OneBlock := by
  obtain ⟨ho', hshrunk⟩ := owned_reclaimRecTreeNode hrep.owned h
  unfold reclaimRecTreeNode at h
  split at h
  case isFalse => cases h; exact ⟨hrep, hone⟩
  rename_i hp
  obtain ⟨e, hb⟩ := List.length_eq_one_iff.1 (hone p hp)
  have hq : T.tailheads (T.recTreeNodes p).listHead = [e] := hb
  simp only [reclaimSpecialRecTreeNode, hq, and_true] at h
  split at h
  · -- the node leaves the tree, the others stay as they are
    have hsame : ∀ q ∈ T'.nodes, SameNode T T' q := by
      intro q hq'
      refine sameNode_withdrawNode hrep.owned hp hb h (hshrunk q hq').1 ?_
      rintro rfl
      exact (owned_withdrawNode hrep.owned hp hb h).2.2 hq'
    refine ⟨⟨ho', fun q hq' => (hsame q hq').nodeInv (hrep.node q (hshrunk q hq').1)⟩, ?_⟩
    intro q hq'
    rw [(hsame q hq').blocks]
    exact hone q (hshrunk q hq').1
  · rename_i hidx
    have hn := hrep.node p hp
    have hpos : 0 < (T.recTreeNodes p).memRecIdx := by
      have := hn.idx_nonneg
      omega
    rw [compactNode_single hrep.owned hp hn.tidy hb hpos] at h
    cases h
    split
    · exact ⟨hrep, hone⟩
    · refine ⟨rep_setCursor hrep hp hb (by omega) (by omega), fun q hq' => ?_⟩
      rw [blocks_setCursor]
      exact hone q (by simpa [RecTree.nodes] using hq')

theorem rep_reclaimIfNeeded (hrep : Rep L T) (hone : T.needsReclaim → T.OneBlock)
    (h : reclaimIfNeeded L ofa T = some T') : Rep L T' := by
  unfold reclaimIfNeeded at h
  split at h
  · rename_i hneeds
    simp only [recTreeNodeGrabageReclaim, Option.bind_eq_bind, Option.bind_eq_some_iff,
      Option.some.injEq] at h
    obtain ⟨U, hU, rfl⟩ := h
    have hrun := runAll_invariant (P := fun U => Rep L U ∧ U.OneBlock)
      (fun _ _ _ _ hP h => rep_reclaimRecTreeNode hP.1 hP.2 h) ⟨hrep, hone hneeds⟩ hU
    exact rep_congr hrun.1 rfl rfl rfl rfl
  · cases h
    exact hrep

/-! ## Inserting a record -/

/-- When an insertion is safe.  On a page that has a node whose current block is
empty, the destination lies behind the last record of the older blocks.  On a
page without a node, a reclaim finds only nodes of one block. -/
def InsertOk (T : RecTree) (c : InsertCall) : Prop :=
  match T.findNode (addr2PageNum c.dest) with
  | some p => (T.recTreeNodes p).memRecIdx = 0 →
      ∀ r ∈ (T.records p).getLast?, r.pageOffset < addr2PageOffset c.dest
  | none => T.needsReclaim → T.OneBlock

instance (T : RecTree) (c : InsertCall) : Decidable (T.InsertOk c) := by
  unfold InsertOk
  split <;> infer_instance

/-- The last record of a node whose current block is not empty. -/
theorem getLast?_records (hn : Tidy T p) (hpos : 0 < (T.recTreeNodes p).memRecIdx) :
    (T.records p).getLast? = some (T.slot (T.curArr p) ((T.recTreeNodes p).memRecIdx - 1)) := by
  obtain ⟨older, hb⟩ := hn.blocks_eq
  obtain ⟨k, hk⟩ : ∃ k : ℕ, (T.recTreeNodes p).memRecIdx = (k : ℤ) + 1 :=
    ⟨((T.recTreeNodes p).memRecIdx - 1).toNat, by omega⟩
  rw [records, hb, recordsOf, hk, show ((k : ℤ) + 1).toNat = k + 1 by omega, blockRecs_succ,
    ← List.append_assoc, List.getLast?_concat, curArr, show (k : ℤ) + 1 - 1 = k by omega]

/-- `T'` is `T` with the page of `p` cleared. -/
structure Cleared (T T' : RecTree) (p : ℕ) : Prop where
  records : T'.records p = []
  inv : NodeInv T' p
  others : ∀ q ∈ T.nodes, q ≠ p → SameNode T T' q
  nodes : T'.nodes = T.nodes

theorem cleared_clearPage (ho : Owned L T.shape) {dest : ℕ} (hp : p ∈ T.nodes)
    (h : clearPage p dest T = some T') :
    (¬ T.mustClear p dest ∧ T' = T) ∨ (T.mustClear p dest ∧ Cleared T T' p) := by
  obtain ⟨-, hkeep | ⟨hclear, newer, oldest, U, hb, w, hoU, rfl⟩⟩ := clearPage_eq_some ho hp h
  · exact Or.inl hkeep
  · refine Or.inr ⟨hclear, ?_⟩
    have hbU : U.blocks p = [oldest] := w.blocks
    have hrec : (U.setCursor p oldest 0).records p = [] := by
      rw [records, setCursor_node, blocks_setCursor, hbU]
      rfl
    refine ⟨hrec, ⟨?_, ?_, ?_, ?_, ?_, ?_, ?_⟩, ?_, by simp [RecTree.nodes, ← w.nodes]⟩
    · rw [blocks_setCursor, setCursor_node, hbU]
      rfl
    · exact Int.le_of_eq (by rw [setCursor_node])
    · rw [setCursor_node]
      exact Int.natCast_nonneg 38
    · intro f hf hne
      rw [blocks_setCursor, hbU, List.mem_singleton] at hf
      rw [setCursor_node] at hne
      exact absurd hf hne
    · rw [setCursor_node]
      exact setCursor_filled _ _
    · rw [hrec]
      exact fun r hr => absurd hr List.not_mem_nil
    · rw [hrec]
      exact List.Pairwise.nil
    · intro q hq hne
      have hmem : oldest ∉ U.blocks q := by
        intro hmem
        have hqU : q ∈ U.nodes := w.nodes ▸ hq
        have hpU : p ∈ U.nodes := w.nodes ▸ hp
        exact hne (hoU.owner_unique hqU hpU hmem (by rw [show U.shape.blocks p = _ from hbU]; simp))
      exact (sameNode_withdrawn ho hp hq hne hb w).trans (sameNode_setCursor hne hmem)

/-- The page of the new node is empty, all others are as before. -/
theorem cleared_newTreeNode (ho : Owned L T.shape) {pageNum : ℕ}
    (h : newTreeNode L pageNum T = some (p, T')) :
    T'.records p = [] ∧ NodeInv T' p ∧ ∀ q ∈ T.nodes, SameNode T T' q := by
  obtain ⟨head, e, arr, np, hp, ep, ap, hn, hh, he, -, rfl⟩ := newTreeNode_eq_some h
  have hnode : (withNode L pageNum p head e arr np hp ep ap T).recTreeNodes p =
      { pageNum := pageNum, listHead := head, recModEntry := e, memRecIdx := 0 } :=
    Function.update_self ..
  have hb : (withNode L pageNum p head e arr np hp ep ap T).blocks p = [e] := by
    simp [RecTree.blocks, Shape.blocks, shape, withNode]
  have hrec : (withNode L pageNum p head e arr np hp ep ap T).records p = [] := by
    rw [records, hb, hnode]
    rfl
  refine ⟨hrec, ⟨?_, ?_, ?_, ?_, ?_, ?_, ?_⟩, fun q hq => sameNode_withNode ho hq hn hh he⟩
  · rw [hb, hnode]
    rfl
  · exact Int.le_of_eq (by rw [hnode])
  · rw [hnode]
    exact Int.natCast_nonneg 38
  · intro f hf hne
    rw [hb, List.mem_singleton] at hf
    rw [hnode] at hne
    exact absurd hf hne
  · rw [hnode]
    simp [withNode]
  · rw [hrec]
    exact fun r hr => absurd hr List.not_mem_nil
  · rw [hrec]
    exact List.Pairwise.nil

theorem rep_of_appended (ho' : Owned L T'.shape) (hrep : ∀ q ∈ T.nodes, q ≠ p → NodeInv T q)
    {r : MemRec} (h : Appended T T' p r) : Rep L T' where
  owned := ho'
  node q hq := by
    by_cases hqp : q = p
    · exact hqp ▸ h.inv
    · rw [h.nodes] at hq
      exact (h.others q hq hqp).nodeInv (hrep q hq hqp)

/-- A safe insertion keeps the invariant. -/
theorem rep_insertRec (hrep : Rep L T) {c : InsertCall} (hok : T.InsertOk c)
    (h : insertRec L ofa c T = some T') : Rep L T' := by
  have ho' := owned_insertRec hrep.owned h
  have hlog : Rep L (T.logCall c) := rep_congr hrep rfl rfl rfl rfl
  have hok' : (T.logCall c).InsertOk c := hok
  simp only [insertRec] at h
  clear hrep hok
  generalize T.logCall c = T at h hlog hok'
  unfold InsertOk at hok'
  split at h
  · rename_i p hp
    rw [hp] at hok'
    obtain ⟨U, hU, hW⟩ := Option.bind_eq_some_iff.1 h
    have hpn := mem_nodes_of_findNode hp
    obtain ⟨hoU, hnodes, -, -⟩ := owned_clearPage hlog.owned hpn hU
    have hpU := findNode_clearPage hlog.owned hp hU
    rcases cleared_clearPage hlog.owned hpn hU with ⟨hkeep, rfl⟩ | ⟨-, hclear⟩
    · have hn := hlog.node p hpn
      refine rep_of_appended ho' (fun q hq _ => hlog.node q hq)
        (appended_writeRec hlog.owned hp hn ?_ hW)
      -- the last record lies below: checked by the code, or by `InsertOk`
      by_cases hidx : (U.recTreeNodes p).memRecIdx = 0
      · exact hok' hidx
      · have hpos : 0 < (U.recTreeNodes p).memRecIdx := by
          have := hn.idx_nonneg
          omega
        rw [getLast?_records hn.tidy hpos]
        intro r hr
        cases hr
        exact Int.not_le.1 fun hle => hkeep ⟨hpos, hle⟩
    · refine rep_of_appended ho' (fun q hq hne => ?_)
        (appended_writeRec hoU hpU hclear.inv (by simp [hclear.records]) hW)
      rw [hnodes] at hq
      exact (hclear.others q hq hne).nodeInv (hlog.node q hq)
  · rename_i hnew
    rw [hnew] at hok'
    obtain ⟨⟨p, V⟩, hV, h⟩ := Option.bind_eq_some_iff.1 h
    obtain ⟨hoV, hpV⟩ := owned_addTreeNode hlog.owned hnew hV
    obtain ⟨U, hU, hV⟩ := Option.bind_eq_some_iff.1 hV
    have hrepU := rep_reclaimIfNeeded hlog hok' hU
    have hnewU := (owned_reclaimIfNeeded hlog.owned hU).2.findNode_none hlog.owned hrepU.owned hnew
    obtain ⟨hrec, hinv, hsame⟩ := cleared_newTreeNode hrepU.owned hV
    refine rep_of_appended ho' (fun q hq hne => ?_)
      (appended_writeRec hoV hpV hinv (by simp [hrec]) h)
    have hq' := (owned_newTreeNode hrepU.owned hnewU hV).2.subset hq
    have hqU : q ∈ U.nodes := (List.mem_cons.1 hq').resolve_left hne
    exact (hsame q hqU).nodeInv (hrepU.node q hqU)

/-! ## Cutting the source page -/

/-- When the cut of `ts_memcpy_traced` is safe: unless the current block of the
source page is empty, the search passes over the older blocks, whose slot before
the cursor lies below `src`. -/
def CutOk (T : RecTree) (src : ℕ) : Prop :=
  match T.findNode (addr2PageNum src) with
  | none => True
  | some p => 0 < (T.recTreeNodes p).memRecIdx → ∀ e ∈ (T.blocks p).tail,
      (T.slot (T.recBlockEntries e).recArr ((T.recTreeNodes p).memRecIdx - 1)).pageOffset <
        addr2PageOffset src

instance (T : RecTree) (src : ℕ) : Decidable (T.CutOk src) := by
  unfold CutOk
  split <;> infer_instance

theorem findBlock_eq_some {uplimit offset : ℤ} {es : List ℕ} {b : ℕ}
    (h : T.findBlock uplimit offset es = some b) :
    b ∈ es ∧ offset ≤ (T.slot (T.recBlockEntries b).recArr (uplimit - 1)).pageOffset := by
  induction es with
  | nil => cases h
  | cons e es ih =>
    rw [findBlock] at h
    split at h
    · rename_i hle
      cases h
      exact ⟨List.mem_cons_self .., hle⟩
    · exact ⟨List.mem_cons_of_mem _ (ih h).1, (ih h).2⟩

theorem findSlot_eq_some {arr idx : ℕ} {uplimit offset : ℤ}
    (h : T.findSlot arr uplimit offset = some idx) :
    (idx : ℤ) < uplimit ∧ offset ≤ (T.slot arr idx).pageOffset := by
  have hmem := List.mem_range.1 (List.mem_of_find?_eq_some h)
  exact ⟨by omega, by simpa using List.find?_some h⟩

/-- A safe cut keeps the invariant. -/
theorem rep_cut (hrep : Rep L T) {src blockEntry idx : ℕ} (hcut : T.CutOk src)
    (hp : T.findNode (addr2PageNum src) = some p)
    (hblock : T.findBlock (T.recTreeNodes p).memRecIdx (addr2PageOffset src)
      (T.tailheads (T.recTreeNodes p).listHead).reverse = some blockEntry)
    (hslot : T.findSlot (T.recBlockEntries blockEntry).recArr (T.recTreeNodes p).memRecIdx
      (addr2PageOffset src) = some idx) : Rep L (T.setCursor p blockEntry idx) := by
  have hpn := mem_nodes_of_findNode hp
  obtain ⟨older, hb⟩ := (hrep.node p hpn).blocks_eq
  obtain ⟨hmem, hle⟩ := findBlock_eq_some hblock
  obtain ⟨hidx, -⟩ := findSlot_eq_some hslot
  unfold CutOk at hcut
  simp only [hp, hb, List.tail_cons] at hcut
  have hpos : 0 < (T.recTreeNodes p).memRecIdx := by omega
  have hmem' : blockEntry ∈ T.blocks p := List.mem_reverse.1 hmem
  rw [hb, List.mem_cons] at hmem'
  rcases hmem' with rfl | hold
  · exact rep_setCursor hrep hpn hb (Int.natCast_nonneg idx) (Int.le_of_lt hidx)
  · exact absurd hle (Int.not_le.2 (hcut hpos blockEntry hold))

/-- `insertRec`, checked to be safe. -/
def checkedInsert (L : Libc) : Insert := fun ofa c T =>
  if T.InsertOk c then insertRec L ofa c T else none

theorem checkedInsert_eq_some {c : InsertCall} (h : checkedInsert L ofa c T = some T') :
    T.InsertOk c ∧ insertRec L ofa c T = some T' := by
  unfold checkedInsert at h
  split at h
  · rename_i hok
    exact ⟨hok, h⟩
  · cases h

end RecTree

/-! ## Safe calls -/

variable {E : Env} {s s' : State}

/-- The cut that a call makes is safe. -/
def CallCutOk : Call → State → Prop
  | .memcpyTraced _ src _, s => s.tree.CutOk src
  | _, _ => True

instance : (c : Call) → (s : State) → Decidable (CallCutOk c s)
  | .memcpyTraced _ src _, s => inferInstanceAs (Decidable (s.tree.CutOk src))
  | .open _, _ | .close .., _ | .mmap .., _ | .munmap _, _ | .memcpy .., _ | .realloc .., _
  | .read .., _ | .write .., _ | .fwrite .., _ | .store .., _ => instDecidableTrue

/-- A safe call: its cut is safe, and it does the same when every insertion is
checked to be safe. -/
def SafeCall (E : Env) (c : Call) (s : State) : Prop :=
  CallCutOk c s ∧ stepWith E (RecTree.checkedInsert E.libc) c s = step E c s

/-- A safe call keeps the invariant. -/
theorem rep_step {c : Call} (hrep : RecTree.Rep E.libc s.tree) (hsafe : SafeCall E c s)
    (h : step E c s = some s') : RecTree.Rep E.libc s'.tree := by
  have hins : ∀ {ofa c T T'}, RecTree.Rep E.libc T →
      RecTree.checkedInsert E.libc ofa c T = some T' → RecTree.Rep E.libc T' := by
    intro ofa c T T' hT hT'
    obtain ⟨hok, hT'⟩ := RecTree.checkedInsert_eq_some hT'
    exact RecTree.rep_insertRec hT hok hT'
  rw [← hsafe.2] at h
  rcases stepWith_tree h with heq | ⟨ofa, call, h'⟩ | ⟨ofa, dest, src, n, rfl, h'⟩ |
    ⟨ofa, ret, ptr, tail, h'⟩
  · rwa [heq]
  · exact hins hrep h'
  · exact RecTree.tsMemcpyTraced_invariant (fun _ _ _ _ => hins) hrep
      (fun _ _ _ hp hblock hslot => RecTree.rep_cut hrep hsafe.1 hp hblock hslot) h'
  · exact RecTree.tsRealloc_invariant (fun _ _ _ _ => hins) hrep h'

end Cidl
