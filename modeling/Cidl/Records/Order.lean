import Cidl.Records.Ownership

/-!
# The records of a page

The valid records of a node, oldest first, are the full arrays of its older
blocks and the slots of the newest block below the cursor (`records`).
`NodeInv` is the representation invariant of one node: the cursor is in the
newest block, older blocks are full, and the page offsets ascend.

* `SameNode` says that an operation leaves a node alone, and then its records
  and its invariant are the same (`SameNode.records`, `SameNode.nodeInv`).
* `records_writeRec` — writing a record appends it to those of its node, and
  `appended_writeRec` says when the node stays in order.
-/

namespace Cidl

open SearchTree Shape

namespace RecTree

variable {L : Libc} {T T' T'' : RecTree} {ofa : ℤ → Option ℕ} {p q : ℕ}

/-! ## Records and invariant -/

/-- The first `k` slots of a block. -/
def blockRecs (T : RecTree) (e k : ℕ) : List MemRec :=
  (List.range k).map fun i : ℕ => T.slot (T.recBlockEntries e).recArr i

/-- The valid records of a list of blocks, newest block first, of which the
newest is filled up to `idx`. -/
def recordsOf (T : RecTree) (idx : ℤ) : List ℕ → List MemRec
  | [] => []
  | e :: older => older.reverse.flatMap (fun f => T.blockRecs f memRecPerEntry) ++
      T.blockRecs e idx.toNat

/-- The valid records of a node, oldest first. -/
def records (T : RecTree) (p : ℕ) : List MemRec :=
  T.recordsOf (T.recTreeNodes p).memRecIdx (T.blocks p)

/-- The representation invariant of one node. -/
structure NodeInv (T : RecTree) (p : ℕ) : Prop where
  /-- The node appends to its newest block. -/
  first : (T.blocks p).head? = some (T.recTreeNodes p).recModEntry
  idx_nonneg : 0 ≤ (T.recTreeNodes p).memRecIdx
  idx_le : (T.recTreeNodes p).memRecIdx ≤ memRecPerEntry
  /-- The other blocks were filled to the end. -/
  full : ∀ e ∈ T.blocks p, e ≠ (T.recTreeNodes p).recModEntry →
    (T.recBlockEntries e).filled = memRecPerEntry
  current : (T.recBlockEntries (T.recTreeNodes p).recModEntry).filled =
    (T.recTreeNodes p).memRecIdx
  inPage : ∀ r ∈ T.records p, 0 ≤ r.pageOffset ∧ r.pageOffset < pageSize
  ascending : (T.records p).Pairwise fun a b => a.pageOffset < b.pageOffset

instance (T : RecTree) (p : ℕ) : Decidable (NodeInv T p) :=
  decidable_of_iff ((T.blocks p).head? = some (T.recTreeNodes p).recModEntry ∧
      (0 ≤ (T.recTreeNodes p).memRecIdx ∧ (T.recTreeNodes p).memRecIdx ≤ memRecPerEntry) ∧
      (∀ e ∈ T.blocks p, e ≠ (T.recTreeNodes p).recModEntry →
        (T.recBlockEntries e).filled = memRecPerEntry) ∧
      (T.recBlockEntries (T.recTreeNodes p).recModEntry).filled = (T.recTreeNodes p).memRecIdx ∧
      (∀ r ∈ T.records p, 0 ≤ r.pageOffset ∧ r.pageOffset < pageSize) ∧
      (T.records p).Pairwise fun a b => a.pageOffset < b.pageOffset)
    ⟨fun ⟨h₁, ⟨h₂, h₃⟩, h₄, h₅, h₆, h₇⟩ => ⟨h₁, h₂, h₃, h₄, h₅, h₆, h₇⟩,
      fun h => ⟨h.first, ⟨h.idx_nonneg, h.idx_le⟩, h.full, h.current, h.inPage, h.ascending⟩⟩

/-- The representation invariant: every object has one owner, and every node is
in order. -/
structure Rep (L : Libc) (T : RecTree) : Prop where
  owned : Owned L T.shape
  node : ∀ p ∈ T.nodes, NodeInv T p

/-- The part of the invariant that says where the node appends: its newest block,
at an index in range. -/
structure Tidy (T : RecTree) (p : ℕ) : Prop where
  first : (T.blocks p).head? = some (T.recTreeNodes p).recModEntry
  idx_nonneg : 0 ≤ (T.recTreeNodes p).memRecIdx
  idx_le : (T.recTreeNodes p).memRecIdx ≤ memRecPerEntry

theorem NodeInv.tidy (h : NodeInv T p) : Tidy T p := ⟨h.first, h.idx_nonneg, h.idx_le⟩

theorem Rep.tidy (h : Rep L T) : ∀ p ∈ T.nodes, Tidy T p := fun p hp => (h.node p hp).tidy

theorem Tidy.blocks_eq (h : Tidy T p) :
    ∃ older, T.blocks p = (T.recTreeNodes p).recModEntry :: older := by
  have hfirst := h.first
  cases hb : T.blocks p with
  | nil => rw [hb] at hfirst; cases hfirst
  | cons e older =>
    rw [hb] at hfirst
    cases hfirst
    exact ⟨older, rfl⟩

theorem NodeInv.blocks_eq (h : NodeInv T p) :
    ∃ older, T.blocks p = (T.recTreeNodes p).recModEntry :: older := h.tidy.blocks_eq

/-- A record's address is on its page. -/
theorem page_of_record {page : ℕ} (h : NodeInv T p)
    (hw : (page + 1) * pageSize ≤ wordSize) {r : MemRec}
    (hr : r ∈ T.records p) : addr2PageNum (getAddr page r.pageOffset) = page := by
  obtain ⟨h₀, h₁⟩ := h.inPage r hr
  rw [getAddr_eq h₀ h₁ hw]
  simp only [addr2PageNum, pageSize] at *
  omega

/-- The records of a page come in the order of their addresses. -/
theorem addr_ascending {page : ℕ} (h : NodeInv T p) (hw : (page + 1) * pageSize ≤ wordSize) :
    (T.records p).Pairwise fun a b => getAddr page a.pageOffset < getAddr page b.pageOffset := by
  refine h.ascending.imp_of_mem fun {a b} ha hb hlt => ?_
  have hA := h.inPage a ha
  have hB := h.inPage b hb
  rw [getAddr_eq hA.1 hA.2 hw, getAddr_eq hB.1 hB.2 hw]
  omega

@[simp] theorem length_blockRecs (e k : ℕ) : (T.blockRecs e k).length = k := by
  simp [blockRecs]

theorem blockRecs_succ (e k : ℕ) :
    T.blockRecs e (k + 1) = T.blockRecs e k ++ [T.slot (T.recBlockEntries e).recArr k] := by
  simp [blockRecs, List.range_succ]

theorem blockRecs_initial (e : ℕ) {j k : ℕ} (h : j ≤ k) : T.blockRecs e j <+: T.blockRecs e k := by
  obtain ⟨d, rfl⟩ := Nat.exists_eq_add_of_le h
  induction d with
  | zero => exact List.prefix_rfl
  | succ d ih =>
    rw [← Nat.add_assoc, blockRecs_succ]
    exact (ih (Nat.le_add_right _ _)).trans (List.prefix_append _ _)

/-! ## Nodes left alone -/

/-- `T'` has the node `p` of `T` with its queue, its blocks and all their slots. -/
structure SameNode (T T' : RecTree) (p : ℕ) : Prop where
  node : T'.recTreeNodes p = T.recTreeNodes p
  queue : T'.tailheads (T.recTreeNodes p).listHead = T.tailheads (T.recTreeNodes p).listHead
  entries : ∀ e ∈ T.blocks p, T'.recBlockEntries e = T.recBlockEntries e
  slots : ∀ e ∈ T.blocks p, ∀ i : ℤ, 0 ≤ i → i < memRecPerEntry →
    T'.slot (T.recBlockEntries e).recArr i = T.slot (T.recBlockEntries e).recArr i

theorem SameNode.refl (T : RecTree) (p : ℕ) : SameNode T T p where
  node := rfl
  queue := rfl
  entries _ _ := rfl
  slots _ _ _ _ _ := rfl

theorem SameNode.blocks (h : SameNode T T' p) : T'.blocks p = T.blocks p := by
  have := h.queue
  rw [← h.node] at this
  rw [RecTree.blocks, RecTree.blocks, Shape.blocks, Shape.blocks]
  simp only [shape, Function.comp_apply]
  rw [this, h.node]

theorem SameNode.trans (h : SameNode T T' p) (h' : SameNode T' T'' p) : SameNode T T'' p where
  node := h'.node.trans h.node
  queue := by
    have := h'.queue
    rw [h.node] at this
    exact this.trans h.queue
  entries e he := (h'.entries e (h.blocks ▸ he)).trans (h.entries e he)
  slots e he i h₀ h₁ := by
    have := h'.slots e (h.blocks ▸ he) i h₀ h₁
    rw [h.entries e he] at this
    exact this.trans (h.slots e he i h₀ h₁)

theorem SameNode.blockRecs (h : SameNode T T' p) {e k : ℕ} (he : e ∈ T.blocks p)
    (hk : k ≤ memRecPerEntry) : T'.blockRecs e k = T.blockRecs e k := by
  refine List.map_congr_left fun i hi => ?_
  have hi' := List.mem_range.1 hi
  rw [h.entries e he]
  exact h.slots e he i (Int.natCast_nonneg i) (by omega)

theorem SameNode.records (h : SameNode T T' p)
    (hidx : (T.recTreeNodes p).memRecIdx ≤ memRecPerEntry) :
    T'.records p = T.records p := by
  rw [RecTree.records, RecTree.records, h.blocks, h.node]
  cases hb : T.blocks p with
  | nil => rfl
  | cons e older =>
    rw [recordsOf, recordsOf, h.blockRecs (by simp [hb]) (Int.toNat_le.2 hidx)]
    congr 1
    refine List.flatMap_congr fun f hf => h.blockRecs ?_ (Nat.le_refl _)
    rw [hb]
    exact List.mem_cons_of_mem _ (List.mem_reverse.1 hf)

theorem SameNode.tidy (h : SameNode T T' p) (hn : Tidy T p) : Tidy T' p where
  first := by rw [h.blocks, h.node]; exact hn.first
  idx_nonneg := by rw [h.node]; exact hn.idx_nonneg
  idx_le := by rw [h.node]; exact hn.idx_le

theorem SameNode.nodeInv (h : SameNode T T' p) (hn : NodeInv T p) : NodeInv T' p := by
  have hrec := h.records hn.idx_le
  have htidy := h.tidy hn.tidy
  obtain ⟨older, hb⟩ := hn.blocks_eq
  have hcur : (T.recTreeNodes p).recModEntry ∈ T.blocks p := by simp [hb]
  refine ⟨htidy.first, htidy.idx_nonneg, htidy.idx_le, ?_, ?_, ?_, ?_⟩
  · intro e he hne
    rw [h.blocks] at he
    rw [h.node] at hne
    rw [h.entries e he]
    exact hn.full e he hne
  · rw [h.node, h.entries _ hcur]
    exact hn.current
  · rw [hrec]
    exact hn.inPage
  · rw [hrec]
    exact hn.ascending

/-! ## What the operations leave alone -/

/-- The slots of a block of one node are not slots of a block of another. -/
theorem slot_apart (ho : Owned L T.shape) (hp : p ∈ T.nodes) (hq : q ∈ T.nodes) (hne : q ≠ p)
    {e f : ℕ} (he : e ∈ T.blocks p) (hf : f ∈ T.blocks q) {i j : ℤ} (hi : 0 ≤ i)
    (hi' : i < memRecPerEntry) (hj : 0 ≤ j) (hj' : j < memRecPerEntry) :
    ((T.recBlockEntries f).recArr : ℤ) + j ≠ (T.recBlockEntries e).recArr + i := by
  have hfe : f ≠ e := by
    rintro rfl
    exact hne (ho.owner_unique hq hp hf he)
  have := ho.recArr_apart (Owned.mem_entries hq hf) (Owned.mem_entries hp he) hfe
  simp only [shape, Function.comp_apply] at this
  omega

theorem sameNode_setRec {a : ℤ} {r : MemRec}
    (h : ∀ f ∈ T.blocks q, ∀ j : ℤ, 0 ≤ j → j < memRecPerEntry →
      ((T.recBlockEntries f).recArr : ℤ) + j ≠ a) : SameNode T (T.setRec a r) q where
  node := rfl
  queue := rfl
  entries _ _ := rfl
  slots f hf j h₀ h₁ := Function.update_of_ne (h f hf j h₀ h₁) _ _

theorem sameNode_setCursor {e : ℕ} {idx : ℤ} (hne : q ≠ p) (he : e ∉ T.blocks q) :
    SameNode T (T.setCursor p e idx) q where
  node := Function.update_of_ne hne _ _
  queue := rfl
  entries f hf := Function.update_of_ne (fun heq : f = e => he (heq ▸ hf)) _ _
  slots _ _ _ _ _ := rfl

theorem sameNode_withdrawn (ho : Owned L T.shape) (hp : p ∈ T.nodes) (hq : q ∈ T.nodes)
    (hne : q ≠ p) {pre post : List ℕ} (hb : T.blocks p = pre ++ post)
    (w : Withdrawn (T.recTreeNodes p).listHead pre post T T') : SameNode T T' q where
  node := by rw [w.recTreeNodes]
  queue := by
    rw [w.tailheads]
    exact Function.update_of_ne (fun heq => hne (ho.listHead_inj hq hp heq)) _ _
  entries f hf := by
    refine w.entries f fun hpre => hne (ho.owner_unique hq hp hf ?_)
    rw [show T.shape.blocks p = _ from hb]
    exact List.mem_append_left _ hpre
  slots f hf j h₀ h₁ := by rw [slot, slot, w.recMem]

theorem sameNode_withNode (ho : Owned L T.shape) (hq : q ∈ T.nodes) {pageNum head e arr : ℕ}
    {np hp ep ap : Pool} (hn : T.recTreeNodePool.pop = some (p, np))
    (hh : T.tailHeadPool.take L.headSlabs = some (head, hp))
    (he : T.recBlockEntryPool.take L.entrySlabs = some (e, ep)) :
    SameNode T (withNode L pageNum p head e arr np hp ep ap T) q where
  node := by
    have hpn : p ∉ T.nodes := (List.nodup_cons.1 (ho.node.pop hn).nodup_used).1
    exact Function.update_of_ne (fun heq : q = p => hpn (heq ▸ hq)) _ _
  queue := by
    refine Function.update_of_ne (fun heq => ho.head.fresh hh ?_) _ _
    exact List.mem_map.2 ⟨q, hq, heq⟩
  entries f hf := by
    refine Function.update_of_ne (fun heq => ho.entry.fresh he ?_) _ _
    exact heq ▸ Owned.mem_entries hq hf
  slots _ _ _ _ _ := rfl

/-- A fresh array does not overlap the array of any block. -/
theorem fresh_arr_apart (ho : Owned L T.shape) (hq : q ∈ T.nodes) {arr : ℕ} {ap : Pool}
    (ha : T.recArrPool.take L.arrSlabs = some (arr, ap)) {f : ℕ} (hf : f ∈ T.blocks q) {j : ℤ}
    (h₀ : 0 ≤ j) (h₁ : j < memRecPerEntry) : ((T.recBlockEntries f).recArr : ℤ) + j ≠ arr := by
  have hmem : (T.recBlockEntries f).recArr ∈ T.shape.arrays :=
    List.mem_map_of_mem (f := T.shape.recArr) (Owned.mem_entries hq hf)
  have hne : (T.recBlockEntries f).recArr ≠ arr := fun heq => ho.arr.fresh ha (heq ▸ hmem)
  have := (ho.arr.take ha).apart (List.mem_cons_of_mem _ hmem) (List.mem_cons_self ..) hne
  omega

theorem sameNode_withBlock (ho : Owned L T.shape) (hp : p ∈ T.nodes) (hq : q ∈ T.nodes)
    (hne : q ≠ p) {r : MemRec} {e arr : ℕ} {ep ap : Pool}
    (he : T.recBlockEntryPool.take L.entrySlabs = some (e, ep))
    (ha : T.recArrPool.take L.arrSlabs = some (arr, ap)) :
    SameNode T (withBlock r p e arr ep ap T) q where
  node := Function.update_of_ne hne _ _
  queue := Function.update_of_ne (fun heq => hne (ho.listHead_inj hq hp heq)) _ _
  entries f hf := by
    refine Function.update_of_ne (fun heq => ho.entry.fresh he ?_) _ _
    exact heq ▸ Owned.mem_entries hq hf
  slots f hf j h₀ h₁ := Function.update_of_ne (fresh_arr_apart ho hq ha hf h₀ h₁) _ _

/-! ## The effect on the node itself -/

@[simp] theorem blockRecs_setCursor (e f k : ℕ) (idx : ℤ) :
    (T.setCursor p e idx).blockRecs f k = T.blockRecs f k := by
  have harr : ((T.setCursor p e idx).recBlockEntries f).recArr = (T.recBlockEntries f).recArr :=
    congrFun (congrArg Shape.recArr (shape_setCursor p e idx)) f
  simp only [blockRecs, harr]
  rfl

@[simp] theorem recordsOf_setCursor (e : ℕ) (idx i : ℤ) (es : List ℕ) :
    (T.setCursor p e idx).recordsOf i es = T.recordsOf i es := by
  cases es <;> simp [recordsOf]

@[simp] theorem setCursor_node (e : ℕ) (idx : ℤ) : (T.setCursor p e idx).recTreeNodes p =
    { T.recTreeNodes p with recModEntry := e, memRecIdx := idx } :=
  Function.update_self ..

@[simp] theorem setCursor_filled (e : ℕ) (idx : ℤ) :
    ((T.setCursor p e idx).recBlockEntries e).filled = idx := by
  simp [setCursor, setEntry]

theorem setCursor_entry_of_ne {e f : ℕ} (hne : f ≠ e) (idx : ℤ) :
    (T.setCursor p e idx).recBlockEntries f = T.recBlockEntries f :=
  Function.update_of_ne hne _ _

theorem blocks_setRec (a : ℤ) (r : MemRec) : (T.setRec a r).blocks p = T.blocks p := rfl

@[simp] theorem blocks_setCursor (e : ℕ) (idx : ℤ) (q : ℕ) :
    (T.setCursor p e idx).blocks q = T.blocks q := by
  simp [RecTree.blocks]

/-- The cursor of the node is in one of its blocks. -/
structure Placed (T : RecTree) (p : ℕ) : Prop where
  mem : (T.recTreeNodes p).recModEntry ∈ T.blocks p
  nonneg : 0 ≤ (T.recTreeNodes p).memRecIdx
  le : (T.recTreeNodes p).memRecIdx ≤ memRecPerEntry

theorem Tidy.placed (h : Tidy T p) : Placed T p where
  mem := List.mem_of_mem_head? h.first
  nonneg := h.idx_nonneg
  le := h.idx_le

theorem NodeInv.placed (h : NodeInv T p) : Placed T p := h.tidy.placed

theorem SameNode.placed (h : SameNode T T' p) (hp : Placed T p) : Placed T' p where
  mem := by rw [h.blocks, h.node]; exact hp.mem
  nonneg := by rw [h.node]; exact hp.nonneg
  le := by rw [h.node]; exact hp.le

/-- `writeRec` writes in the node's own blocks only. -/
theorem placed_writeRec (ho : Owned L T.shape) {c : InsertCall} {pageNum : ℕ}
    (hp : T.findNode pageNum = some p) (hpl : Placed T p)
    (h : writeRec L c pageNum p T = some T') :
    Placed T' p ∧ ∀ q ∈ T.nodes, q ≠ p → SameNode T T' q := by
  have hpn := mem_nodes_of_findNode hp
  have hnonneg := hpl.nonneg
  rcases writeRec_eq_some hp h with ⟨hidx, rfl⟩ | ⟨-, e, arr, ep, ap, he, ha, rfl⟩
  · refine ⟨⟨?_, ?_, ?_⟩, fun q hq hne => ?_⟩
    · rw [setCursor_node, blocks_setCursor]
      exact hpl.mem
    · rw [setCursor_node]
      show 0 ≤ _ + 1
      omega
    · rw [setCursor_node]
      exact hidx
    · refine (sameNode_setRec fun f hf j h₀ h₁ => ?_).trans (sameNode_setCursor hne fun hmem =>
        hne (ho.owner_unique hq hpn hmem hpl.mem))
      exact slot_apart ho hpn hq hne hpl.mem hf hnonneg hidx h₀ h₁
  · refine ⟨⟨?_, ?_, ?_⟩, fun q hq hne => sameNode_withBlock ho hpn hq hne he ha⟩ <;>
      simp [withBlock, RecTree.blocks, Shape.blocks, shape]

@[simp] theorem blocks_withBlock (r : MemRec) (e arr : ℕ) (ep ap : Pool) :
    (withBlock r p e arr ep ap T).blocks p = e :: T.blocks p := by
  simp [RecTree.blocks, Shape.blocks, shape, withBlock]

/-- `writeRec` leaves the node with its cursor in its newest block. -/
theorem tidy_writeRec (ho : Owned L T.shape) {c : InsertCall} {pageNum : ℕ}
    (hp : T.findNode pageNum = some p) (hn : Tidy T p)
    (h : writeRec L c pageNum p T = some T') : Tidy T' p := by
  obtain ⟨-, hnonneg, hle⟩ := (placed_writeRec ho hp hn.placed h).1
  refine ⟨?_, hnonneg, hle⟩
  rcases writeRec_eq_some hp h with ⟨-, rfl⟩ | ⟨-, e, arr, ep, ap, -, -, rfl⟩
  · rw [blocks_setCursor, setCursor_node]
    exact hn.first
  · rw [blocks_withBlock]
    simp [withBlock]

/-- A record behind the last one keeps the order. -/
theorem ascending_append {l : List MemRec} {r : MemRec}
    (h : l.Pairwise fun a b => a.pageOffset < b.pageOffset)
    (hlast : ∀ a ∈ l.getLast?, a.pageOffset < r.pageOffset) :
    (l ++ [r]).Pairwise fun a b => a.pageOffset < b.pageOffset := by
  rcases List.eq_nil_or_concat' l with rfl | ⟨l, a, rfl⟩
  · simp
  · have ha : a.pageOffset < r.pageOffset := hlast a (by simp)
    refine List.pairwise_append.2 ⟨h, List.pairwise_singleton _ _, ?_⟩
    intro b hb c hc
    rw [List.mem_singleton] at hc
    subst hc
    rcases List.mem_append.1 hb with hb | hb
    · exact Int.lt_trans ((List.pairwise_append.1 h).2.2 b hb a (by simp)) ha
    · rw [List.mem_singleton] at hb
      exact hb ▸ ha

theorem recordOf_pageOffset (c : InsertCall) :
    (recordOf c (addr2PageNum c.dest)).pageOffset = addr2PageOffset c.dest := by
  have h : wsub c.dest (addr2PageNum c.dest * pageSize) = c.dest % pageSize := by
    simp only [wsub, addr2PageNum, pageSize, wordSize]
    omega
  simp only [recordOf, h]
  rfl

/-- The slots of older blocks are not the slot a record is appended at. -/
theorem recordsOf_append (ho : Owned L T.shape) (hp : p ∈ T.nodes) {e : ℕ} {older : List ℕ}
    (hb : T.blocks p = e :: older) {k : ℕ} (hk : k < memRecPerEntry) (r : MemRec) :
    (T.setRec ((T.recBlockEntries e).recArr + k) r).recordsOf ((k : ℤ) + 1) (e :: older) =
      T.recordsOf k (e :: older) ++ [r] := by
  have he : e ∈ T.blocks p := by simp [hb]
  have hold : ∀ f ∈ older, (T.setRec ((T.recBlockEntries e).recArr + k) r).blockRecs f
      memRecPerEntry = T.blockRecs f memRecPerEntry := by
    intro f hf
    refine List.map_congr_left fun i hi => Function.update_of_ne ?_ _ _
    have hi' := List.mem_range.1 hi
    have hne : f ≠ e := by
      rintro rfl
      have hnd := ho.nodup_blocks hp
      rw [show T.shape.blocks p = _ from hb] at hnd
      exact (List.nodup_cons.1 hnd).1 hf
    have hfe : f ∈ T.blocks p := by simp [hb, hf]
    have := ho.recArr_apart (Owned.mem_entries hp hfe) (Owned.mem_entries hp he) hne
    simp only [shape, Function.comp_apply] at this
    show ((T.recBlockEntries f).recArr : ℤ) + i ≠ _
    omega
  have hnew : (T.setRec ((T.recBlockEntries e).recArr + k) r).blockRecs e k = T.blockRecs e k := by
    refine List.map_congr_left fun i hi => Function.update_of_ne ?_ _ _
    have hi' := List.mem_range.1 hi
    show ((T.recBlockEntries e).recArr : ℤ) + i ≠ _
    omega
  have hold' : older.reverse.flatMap (fun f => (T.setRec ((T.recBlockEntries e).recArr + k)
      r).blockRecs f memRecPerEntry) = older.reverse.flatMap fun f =>
        T.blockRecs f memRecPerEntry :=
    List.flatMap_congr fun f hf => hold f (List.mem_reverse.1 hf)
  rw [recordsOf, recordsOf, hold', show ((k : ℤ) + 1).toNat = k + 1 by omega, blockRecs_succ, hnew,
    Int.toNat_natCast, ← List.append_assoc]
  congr 2
  exact Function.update_self ..

/-- `writeRec` appends one record, in the current block or in a new one. -/
theorem records_writeRec (ho : Owned L T.shape) {c : InsertCall} {pageNum : ℕ}
    (hp : T.findNode pageNum = some p) (hn : Tidy T p)
    (h : writeRec L c pageNum p T = some T') :
    T'.records p = T.records p ++ [recordOf c pageNum] := by
  set r := recordOf c pageNum with hr
  have hpn := mem_nodes_of_findNode hp
  obtain ⟨older, hb⟩ := hn.blocks_eq
  rcases writeRec_eq_some hp h with ⟨hidx, rfl⟩ | ⟨hidx, e, arr, ep, ap, he, ha, rfl⟩
  · obtain ⟨k, hk⟩ := Int.eq_ofNat_of_zero_le hn.idx_nonneg
    rw [hk] at hidx
    have hk' : k < memRecPerEntry := by omega
    rw [records, records, setCursor_node, blocks_setCursor, recordsOf_setCursor, blocks_setRec, hb,
      hk]
    exact recordsOf_append ho hpn hb hk' r
  · have hidx' : (T.recTreeNodes p).memRecIdx = memRecPerEntry := Int.le_antisymm hn.idx_le hidx
    have hnode : (withBlock r p e arr ep ap T).recTreeNodes p =
        { T.recTreeNodes p with recModEntry := e, memRecIdx := 1 } := Function.update_self ..
    have hold : ∀ f ∈ T.blocks p, (withBlock r p e arr ep ap T).blockRecs f memRecPerEntry =
        T.blockRecs f memRecPerEntry := by
      intro f hf
      have hfresh : f ≠ e := by
        rintro rfl
        exact ho.entry.fresh he (Owned.mem_entries hpn hf)
      have hent : (withBlock r p e arr ep ap T).recBlockEntries f = T.recBlockEntries f :=
        Function.update_of_ne hfresh _ _
      rw [blockRecs, hent]
      refine List.map_congr_left fun i hi => Function.update_of_ne ?_ _ _
      have hi' := List.mem_range.1 hi
      exact fresh_arr_apart ho hpn ha hf (Int.natCast_nonneg i) (by omega)
    have hnew : (withBlock r p e arr ep ap T).blockRecs e 1 = [r] := by
      simp [blockRecs, slot, withBlock]
    rw [records, records, blocks_withBlock, hnode, hidx', recordsOf]
    refine congrArg₂ (· ++ ·) ?_ hnew
    rw [List.flatMap_congr fun f hf => hold f (List.mem_reverse.1 hf), hb, recordsOf,
      List.reverse_cons, List.flatMap_append, List.flatMap_singleton, Int.toNat_natCast]

/-- `T'` is `T` with one record appended to the page of `p`. -/
structure Appended (T T' : RecTree) (p : ℕ) (r : MemRec) : Prop where
  records : T'.records p = T.records p ++ [r]
  inv : NodeInv T' p
  others : ∀ q ∈ T.nodes, q ≠ p → SameNode T T' q
  nodes : T'.nodes = T.nodes

/-- `writeRec` behind a record that lies below keeps the node in order. -/
theorem appended_writeRec (ho : Owned L T.shape) {c : InsertCall}
    (hp : T.findNode (addr2PageNum c.dest) = some p) (hn : NodeInv T p)
    (hlast : ∀ r ∈ (T.records p).getLast?, r.pageOffset < addr2PageOffset c.dest)
    (h : writeRec L c (addr2PageNum c.dest) p T = some T') :
    Appended T T' p (recordOf c (addr2PageNum c.dest)) := by
  have hrec := records_writeRec ho hp hn.tidy h
  set r := recordOf c (addr2PageNum c.dest) with hr
  have hoff : r.pageOffset = addr2PageOffset c.dest := recordOf_pageOffset c
  have hin : ∀ a ∈ T'.records p, 0 ≤ a.pageOffset ∧ a.pageOffset < pageSize := by
    intro a ha
    rw [hrec] at ha
    rcases List.mem_append.1 ha with ha | ha
    · exact hn.inPage a ha
    · rw [List.mem_singleton] at ha
      rw [ha, hoff]
      exact ⟨addr2PageOffset_nonneg _, addr2PageOffset_lt _⟩
  have hasc : (T'.records p).Pairwise fun a b => a.pageOffset < b.pageOffset := by
    rw [hrec]
    refine ascending_append hn.ascending fun a ha => ?_
    rw [hoff]
    exact hlast a ha
  obtain ⟨hfirst, hnonneg, hle⟩ := tidy_writeRec ho hp hn.tidy h
  obtain ⟨-, hothers⟩ := placed_writeRec ho hp hn.placed h
  rcases writeRec_eq_some hp h with ⟨-, rfl⟩ | ⟨hidx, e, arr, ep, ap, -, -, rfl⟩
  · refine ⟨hrec, ⟨hfirst, hnonneg, hle, ?_, ?_, hin, hasc⟩, hothers, by simp [RecTree.nodes]⟩
    · intro f hf hne
      rw [setCursor_node] at hne
      rw [blocks_setCursor] at hf
      rw [setCursor_entry_of_ne hne]
      exact hn.full f hf hne
    · rw [setCursor_node]
      exact setCursor_filled _ _
  · have hnode : (withBlock r p e arr ep ap T).recTreeNodes p =
        { T.recTreeNodes p with recModEntry := e, memRecIdx := 1 } := Function.update_self ..
    refine ⟨hrec, ⟨hfirst, hnonneg, hle, ?_, ?_, hin, hasc⟩, hothers, rfl⟩
    · intro f hf hne
      rw [hnode] at hne
      rw [blocks_withBlock] at hf
      have hf' : f ∈ T.blocks p := (List.mem_cons.1 hf).resolve_left hne
      rw [show (withBlock r p e arr ep ap T).recBlockEntries f = T.recBlockEntries f from
        Function.update_of_ne hne _ _]
      -- the block that was current until now is full as well
      by_cases hcur' : f = (T.recTreeNodes p).recModEntry
      · rw [hcur', hn.current]
        exact Int.le_antisymm hn.idx_le hidx
      · exact hn.full f hf' hcur'
    · rw [hnode]
      simp [withBlock]

end RecTree

end Cidl
