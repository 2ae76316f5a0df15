import Cidl.Lib.Ascending
import Cidl.Records.CopyLoop
import Cidl.Records.Walk

/-!
# What a traced copy inserts, page by page

`tsMemcpyTraced_eq` computes the calls of `insertRec` that `ts_memcpy_traced`
makes: for the first source page those of the records `firstIndices`, for the
others those of the records `laterIndices`.  Both depend on three numbers only,
how many older blocks the page has, how full its newest block is, and how many
of its records lie below the range.  The searches of the first page, `findBlock`
and `findSlot`, go by the page offsets, and `recAt_offset_iff` turns their tests
into tests of record numbers.
-/

namespace Cidl

open SearchTree Shape

namespace RecTree

variable {L : Libc} {T T' T₀ U : RecTree} {ofa : ℤ → Option ℕ} {p page : ℕ} {pages : List ℕ}

/-! ## Addresses of the records of a page -/

/-- How many records of a page lie below an address. -/
def below (T : RecTree) (p page bound : ℕ) : ℕ :=
  (T.records p).countP fun r => decide (getAddr page r.pageOffset < bound)

theorem recAt_mem (h : NodeInv T p) {j : ℕ} (hj : j < T.recCount p) :
    T.recAt p j ∈ T.records p := by
  rw [records_eq_recAt h.tidy]
  exact List.mem_map_of_mem (List.mem_range.2 hj)

theorem records_getElem (h : NodeInv T p) {j : ℕ} (hj : j < (T.records p).length) :
    (T.records p)[j] = T.recAt p j := by
  simp only [records_eq_recAt h.tidy]
  simp

theorem length_records (h : Tidy T p) : (T.records p).length = T.recCount p := by
  simp [records_eq_recAt h]

theorem addr_lt_iff (h : NodeInv T p) (hw : (page + 1) * pageSize ≤ wordSize) (bound : ℕ) {j : ℕ}
    (hj : j < T.recCount p) :
    getAddr page (T.recAt p j).pageOffset < bound ↔ j < T.below p page bound := by
  rw [← length_records h.tidy] at hj
  have hkey := key_lt_iff (addr_ascending h hw) bound hj
  rwa [records_getElem h hj] at hkey

theorem below_le (h : NodeInv T p) (page bound : ℕ) : T.below p page bound ≤ T.recCount p := by
  rw [← length_records h.tidy]
  exact List.countP_le_length

theorem addr_lt (h : NodeInv T p) (hw : (page + 1) * pageSize ≤ wordSize) {i j : ℕ} (hij : i < j)
    (hj : j < T.recCount p) :
    getAddr page (T.recAt p i).pageOffset < getAddr page (T.recAt p j).pageOffset := by
  rw [← length_records h.tidy] at hj
  have := List.pairwise_iff_getElem.1 (addr_ascending h hw) i j (hij.trans hj) hj hij
  rwa [records_getElem h, records_getElem h] at this

theorem recordCall_injOn (h : NodeInv T p) (hw : (page + 1) * pageSize ≤ wordSize) {dest src : ℕ}
    {i j : ℕ} (hi : i < T.recCount p) (hj : j < T.recCount p)
    (heq : recordCall dest src page (T.recAt p i) = recordCall dest src page (T.recAt p j)) :
    i = j := by
  have haddr : getAddr page (T.recAt p i).pageOffset = getAddr page (T.recAt p j).pageOffset :=
    congrArg InsertCall.src heq
  rcases Nat.lt_trichotomy i j with hij | hij | hij
  · exact absurd haddr (Nat.ne_of_lt (addr_lt h hw hij hj))
  · exact hij
  · exact absurd haddr.symm (Nat.ne_of_lt (addr_lt h hw hij hi))

/-- Whether a record of the page of `src` lies below `src` shows at its offset. -/
theorem offset_le_iff {src : ℕ} (hw : (addr2PageNum src + 1) * pageSize ≤ wordSize) {r : MemRec}
    (h₀ : 0 ≤ r.pageOffset) (h₁ : r.pageOffset < pageSize) :
    addr2PageOffset src ≤ r.pageOffset ↔ ¬ getAddr (addr2PageNum src) r.pageOffset < src := by
  rw [getAddr_eq h₀ h₁ hw, addr2PageOffset_eq]
  simp only [addr2PageNum, pageSize] at *
  omega

/-! ## The first page -/

/-- The block to begin with when the newest one holds `c` records and `lo` of
the page lie below the range: the first one whose slot `c - 1` does not. -/
def firstBlock (c lo : ℕ) : ℕ := (lo + memRecPerEntry - c) / memRecPerEntry

/-- Whether there is anything to copy on the first page. -/
def Begins (m c lo : ℕ) : Prop := 0 < c ∧ lo < memRecPerEntry * m + c

instance (m c lo : ℕ) : Decidable (Begins m c lo) := inferInstanceAs (Decidable (_ ∧ _))

/-- The slot of its first block at which the copying begins. -/
def firstSlot (c lo : ℕ) : ℕ := lo - memRecPerEntry * firstBlock c lo

/-- The numbers of the records that are copied from the first page. -/
def firstIndices (m c lo : ℕ) : List ℕ :=
  if Begins m c lo then copiedIndices m c (firstSlot c lo) (firstBlock c lo) (firstSlot c lo)
  else []

/-- The numbers of the records that are copied from a later page. -/
def laterIndices (m c : ℕ) : List ℕ := copiedIndices m c c 0 0

/-- The node of the first page is cut where the copying begins. -/
def cutFirst (T : RecTree) (p lo : ℕ) : RecTree :=
  let c := (T.recTreeNodes p).memRecIdx.toNat
  if Begins ((T.blocks p).length - 1) c lo then
    T.setCursor p ((T.oldestFirst p).getD (firstBlock c lo) 0) (firstSlot c lo)
  else T

theorem findBlock_eq (uplimit offset : ℤ) (es : List ℕ) :
    T.findBlock uplimit offset es = es.find? fun e =>
      decide (offset ≤ (T.slot (T.recBlockEntries e).recArr (uplimit - 1)).pageOffset) := by
  induction es with
  | nil => rfl
  | cons e es ih =>
    rw [findBlock, List.find?_cons, ih]
    split
    · rename_i hoff
      rw [decide_eq_true hoff]
    · rename_i hoff
      rw [decide_eq_false hoff]

/-- The last slot of a block that the search for the first block looks at. -/
theorem lastSlot_eq (h : NodeInv T p) (hc : 0 < (T.recTreeNodes p).memRecIdx) (k : ℕ) :
    T.slot (T.recBlockEntries ((T.oldestFirst p).getD k 0)).recArr
      ((T.recTreeNodes p).memRecIdx - 1) =
        T.recAt p (memRecPerEntry * k + ((T.recTreeNodes p).memRecIdx.toNat - 1)) := by
  have hle := h.idx_le
  rw [recAt_eq k (by omega)]
  congr 1
  omega

theorem length_oldestFirst (h : NodeInv T p) :
    (T.oldestFirst p).length = (T.blocks p).length - 1 + 1 := by
  obtain ⟨older, hb⟩ := h.blocks_eq
  rw [oldestFirst, show T.blocks p = _ from hb]
  simp

section

variable {src : ℕ} (h : NodeInv T p) (hw : (addr2PageNum src + 1) * pageSize ≤ wordSize)

include h hw

theorem recAt_offset_iff {j : ℕ} (hj : j < T.recCount p) :
    addr2PageOffset src ≤ (T.recAt p j).pageOffset ↔ T.below p (addr2PageNum src) src ≤ j := by
  obtain ⟨h₀, h₁⟩ := h.inPage _ (recAt_mem h hj)
  rw [offset_le_iff hw h₀ h₁, addr_lt_iff h hw src hj, Nat.not_lt]

/-- The test of the search for the first block, by number. -/
theorem lastSlot_offset_iff (hc : 0 < (T.recTreeNodes p).memRecIdx) {k : ℕ}
    (hk : k < (T.oldestFirst p).length) :
    addr2PageOffset src ≤ (T.slot (T.recBlockEntries ((T.oldestFirst p).getD k 0)).recArr
      ((T.recTreeNodes p).memRecIdx - 1)).pageOffset ↔
        T.below p (addr2PageNum src) src ≤
          memRecPerEntry * k + ((T.recTreeNodes p).memRecIdx.toNat - 1) := by
  have hlen := length_oldestFirst h
  rw [lastSlot_eq h hc k, recAt_offset_iff h hw]
  simp only [recCount, memRecPerEntry]
  omega

theorem findBlock_some
    (hb : Begins ((T.blocks p).length - 1) (T.recTreeNodes p).memRecIdx.toNat
      (T.below p (addr2PageNum src) src)) :
    firstBlock (T.recTreeNodes p).memRecIdx.toNat (T.below p (addr2PageNum src) src) <
        (T.oldestFirst p).length ∧
      T.findBlock (T.recTreeNodes p).memRecIdx (addr2PageOffset src) (T.oldestFirst p) =
        some ((T.oldestFirst p).getD (firstBlock (T.recTreeNodes p).memRecIdx.toNat
          (T.below p (addr2PageNum src) src)) 0) := by
  obtain ⟨hc, hlo⟩ := hb
  have hlen := length_oldestFirst h
  have hle := h.idx_le
  set c := (T.recTreeNodes p).memRecIdx.toNat with hcdef
  set lo := T.below p (addr2PageNum src) src with hlodef
  have hk : firstBlock c lo < (T.oldestFirst p).length := by
    simp only [firstBlock, memRecPerEntry] at *
    omega
  refine ⟨hk, ?_⟩
  rw [findBlock_eq, List.find?_eq_some_iff_getElem]
  have hget : ∀ k, ∀ hk : k < (T.oldestFirst p).length,
      (T.oldestFirst p)[k] = (T.oldestFirst p).getD k 0 := fun k hk => by simp [hk]
  refine ⟨?_, _, hk, hget _ hk, fun j hj => ?_⟩
  · rw [decide_eq_true_eq, lastSlot_offset_iff h hw (by omega) hk, ← hcdef, ← hlodef]
    simp only [firstBlock, memRecPerEntry] at *
    omega
  · have hj' : j < (T.oldestFirst p).length := hj.trans hk
    rw [hget j hj', Bool.not_eq_true', decide_eq_false_iff_not,
      lastSlot_offset_iff h hw (by omega) hj', ← hcdef, ← hlodef]
    simp only [firstBlock, memRecPerEntry] at *
    omega

theorem findBlock_none (hc : 0 < (T.recTreeNodes p).memRecIdx)
    (hlo : T.recCount p ≤ T.below p (addr2PageNum src) src) :
    T.findBlock (T.recTreeNodes p).memRecIdx (addr2PageOffset src) (T.oldestFirst p) = none := by
  have hlen := length_oldestFirst h
  rw [findBlock_eq, List.find?_eq_none]
  intro e he
  obtain ⟨k, hk, rfl⟩ := List.getElem_of_mem he
  have hget : (T.oldestFirst p)[k] = (T.oldestFirst p).getD k 0 := by simp [hk]
  rw [hget, decide_eq_true_eq, lastSlot_offset_iff h hw hc hk]
  simp only [recCount, memRecPerEntry] at *
  omega

theorem findSlot_some
    (hb : Begins ((T.blocks p).length - 1) (T.recTreeNodes p).memRecIdx.toNat
      (T.below p (addr2PageNum src) src)) :
    T.findSlot (T.recBlockEntries ((T.oldestFirst p).getD (firstBlock
        (T.recTreeNodes p).memRecIdx.toNat (T.below p (addr2PageNum src) src)) 0)).recArr
      (T.recTreeNodes p).memRecIdx (addr2PageOffset src) =
        some (firstSlot (T.recTreeNodes p).memRecIdx.toNat (T.below p (addr2PageNum src) src)) := by
  have hk := (findBlock_some h hw hb).1
  obtain ⟨hc, hlo⟩ := hb
  have hlen := length_oldestFirst h
  have hle := h.idx_le
  set c := (T.recTreeNodes p).memRecIdx.toNat with hcdef
  set lo := T.below p (addr2PageNum src) src with hlodef
  have hslot : ∀ i < c, (addr2PageOffset src ≤ (T.slot (T.recBlockEntries
      ((T.oldestFirst p).getD (firstBlock c lo) 0)).recArr i).pageOffset ↔
        lo ≤ memRecPerEntry * firstBlock c lo + i) := fun i hi => by
    rw [← recAt_eq _ (by omega), recAt_offset_iff h hw]
    simp only [recCount, memRecPerEntry] at *
    omega
  rw [findSlot, List.find?_range_eq_some]
  have hfirst : firstSlot c lo < c := by
    simp only [firstSlot, firstBlock, memRecPerEntry] at *
    omega
  refine ⟨?_, List.mem_range.2 hfirst, fun i hi => ?_⟩
  · rw [decide_eq_true_eq, hslot _ hfirst]
    simp only [firstSlot, memRecPerEntry]
    omega
  · rw [Bool.not_eq_true', decide_eq_false_iff_not, hslot i (hi.trans hfirst)]
    simp only [firstSlot, memRecPerEntry] at *
    omega

end

/-! ## The cut -/

@[simp] theorem recAt_setCursor (e : ℕ) (idx : ℤ) (j : ℕ) :
    (T.setCursor p e idx).recAt p j = T.recAt p j := by
  have harr : ∀ f, ((T.setCursor p e idx).recBlockEntries f).recArr =
    (T.recBlockEntries f).recArr :=
    fun f => congrFun (congrArg Shape.recArr (shape_setCursor p e idx)) f
  have hblocks : (T.setCursor p e idx).oldestFirst p = T.oldestFirst p := by
    rw [oldestFirst, oldestFirst, blocks_setCursor]
  rw [recAt, recAt, hblocks, harr]
  rfl

theorem getD_mem_blocks {k : ℕ} (hk : k < (T.oldestFirst p).length) :
    (T.oldestFirst p).getD k 0 ∈ T.blocks p := by
  rw [List.getD_eq_getElem?_getD, List.getElem?_eq_getElem hk, Option.getD_some]
  exact List.mem_reverse.1 (List.getElem_mem hk)

variable (pages) in
theorem apart_setCursor (ho : Owned L T.shape) (hall : ∀ q ∈ T.nodes, Placed T q)
    (hp : p ∈ T.nodes) {e : ℕ} (he : e ∈ T.blocks p) {idx : ℤ} (h₀ : 0 ≤ idx)
    (h₁ : idx ≤ memRecPerEntry) :
    Apart L pages (T.setCursor p e idx) (T.setCursor p e idx) ∧
      ∀ q ∈ T.nodes, q ≠ p → SameNode T (T.setCursor p e idx) q := by
  have hshape := shape_setCursor (T := T) p e idx
  have hothers : ∀ q ∈ T.nodes, q ≠ p → SameNode T (T.setCursor p e idx) q := fun q hq hne =>
    sameNode_setCursor hne fun hmem => hne (ho.owner_unique hq hp hmem he)
  refine ⟨Apart.refl (by rw [hshape]; exact ho) fun q hq => ?_, hothers⟩
  rw [RecTree.nodes, hshape] at hq
  by_cases hqp : q = p
  · subst hqp
    exact ⟨by rw [setCursor_node, blocks_setCursor]; exact he, by rw [setCursor_node]; exact h₀,
      by rw [setCursor_node]; exact h₁⟩
  · exact (hothers q hq hqp).placed (hall q hq)

variable (pages) in
/-- What is left of the first page, and what the other pages see of it. -/
theorem apart_cutFirst (hrep : Rep L T) (hp : p ∈ T.nodes) (lo : ℕ) :
    Apart L pages (T.cutFirst p lo) (T.cutFirst p lo) ∧
      ∀ q ∈ T.nodes, q ≠ p → SameNode T (T.cutFirst p lo) q := by
  have hall : ∀ q ∈ T.nodes, Placed T q := fun q hq => (hrep.node q hq).placed
  have h := hrep.node p hp
  unfold cutFirst
  dsimp only
  split
  · rename_i hb
    have hlen := length_oldestFirst h
    have hle := h.idx_le
    refine apart_setCursor pages hrep.owned hall hp (getD_mem_blocks ?_) (by omega) ?_ <;>
    · obtain ⟨hc, hlo⟩ := hb
      simp only [firstSlot, firstBlock, memRecPerEntry] at *
      omega
  · exact ⟨Apart.refl hrep.owned hall, fun q _ _ => SameNode.refl T q⟩

theorem findNode_congr (h : T'.shape = T.shape) (page : ℕ) :
    T'.findNode page = T.findNode page := by
  show tfind (byKey T'.shape.pageNum page) T'.shape.root = _
  rw [h]
  rfl

theorem findNode_cutFirst (lo page : ℕ) : (T.cutFirst p lo).findNode page = T.findNode page := by
  unfold cutFirst
  dsimp only
  split
  · exact findNode_congr (shape_setCursor ..) page
  · rfl

/-! ## What a page copies -/

/-- Only valid records are copied. -/
theorem lt_of_mem_copiedIndices {m c last k i j : ℕ} (hc : c ≤ memRecPerEntry) (hlast : last ≤ c)
    (hi : i ≤ memRecPerEntry) (hk : k ≤ m) (hj : j ∈ copiedIndices m c last k i) :
    j < memRecPerEntry * m + c := by
  rw [mem_copiedIndices hc (by omega) hi hk] at hj
  simp only [memRecPerEntry] at *
  obtain ⟨-, hm, hlimit⟩ := hj
  split at hlimit <;> omega

theorem lt_of_mem_firstIndices {m c lo j : ℕ} (hc : c ≤ memRecPerEntry)
    (hj : j ∈ firstIndices m c lo) : j < memRecPerEntry * m + c := by
  unfold firstIndices at hj
  split at hj
  · rename_i hb
    refine lt_of_mem_copiedIndices hc ?_ ?_ ?_ hj <;>
    · obtain ⟨hc, hlo⟩ := hb
      simp only [firstSlot, firstBlock, memRecPerEntry] at *
      omega
  · cases hj

theorem lt_of_mem_laterIndices {m c j : ℕ} (hc : c ≤ memRecPerEntry)
    (hj : j ∈ laterIndices m c) : j < memRecPerEntry * m + c :=
  lt_of_mem_copiedIndices hc (Nat.le_refl _) (Nat.zero_le _) (Nat.zero_le _) hj

/-- The calls by which the records with the given numbers are copied. -/
def callsOf (T : RecTree) (dest src p page : ℕ) (is : List ℕ) : List InsertCall :=
  is.map fun j => recordCall dest src page (T.recAt p j)

variable (ofa) in
/-- `copyFrom` by number: from slot `i` of the `k`-th oldest block on. -/
theorem copyFrom_indices (dest src fuel : ℕ) (ha : Apart L pages T₀ U) (hpage : page ∈ pages)
    (hp : T₀.findNode page = some p) {srcLastEntry : ℕ}
    (hlast : (T₀.blocks p).head? = some srcLastEntry) (hnd : (T₀.blocks p).Nodup)
    (hidx : (T₀.recTreeNodes p).memRecIdx ≤ memRecPerEntry) {uplimit : ℤ}
    (hle : uplimit ≤ memRecPerEntry) {k i : ℕ} (hk : k < (T₀.oldestFirst p).length)
    (hfuel : (T₀.blocks p).length ≤ fuel) {res : RecTree → ℕ}
    (hres : ∀ V : RecTree, V.walks = T₀.walks → res V = p)
    (hdest : ∀ j ∈ copiedIndices ((T₀.blocks p).length - 1) uplimit.toNat
        (T₀.recTreeNodes p).memRecIdx.toNat k i,
      addr2PageNum (recordCall dest src page (T₀.recAt p j)).dest ∉ pages) :
    copyFrom (steadyInsert L ofa) fuel dest src page res ((T₀.oldestFirst p).getD k 0) srcLastEntry
        i uplimit U =
      runAll (steadyInsert L ofa) (T₀.callsOf dest src p page
        (copiedIndices ((T₀.blocks p).length - 1) uplimit.toNat
          (T₀.recTreeNodes p).memRecIdx.toNat k i)) U := by
  have hmap := copied_eq_map hnd hlast hidx hle (i := i) hk
  have hsplit : T₀.oldestFirst p = (T₀.oldestFirst p).take k ++
      (T₀.oldestFirst p).getD k 0 :: (T₀.oldestFirst p).drop (k + 1) := by
    rw [List.getD_eq_getElem?_getD, List.getElem?_eq_getElem hk, Option.getD_some,
      List.getElem_cons_drop, List.take_append_drop]
  rw [copyFrom_eq ha hpage hp hlast hnd hidx hle hsplit _ hres _, hmap, List.map_map]
  · rfl
  · have hlen : (T₀.oldestFirst p).length = (T₀.blocks p).length := List.length_reverse
    rw [List.length_drop]
    omega
  · intro r hr
    rw [hmap] at hr
    obtain ⟨j, hj, rfl⟩ := List.mem_map.1 hr
    exact hdest j hj

/-- `copyFirstPage` begins at the slot that its searches find. -/
theorem copyFirstPage_some {insert : InsertCall → RecTree → Option RecTree}
    {fuel dest src start e i : ℕ}
    (hblock : T.findBlock (T.recTreeNodes p).memRecIdx (addr2PageOffset src) (T.oldestFirst p) =
      some e)
    (hslot : T.findSlot (T.recBlockEntries e).recArr (T.recTreeNodes p).memRecIdx
      (addr2PageOffset src) = some i) :
    copyFirstPage L insert fuel dest src start p T =
      copyFrom insert fuel dest src start (T.reread L p) e (T.recTreeNodes p).recModEntry i
        (T.recTreeNodes p).memRecIdx (T.setCursor p e i) := by
  unfold copyFirstPage
  dsimp only
  split
  · rename_i hnil
    rw [show T.oldestFirst p = [] from hnil] at hblock
    cases hblock
  · rw [show T.findBlock _ _ (T.tailheads (T.recTreeNodes p).listHead).reverse = _ from hblock]
    dsimp only
    rw [hslot]

/-- A node without records on or behind `src` is left alone. -/
theorem copyFirstPage_nothing {dest src : ℕ} (hrep : Rep L T)
    (hp : T.findNode (addr2PageNum src) = some p)
    (hw : (addr2PageNum src + 1) * pageSize ≤ wordSize) {fuel : ℕ}
    (hb : ¬ Begins ((T.blocks p).length - 1) (T.recTreeNodes p).memRecIdx.toNat
      (T.below p (addr2PageNum src) src)) (hfuel : (T.blocks p).length ≤ fuel) :
    copyFirstPage L (steadyInsert L ofa) fuel dest src (addr2PageNum src) p T = some T := by
  have hpn := mem_nodes_of_findNode hp
  have h := hrep.node p hpn
  have hle := h.idx_le
  have hlen := length_oldestFirst h
  unfold copyFirstPage
  dsimp only
  split
  · rename_i hnil
    rw [show T.oldestFirst p = [] from hnil] at hlen
    cases hlen
  · rw [show (T.tailheads (T.recTreeNodes p).listHead).reverse = T.oldestFirst p from rfl]
    by_cases hc : 0 < (T.recTreeNodes p).memRecIdx
    · rw [findBlock_none h hw hc]
      simp only [Begins, recCount] at *
      omega
    · -- the limit of all loops is zero
      have hzero : (T.recTreeNodes p).memRecIdx = 0 := by
        have := h.idx_nonneg
        omega
      split
      · rfl
      · rename_i e he
        rw [hzero, findSlot, Int.toNat_zero, List.range_zero, List.find?_nil]
        dsimp only
        rw [findBlock_eq] at he
        obtain ⟨k, hk, hke⟩ := List.getElem_of_mem (List.mem_of_find?_eq_some he)
        have hget : (T.oldestFirst p).getD k 0 = e := by simp [hk, hke]
        have hall : ∀ q ∈ T.nodes, Placed T q := fun q hq => (hrep.node q hq).placed
        have hnone : copiedIndices ((T.blocks p).length - 1) (0 : ℤ).toNat
            (T.recTreeNodes p).memRecIdx.toNat k 0 = [] := by
          simp [copiedIndices, hzero]
        rw [← hget, copyFrom_indices _ _ _ _ (Apart.refl hrep.owned hall)
          (List.mem_singleton_self _) hp h.first (hrep.owned.nodup_blocks hpn) hle
          (by simp) hk hfuel (fun V hV => reread_of_walks L p hV)
          (fun j hj => by rw [hnone] at hj; cases hj), hnone]
        rfl

theorem copyFirstPage_eq {dest src : ℕ} (hrep : Rep L T) (hpage : addr2PageNum src ∈ pages)
    (hp : T.findNode (addr2PageNum src) = some p)
    (hw : (addr2PageNum src + 1) * pageSize ≤ wordSize) {fuel : ℕ}
    (hfuel : (T.blocks p).length ≤ fuel)
    (hdest : ∀ j ∈ firstIndices ((T.blocks p).length - 1) (T.recTreeNodes p).memRecIdx.toNat
        (T.below p (addr2PageNum src) src),
      addr2PageNum (recordCall dest src (addr2PageNum src) (T.recAt p j)).dest ∉ pages) :
    copyFirstPage L (steadyInsert L ofa) fuel dest src (addr2PageNum src) p T =
      runAll (steadyInsert L ofa) (T.callsOf dest src p (addr2PageNum src)
        (firstIndices ((T.blocks p).length - 1) (T.recTreeNodes p).memRecIdx.toNat
          (T.below p (addr2PageNum src) src)))
        (T.cutFirst p (T.below p (addr2PageNum src) src)) := by
  have hpn := mem_nodes_of_findNode hp
  have h := hrep.node p hpn
  have hle := h.idx_le
  have hlen := length_oldestFirst h
  have hapart := apart_cutFirst pages hrep hpn (T.below p (addr2PageNum src) src)
  by_cases hb : Begins ((T.blocks p).length - 1) (T.recTreeNodes p).memRecIdx.toNat
      (T.below p (addr2PageNum src) src)
  · obtain ⟨hk, hblock⟩ := findBlock_some h hw hb
    have hslot := findSlot_some h hw hb
    rw [copyFirstPage_some hblock hslot, firstIndices, if_pos hb]
    have hfirst : firstSlot (T.recTreeNodes p).memRecIdx.toNat
        (T.below p (addr2PageNum src) src) ≤ memRecPerEntry := by
      obtain ⟨hc, hlo⟩ := hb
      simp only [firstSlot, firstBlock, memRecPerEntry] at *
      omega
    rw [show T.cutFirst p _ = _ from if_pos hb] at hapart ⊢
    generalize hk' : firstBlock (T.recTreeNodes p).memRecIdx.toNat
      (T.below p (addr2PageNum src) src) = k at *
    generalize hi' : firstSlot (T.recTreeNodes p).memRecIdx.toNat
      (T.below p (addr2PageNum src) src) = i at *
    set V := T.setCursor p ((T.oldestFirst p).getD k 0) i with hV
    have hblocks : V.blocks p = T.blocks p := blocks_setCursor ..
    have holdest : V.oldestFirst p = T.oldestFirst p := by rw [oldestFirst, hblocks, ← oldestFirst]
    have hnode : (V.recTreeNodes p).memRecIdx = i := by rw [hV, setCursor_node]
    have hfind : V.findNode (addr2PageNum src) = some p := by
      rw [findNode_congr (shape_setCursor ..), hp]
    have hrun := copyFrom_indices ofa dest src fuel (k := k) (i := i) hapart.1 hpage hfind
      (by rw [hblocks]; exact h.first) (by rw [hblocks]; exact hrep.owned.nodup_blocks hpn)
      (by rw [hnode]; omega) hle (by rw [holdest]; exact hk) (by rw [hblocks]; exact hfuel)
      fun W hW => reread_of_walks (T := T) L p hW
    rw [holdest, hblocks, hnode, Int.toNat_natCast] at hrun
    rw [hrun]
    · simp [callsOf, hV]
    · intro j hj
      rw [hV, recAt_setCursor]
      have hmem : j ∈ firstIndices ((T.blocks p).length - 1) (T.recTreeNodes p).memRecIdx.toNat
          (T.below p (addr2PageNum src) src) := by
        rw [firstIndices, if_pos hb, hk', hi']
        exact hj
      exact hdest j hmem
  · rw [copyFirstPage_nothing hrep hp hw hb hfuel, firstIndices, if_neg hb,
      show T.cutFirst p _ = _ from if_neg hb]
    rfl

variable (ofa) in
theorem copyNextPage_eq {dest src : ℕ} (fuel : ℕ) (ha : Apart L pages T₀ U) (hpage : page ∈ pages)
    (hp : T₀.findNode page = some p) (h : NodeInv T₀ p) (hnd : (T₀.blocks p).Nodup)
    (hfuel : (T₀.blocks p).length ≤ fuel)
    (hdest : ∀ j ∈ laterIndices ((T₀.blocks p).length - 1) (T₀.recTreeNodes p).memRecIdx.toNat,
      addr2PageNum (recordCall dest src page (T₀.recAt p j)).dest ∉ pages) :
    copyNextPage L (steadyInsert L ofa) fuel dest src page p U =
      runAll (steadyInsert L ofa) (T₀.callsOf dest src p page
        (laterIndices ((T₀.blocks p).length - 1) (T₀.recTreeNodes p).memRecIdx.toNat)) U := by
  have hsame := ha.same page hpage p hp
  have hle := h.idx_le
  have hlen := length_oldestFirst h
  have hlast : U.tailqLast (U.recTreeNodes p).listHead = some ((T₀.oldestFirst p).getD 0 0) := by
    rw [tailqLast, hsame.node, hsame.queue, ← List.head?_reverse,
      List.getD_eq_getElem?_getD, List.head?_eq_getElem?]
    rw [show (T₀.tailheads (T₀.recTreeNodes p).listHead).reverse = T₀.oldestFirst p from rfl,
      List.getElem?_eq_getElem (by omega), Option.getD_some]
  have hrun := copyFrom_indices ofa dest src fuel (k := 0) (i := 0) ha hpage hp h.first hnd hle hle
    (by omega) hfuel (fun V hV => reread_of_walks (T := U) L p (hV.trans ha.walks.symm)) hdest
  rw [copyNextPage, hlast, hsame.node]
  exact hrun

/-! ## The run over the pages -/

/-- The calls by which a source page is copied. -/
def pageCalls (T : RecTree) (dest src page : ℕ) : List InsertCall :=
  match T.findNode page with
  | none => []
  | some p =>
    let m := (T.blocks p).length - 1
    let c := (T.recTreeNodes p).memRecIdx.toNat
    T.callsOf dest src p page
      (if page = addr2PageNum src then firstIndices m c (T.below p page src) else laterIndices m c)

/-- The tree in which the records are inserted: the first page is cut. -/
def cutSource (T : RecTree) (src : ℕ) : RecTree :=
  match T.findNode (addr2PageNum src) with
  | none => T
  | some p => T.cutFirst p (T.below p (addr2PageNum src) src)

@[simp] theorem calls_cutSource (src : ℕ) : (T.cutSource src).calls = T.calls := by
  unfold cutSource cutFirst
  split
  · rfl
  · dsimp only
    split <;> rfl

/-- `ts_memcpy_traced` finds the source pages as they are, whatever it inserts:
no record that it copies goes to one of them. -/
structure SourceApart (T : RecTree) (dest src n : ℕ) : Prop where
  /-- The source range does not wrap around. -/
  noWrap : src + n < wordSize
  apart : ∀ page ∈ pagesFrom (addr2PageNum src) (addr2PageNum (src + n)),
    ∀ c ∈ T.pageCalls dest src page,
      addr2PageNum c.dest ∉ pagesFrom (addr2PageNum src) (addr2PageNum (src + n))

instance (T : RecTree) (dest src n : ℕ) : Decidable (SourceApart T dest src n) :=
  decidable_of_iff (src + n < wordSize ∧
      ∀ page ∈ pagesFrom (addr2PageNum src) (addr2PageNum (src + n)),
        ∀ c ∈ T.pageCalls dest src page,
          addr2PageNum c.dest ∉ pagesFrom (addr2PageNum src) (addr2PageNum (src + n)))
    ⟨fun ⟨h₁, h₂⟩ => ⟨h₁, h₂⟩, fun h => ⟨h.noWrap, h.apart⟩⟩

variable (pages) in
theorem apart_cutSource (hrep : Rep L T) (src : ℕ) :
    Apart L pages (T.cutSource src) (T.cutSource src) ∧
      (∀ page, (T.cutSource src).findNode page = T.findNode page) ∧
      ∀ page, page ≠ addr2PageNum src → ∀ q, T.findNode page = some q →
        SameNode T (T.cutSource src) q := by
  unfold cutSource
  split
  · exact ⟨Apart.refl hrep.owned fun q hq => (hrep.node q hq).placed, fun _ => rfl,
      fun _ _ q _ => SameNode.refl T q⟩
  · rename_i p hp
    obtain ⟨hapart, hsame⟩ := apart_cutFirst pages hrep (mem_nodes_of_findNode hp)
      (T.below p (addr2PageNum src) src)
    refine ⟨hapart, findNode_cutFirst _, fun page hne q hq => hsame q (mem_nodes_of_findNode hq) ?_⟩
    rintro rfl
    rw [findNode_eq_some hrep.owned] at hp hq
    exact hne (hq.2.symm.trans hp.2)

/-- Only records of the page are copied. -/
theorem mem_pageCalls (hrep : Rep L T) {dest src : ℕ} {c : InsertCall}
    (hc : c ∈ T.pageCalls dest src page) :
    ∃ p, T.findNode page = some p ∧ ∃ r ∈ T.records p, c = recordCall dest src page r := by
  unfold pageCalls at hc
  split at hc
  · cases hc
  · rename_i p hp
    obtain ⟨j, hj, rfl⟩ := List.mem_map.1 hc
    have h := hrep.node p (mem_nodes_of_findNode hp)
    have hle := Int.toNat_le.2 h.idx_le
    refine ⟨p, hp, _, recAt_mem h ?_, rfl⟩
    split at hj
    · exact lt_of_mem_firstIndices hle hj
    · exact lt_of_mem_laterIndices hle hj

theorem SameNode.recAt (hsame : SameNode T T' p) (h : NodeInv T p) {j : ℕ} (hj : j < T.recCount p) :
    T'.recAt p j = T.recAt p j := by
  have hcount : T'.recCount p = T.recCount p := by rw [recCount, recCount, hsame.blocks, hsame.node]
  have hrecords := hsame.records h.idx_le
  rw [records_eq_recAt h.tidy, records_eq_recAt (hsame.tidy h.tidy), hcount] at hrecords
  exact List.map_inj_left.1 hrecords j (List.mem_range.2 hj)

/-- A later page is copied as it was at the beginning. -/
theorem copyPage_later {dest src n fuel : ℕ} (hrep : Rep L T) (hsrc : SourceApart T dest src n)
    (hfuel : ∀ p ∈ T.nodes, (T.blocks p).length ≤ fuel)
    (hpage : page ∈ pagesFrom (addr2PageNum src) (addr2PageNum (src + n)))
    (hne : page ≠ addr2PageNum src)
    (ha : Apart L (pagesFrom (addr2PageNum src) (addr2PageNum (src + n))) (T.cutSource src) U) :
    copyPage L (steadyInsert L ofa) fuel dest src page U =
      runAll (steadyInsert L ofa) (T.pageCalls dest src page) U := by
  obtain ⟨-, hfind, hsame⟩ := apart_cutSource [] hrep src
  have hU : U.findNode page = T.findNode page := (ha.find page hpage).trans (hfind page)
  cases hp : T.findNode page with
  | none =>
    rw [copyPage, pageCalls, hU, hp]
    rfl
  | some p =>
    have hpn := mem_nodes_of_findNode hp
    have h := hrep.node p hpn
    have hle := Int.toNat_le.2 h.idx_le
    have hsame := hsame page hne p hp
    have hrun := copyNextPage_eq ofa fuel ha hpage
      ((hfind page).trans hp) (hsame.nodeInv h)
      (by rw [hsame.blocks]; exact hrep.owned.nodup_blocks hpn)
      (by rw [hsame.blocks]; exact hfuel p hpn)
      (fun j hj => by
        rw [hsame.blocks, hsame.node] at hj
        rw [hsame.recAt h (lt_of_mem_laterIndices hle hj)]
        refine hsrc.apart page hpage _ ?_
        rw [pageCalls, hp]
        dsimp only
        rw [if_neg hne]
        exact List.mem_map.2 ⟨j, hj, rfl⟩)
    rw [hsame.blocks, hsame.node] at hrun
    rw [copyPage, pageCalls, hU, hp]
    dsimp only
    rw [if_neg hne, if_neg hne, hrun]
    congr 1
    refine List.map_congr_left fun j hj => ?_
    rw [hsame.recAt h (lt_of_mem_laterIndices hle hj)]

/-- The first page is cut and then copied. -/
theorem copyPage_first {dest src n fuel : ℕ} (hrep : Rep L T) (hsrc : SourceApart T dest src n)
    (hfuel : ∀ p ∈ T.nodes, (T.blocks p).length ≤ fuel) :
    copyPage L (steadyInsert L ofa) fuel dest src (addr2PageNum src) T =
      runAll (steadyInsert L ofa) (T.pageCalls dest src (addr2PageNum src)) (T.cutSource src) := by
  have hpage : addr2PageNum src ∈ pagesFrom (addr2PageNum src) (addr2PageNum (src + n)) :=
    mem_pagesFrom.2 ⟨Nat.le_refl _, Nat.div_le_div_right (Nat.le_add_right _ _)⟩
  cases hp : T.findNode (addr2PageNum src) with
  | none =>
    rw [copyPage, pageCalls, cutSource, hp]
    rfl
  | some p =>
    rw [copyPage, pageCalls, cutSource, hp]
    dsimp only
    rw [if_pos rfl, if_pos rfl]
    exact copyFirstPage_eq hrep hpage hp (page_fits hsrc.noWrap hpage)
      (hfuel p (mem_nodes_of_findNode hp)) fun j hj => hsrc.apart _ hpage _ (by
        rw [pageCalls, hp]
        dsimp only
        rw [if_pos rfl]
        exact List.mem_map.2 ⟨j, hj, rfl⟩)

theorem tsMemcpyTraced_eq {dest src n fuel : ℕ} (hrep : Rep L T) (hsrc : SourceApart T dest src n)
    (hfuel : ∀ p ∈ T.nodes, (T.blocks p).length ≤ fuel) :
    tsMemcpyTraced L (steadyInsert L ofa) fuel dest src n T =
      runAll (steadyInsert L ofa)
        ((pagesFrom (addr2PageNum src) (addr2PageNum (src + n))).flatMap (T.pageCalls dest src))
        (T.cutSource src) := by
  have hle : addr2PageNum src ≤ addr2PageNum (src + n) :=
    Nat.div_le_div_right (Nat.le_add_right _ _)
  have hstep : ∀ page ∈ pagesFrom (addr2PageNum src) (addr2PageNum (src + n)),
      ∀ c ∈ T.pageCalls dest src page, ∀ U V,
        Apart L (pagesFrom (addr2PageNum src) (addr2PageNum (src + n))) (T.cutSource src) U →
        steadyInsert L ofa c U = some V →
        Apart L (pagesFrom (addr2PageNum src) (addr2PageNum (src + n))) (T.cutSource src) V := by
    intro page hpage c hc U V hU hV
    exact apart_steadyInsert hU (hsrc.apart page hpage c hc) hV
  have hlater : ∀ page ∈ pagesFrom (addr2PageNum src + 1) (addr2PageNum (src + n)),
      page ∈ pagesFrom (addr2PageNum src) (addr2PageNum (src + n)) ∧ page ≠ addr2PageNum src :=
    fun page hpage => by
      rw [mem_pagesFrom] at hpage ⊢
      omega
  have hfirst : addr2PageNum src ∈ pagesFrom (addr2PageNum src) (addr2PageNum (src + n)) :=
    mem_pagesFrom.2 ⟨Nat.le_refl _, hle⟩
  have hstart := (apart_cutSource
    (pagesFrom (addr2PageNum src) (addr2PageNum (src + n))) hrep src).1
  rw [tsMemcpyTraced, wadd_of_lt hsrc.noWrap]
  generalize hpages : pagesFrom (addr2PageNum src) (addr2PageNum (src + n)) = pages at *
  rw [← hpages, pagesFrom_eq, if_pos hle, runAll_cons, List.flatMap_cons, runAll_append,
    copyPage_first hrep hsrc hfuel]
  refine Option.bind_congr fun U hU => ?_
  refine runAll_flatMap (P := Apart L pages (T.cutSource src)) (fun page hpage V hV => ?_)
    (fun page hpage => hstep page (hlater page hpage).1)
    (runAll_invariant (hstep _ hfirst) hstart hU)
  subst hpages
  exact copyPage_later hrep hsrc hfuel (hlater page hpage).1 (hlater page hpage).2 hV

end RecTree

end Cidl
