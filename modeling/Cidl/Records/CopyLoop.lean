import Cidl.Records.Apart
import Cidl.Records.Frame
import Cidl.Records.Reclaim

/-!
# What the copy loops insert

The loops of `ts_memcpy_traced` read the queues and slots of the source pages
from a tree that changes with every record they insert.  When no insertion goes
to a source page and none reclaims garbage, they insert what a list says that
is known before they begin (`copyFrom_eq`): the records of some slots, each
with the shifted address of `recordCall`.

The records of a page are numbered from the oldest on, `recAt`, so that slot
`i` of the `k`-th oldest block has the number `38 * k + i`.  What a page copies
is `copiedIndices` of how many blocks it has, how full they are, and where the
loop begins.
-/

namespace Cidl

open SearchTree Shape

namespace RecTree

variable {L : Libc} {T T' T₀ U : RecTree} {ofa : ℤ → Option ℕ} {p page : ℕ} {pages : List ℕ}

/-! ## The records of a page by number -/

/-- The blocks of a node, oldest first. -/
def oldestFirst (T : RecTree) (p : ℕ) : List ℕ := (T.blocks p).reverse

theorem mem_blocks_of_oldestFirst {pre rest : List ℕ} {e : ℕ}
    (hb : T.oldestFirst p = pre ++ e :: rest) : e ∈ T.blocks p := by
  rw [← List.mem_reverse, show (T.blocks p).reverse = _ from hb]
  exact List.mem_append_right _ (List.mem_cons_self ..)

/-- The record number `j` of a node. -/
def recAt (T : RecTree) (p j : ℕ) : MemRec :=
  T.slot (T.recBlockEntries ((T.oldestFirst p).getD (j / memRecPerEntry) 0)).recArr
    (j % memRecPerEntry : ℕ)

theorem recAt_eq (k : ℕ) {i : ℕ} (hi : i < memRecPerEntry) :
    T.recAt p (memRecPerEntry * k + i) =
      T.slot (T.recBlockEntries ((T.oldestFirst p).getD k 0)).recArr i := by
  have hdiv : (memRecPerEntry * k + i) / memRecPerEntry = k := by
    simp only [memRecPerEntry] at *
    omega
  have hmod : (memRecPerEntry * k + i) % memRecPerEntry = i := by
    simp only [memRecPerEntry] at *
    omega
  rw [recAt, hdiv, hmod]

/-- The slots of the `k`-th oldest block from `i` up to `c`. -/
theorem blockRecs_eq_recAt (k i : ℕ) {c : ℕ} (hc : c ≤ memRecPerEntry) :
    (T.blockRecs ((T.oldestFirst p).getD k 0) c).drop i =
      (List.range' (memRecPerEntry * k + i) (c - i)).map (T.recAt p) := by
  rw [blockRecs, ← List.map_drop, List.range_eq_range', List.drop_range', List.range'_eq_map_range,
    List.range'_eq_map_range, List.map_map, List.map_map]
  refine List.map_congr_left fun j hj => ?_
  have hj := List.mem_range.1 hj
  simp only [Function.comp_apply]
  rw [Nat.add_assoc (memRecPerEntry * k), recAt_eq k (by omega)]
  congr 2
  omega

/-- How many records a node has. -/
def recCount (T : RecTree) (p : ℕ) : ℕ :=
  memRecPerEntry * ((T.blocks p).length - 1) + (T.recTreeNodes p).memRecIdx.toNat

theorem fullBlocks_eq (k : ℕ) (hk : k ≤ (T.oldestFirst p).length) :
    ((T.oldestFirst p).take k).flatMap (fun e => T.blockRecs e memRecPerEntry) =
      (List.range (memRecPerEntry * k)).map (T.recAt p) := by
  induction k with
  | zero => rfl
  | succ k ih =>
    have hblock := blockRecs_eq_recAt (T := T) (p := p) k 0 (Nat.le_refl memRecPerEntry)
    rw [List.getD_eq_getElem?_getD, List.getElem?_eq_getElem hk, Option.getD_some,
      List.drop_zero] at hblock
    rw [List.take_add_one, List.flatMap_append, ih (by omega), List.getElem?_eq_getElem hk,
      Option.toList_some, List.flatMap_singleton, hblock, ← List.map_append, Nat.mul_succ,
      List.range_add]
    congr 2

/-- The valid records of a node are those with the first numbers. -/
theorem records_eq_recAt (h : Tidy T p) :
    T.records p = (List.range (T.recCount p)).map (T.recAt p) := by
  obtain ⟨older, hb⟩ := h.blocks_eq
  have holdest : T.oldestFirst p = older.reverse ++ [(T.recTreeNodes p).recModEntry] := by
    rw [oldestFirst, show T.blocks p = _ from hb, List.reverse_cons]
  have hlen : (T.oldestFirst p).length = older.length + 1 := by simp [holdest]
  have hidx : (T.recTreeNodes p).memRecIdx.toNat ≤ memRecPerEntry := by
    have := h.idx_le
    omega
  have hfull := fullBlocks_eq (T := T) (p := p) older.length (by omega)
  have hlast := blockRecs_eq_recAt (T := T) (p := p) older.length 0 hidx
  have htake : (T.oldestFirst p).take older.length = older.reverse := by simp [holdest]
  have hget : (T.oldestFirst p).getD older.length 0 = (T.recTreeNodes p).recModEntry := by
    simp [holdest]
  rw [htake] at hfull
  rw [hget, List.drop_zero] at hlast
  rw [RecTree.records, show T.blocks p = _ from hb, recordsOf, hfull, hlast, ← List.map_append,
    recCount, show T.blocks p = _ from hb, List.length_cons, Nat.add_sub_cancel, List.range_add,
    List.range'_eq_map_range]
  rfl

/-! ## The loops over slots and blocks -/

/-- The call of `insertRec` by which a record of the page `page` is copied. -/
def recordCall (dest src page : ℕ) (r : MemRec) : InsertCall where
  fileOffset := r.fileOffset
  src := getAddr page r.pageOffset
  dest := wadd dest (wsub (getAddr page r.pageOffset) src)
  fileName := r.fileName
  fd := r.fd
  origin := r.origin

theorem Apart.mem_nodes (ha : Apart L pages T₀ U) (hpage : page ∈ pages)
    (hp : T₀.findNode page = some p) : p ∈ U.nodes :=
  mem_nodes_of_findNode ((ha.find page hpage).trans hp)

/-- The queue of a source page is read as it was. -/
theorem Apart.tailqPrev (ha : Apart L pages T₀ U) (hpage : page ∈ pages)
    (hp : T₀.findNode page = some p) {pre rest : List ℕ} {e : ℕ}
    (hb : T₀.oldestFirst p = pre ++ e :: rest) : U.tailqPrev e = rest.head? := by
  have hpn := ha.mem_nodes hpage hp
  have hblocks : U.blocks p = rest.reverse ++ e :: pre.reverse := by
    rw [(ha.same page hpage p hp).blocks, ← List.reverse_reverse (T₀.blocks p),
      show (T₀.blocks p).reverse = _ from hb]
    simp
  cases rest with
  | nil => exact tailqPrev_first ha.owned hpn hblocks
  | cons e' rest =>
    have holder : U.blocks p = rest.reverse ++ e' :: e :: pre.reverse := by
      rw [hblocks]
      simp
    exact tailqPrev_older ha.owned hpn holder

section

variable (dest src : ℕ)

theorem copyRecs_eq (ha : Apart L pages T₀ U) (hpage : page ∈ pages)
    (hp : T₀.findNode page = some p) {e : ℕ} (he : e ∈ T₀.blocks p) (i : ℕ) {uplimit : ℤ}
    (hle : uplimit ≤ memRecPerEntry)
    (hdest : ∀ r ∈ (T₀.blockRecs e uplimit.toNat).drop i,
      addr2PageNum (recordCall dest src page r).dest ∉ pages) :
    copyRecs (steadyInsert L ofa) dest src page (U.recBlockEntries e).recArr i uplimit U =
      runAll (steadyInsert L ofa)
        (((T₀.blockRecs e uplimit.toNat).drop i).map (recordCall dest src page)) U := by
  have hslots : (T₀.blockRecs e uplimit.toNat).drop i =
      (List.range' i (uplimit.toNat - i)).map fun j =>
        T₀.slot (T₀.recBlockEntries e).recArr (j : ℕ) := by
    rw [blockRecs, ← List.map_drop, List.range_eq_range', List.drop_range']
    simp
  rw [hslots] at hdest ⊢
  rw [List.map_map, copyRecs]
  have hentry := (ha.same page hpage p hp).entries e he
  refine runAll_map (P := Apart L pages T₀) (fun j hj V hV => ?_) (fun j hj V V' hV h => ?_) ha
  · have hj := List.mem_range'_1.1 hj
    have hslot := (hV.same page hpage p hp).slots e he j (by omega) (by omega)
    rw [hentry, copyCall, hslot]
    rfl
  · exact apart_steadyInsert hV (hdest _ (List.mem_map_of_mem hj)) h

/-- Behind the newest block there is none. -/
theorem newest_comes_last (hnd : (T.blocks p).Nodup) {e : ℕ}
    (hfirst : (T.blocks p).head? = some e) {pre rest : List ℕ}
    (hb : T.oldestFirst p = pre ++ e :: rest) : rest = [] := by
  obtain ⟨older, hblocks⟩ := List.head?_eq_some_iff.1 hfirst
  rw [oldestFirst, hblocks, List.reverse_cons] at hb
  rw [hblocks] at hnd
  rcases List.eq_nil_or_concat' rest with rfl | ⟨init, f, rfl⟩
  · rfl
  · rw [← List.cons_append, ← List.append_assoc] at hb
    have hinit := (List.append_inj' hb rfl).1
    have hmem : e ∈ older := List.mem_reverse.1 (hinit ▸ by simp)
    exact absurd hmem (List.nodup_cons.1 hnd).1

theorem getD_eq_newest (hnd : (T.blocks p).Nodup) {e : ℕ} (hfirst : (T.blocks p).head? = some e)
    {b : ℕ} (hb : b < (T.blocks p).length) :
    (T.oldestFirst p).getD b 0 = e ↔ b = (T.blocks p).length - 1 := by
  have hlen : (T.oldestFirst p).length = (T.blocks p).length := List.length_reverse
  have hnd' : (T.oldestFirst p).Nodup := List.nodup_reverse.2 hnd
  have hlt : (T.blocks p).length - 1 < (T.oldestFirst p).length := by omega
  have hget : (T.oldestFirst p)[(T.blocks p).length - 1] = e := by
    obtain ⟨older, hblocks⟩ := List.head?_eq_some_iff.1 hfirst
    simp [oldestFirst, hblocks]
  rw [List.getD_eq_getElem?_getD, List.getElem?_eq_getElem (by omega), Option.getD_some, ← hget]
  exact hnd'.getElem_inj_iff

/-- How many slots of a block the loop over the later blocks copies. -/
def copyLimit (T₀ : RecTree) (p srcLastEntry : ℕ) (uplimit : ℤ) (e : ℕ) : ℤ :=
  if e = srcLastEntry then (T₀.recTreeNodes p).memRecIdx else uplimit

/-- The records that the loop over the later blocks copies. -/
def laterRecs (T₀ : RecTree) (p srcLastEntry : ℕ) (uplimit : ℤ) (rest : List ℕ) : List MemRec :=
  rest.flatMap fun e => T₀.blockRecs e (T₀.copyLimit p srcLastEntry uplimit e).toNat

variable {dest src}

/-- The run over the records that a loop copies keeps the source pages. -/
theorem apart_copied {V : RecTree} (ha : Apart L pages T₀ U) {rs : List MemRec}
    (hdest : ∀ r ∈ rs, addr2PageNum (recordCall dest src page r).dest ∉ pages)
    (h : runAll (steadyInsert L ofa) (rs.map (recordCall dest src page)) U = some V) :
    Apart L pages T₀ V := by
  refine runAll_invariant (P := Apart L pages T₀) (fun c hc V V' hV hstep => ?_) ha h
  obtain ⟨r, hr, rfl⟩ := List.mem_map.1 hc
  exact apart_steadyInsert hV (hdest r hr) hstep

theorem copyBlocks_eq (ha : Apart L pages T₀ U) (hpage : page ∈ pages)
    (hp : T₀.findNode page = some p) {srcLastEntry : ℕ}
    (hlast : (T₀.blocks p).head? = some srcLastEntry) (hnd : (T₀.blocks p).Nodup)
    (hidx : (T₀.recTreeNodes p).memRecIdx ≤ memRecPerEntry) {uplimit : ℤ}
    (hle : uplimit ≤ memRecPerEntry) {pre rest : List ℕ} (hb : T₀.oldestFirst p = pre ++ rest)
    {fuel : ℕ} (hfuel : rest.length ≤ fuel) {res : RecTree → ℕ}
    (hres : ∀ V : RecTree, V.walks = T₀.walks → res V = p)
    (hdest : ∀ r ∈ T₀.laterRecs p srcLastEntry uplimit rest,
      addr2PageNum (recordCall dest src page r).dest ∉ pages) :
    copyBlocks (steadyInsert L ofa) dest src page res srcLastEntry fuel rest.head? uplimit U =
      runAll (steadyInsert L ofa)
        ((T₀.laterRecs p srcLastEntry uplimit rest).map (recordCall dest src page)) U := by
  induction rest generalizing pre fuel U with
  | nil => simp [copyBlocks, laterRecs]
  | cons e rest ih =>
    obtain ⟨fuel, rfl⟩ := Nat.exists_eq_add_of_lt (Nat.lt_of_lt_of_le (Nat.succ_pos _) hfuel)
    have he := mem_blocks_of_oldestFirst hb
    have hsplit : T₀.laterRecs p srcLastEntry uplimit (e :: rest) =
        (T₀.blockRecs e (T₀.copyLimit p srcLastEntry uplimit e).toNat).drop 0 ++
          T₀.laterRecs p srcLastEntry uplimit rest := by
      simp [laterRecs]
    rw [hsplit] at hdest ⊢
    have hdest₁ := fun r hr => hdest r (List.mem_append_left _ hr)
    have hlimit : T₀.copyLimit p srcLastEntry uplimit e ≤ memRecPerEntry := by
      unfold copyLimit
      split
      · exact hidx
      · exact hle
    rw [List.map_append, runAll_append, Nat.zero_add, List.head?_cons, copyBlocks]
    rw [hres U ha.walks, (ha.same page hpage p hp).node]
    rw [show (if e = srcLastEntry then (T₀.recTreeNodes p).memRecIdx else uplimit) =
      T₀.copyLimit p srcLastEntry uplimit e from rfl]
    show (copyRecs _ _ _ _ _ _ _ _).bind _ = _
    rw [copyRecs_eq dest src ha hpage hp he 0 hlimit hdest₁]
    refine Option.bind_congr fun V hV => ?_
    have haV := apart_copied ha hdest₁ hV
    rw [haV.tailqPrev hpage hp hb]
    by_cases hrest : rest = []
    · subst hrest
      simp [copyBlocks, laterRecs]
    · -- the newest block is the last one that the loop comes to
      have hne : e ≠ srcLastEntry := fun heq =>
        hrest (newest_comes_last hnd (heq ▸ hlast) hb)
      rw [copyLimit, if_neg hne]
      have hrest : T₀.oldestFirst p = (pre ++ [e]) ++ rest := by simp [hb]
      exact ih haV hrest (by simpa using hfuel)
        fun r hr => hdest r (List.mem_append_right _ hr)

theorem copyFrom_eq (ha : Apart L pages T₀ U) (hpage : page ∈ pages)
    (hp : T₀.findNode page = some p) {srcLastEntry : ℕ}
    (hlast : (T₀.blocks p).head? = some srcLastEntry) (hnd : (T₀.blocks p).Nodup)
    (hidx : (T₀.recTreeNodes p).memRecIdx ≤ memRecPerEntry) {uplimit : ℤ}
    (hle : uplimit ≤ memRecPerEntry) {pre rest : List ℕ} {e : ℕ}
    (hb : T₀.oldestFirst p = pre ++ e :: rest) {fuel : ℕ} (hfuel : rest.length ≤ fuel)
    {res : RecTree → ℕ} (hres : ∀ V : RecTree, V.walks = T₀.walks → res V = p) {i : ℕ}
    (hdest : ∀ r ∈ (T₀.blockRecs e uplimit.toNat).drop i ++
        T₀.laterRecs p srcLastEntry uplimit rest,
      addr2PageNum (recordCall dest src page r).dest ∉ pages) :
    copyFrom (steadyInsert L ofa) fuel dest src page res e srcLastEntry i uplimit U =
      runAll (steadyInsert L ofa) (((T₀.blockRecs e uplimit.toNat).drop i ++
        T₀.laterRecs p srcLastEntry uplimit rest).map (recordCall dest src page)) U := by
  have he := mem_blocks_of_oldestFirst hb
  have hdest₁ := fun r hr => hdest r (List.mem_append_left _ hr)
  rw [List.map_append, runAll_append]
  show (copyRecs _ _ _ _ _ _ _ _).bind _ = _
  rw [copyRecs_eq dest src ha hpage hp he i hle hdest₁]
  refine Option.bind_congr fun V hV => ?_
  have haV := apart_copied ha hdest₁ hV
  rw [haV.tailqPrev hpage hp hb]
  have hrest : T₀.oldestFirst p = (pre ++ [e]) ++ rest := by simp [hb]
  exact copyBlocks_eq haV hpage hp hlast hnd hidx hle hrest hfuel hres
    fun r hr => hdest r (List.mem_append_right _ hr)

end

/-! ## The same by number -/

/-- The numbers of the records copied from slot `i` of the `k`-th oldest block
on: of a page with `m` older blocks, the first `c` slots of each block, but only
the first `last` ones of the newest block if the loop comes to it later. -/
def copiedIndices (m c last k i : ℕ) : List ℕ :=
  List.range' (memRecPerEntry * k + i) (c - i) ++ (List.range' (k + 1) (m - k)).flatMap fun b =>
    List.range' (memRecPerEntry * b) (if b = m then last else c)

theorem mem_copiedIndices {m c last k i j : ℕ} (hc : c ≤ memRecPerEntry)
    (hlast : last ≤ memRecPerEntry) (hi : i ≤ memRecPerEntry) (hk : k ≤ m) :
    j ∈ copiedIndices m c last k i ↔ memRecPerEntry * k + i ≤ j ∧ j / memRecPerEntry ≤ m ∧
      j % memRecPerEntry < if j / memRecPerEntry = m ∧ k < m then last else c := by
  simp only [copiedIndices, List.mem_append, List.mem_flatMap, List.mem_range'_1, memRecPerEntry]
    at *
  constructor
  · rintro (h | ⟨b, hb, hj⟩)
    · refine ⟨h.1, by omega, ?_⟩
      split <;> omega
    · have hblock : j / 38 = b := by
        split at hj <;> omega
      refine ⟨by omega, by omega, ?_⟩
      split at hj <;> split <;> omega
  · rintro ⟨hj, hm, hlimit⟩
    by_cases hblock : j / 38 = k
    · left
      split at hlimit <;> omega
    · refine Or.inr ⟨j / 38, by omega, ?_⟩
      split <;> split at hlimit <;> omega

theorem pairwise_copiedIndices {m c last k i : ℕ} (hc : c ≤ memRecPerEntry)
    (hlast : last ≤ memRecPerEntry) : (copiedIndices m c last k i).Pairwise (· < ·) := by
  have hlimit : ∀ b, (if b = m then last else c) ≤ memRecPerEntry := fun b => by
    split <;> assumption
  simp only [memRecPerEntry] at *
  refine List.pairwise_append.2 ⟨List.pairwise_lt_range', List.pairwise_flatMap.2
    ⟨fun b _ => List.pairwise_lt_range', ?_⟩, fun j hj j' hj' => ?_⟩
  · refine (List.pairwise_lt_range' 1).imp fun {b b'} hbb' j hj j' hj' => ?_
    have := hlimit b
    simp only [memRecPerEntry] at *
    rw [List.mem_range'_1] at hj hj'
    omega
  · obtain ⟨b, hb, hj'⟩ := List.mem_flatMap.1 hj'
    simp only [memRecPerEntry] at *
    rw [List.mem_range'_1] at hj hj' hb
    omega

theorem copied_eq_map (hnd : (T.blocks p).Nodup) {srcLastEntry : ℕ}
    (hlast : (T.blocks p).head? = some srcLastEntry)
    (hidx : (T.recTreeNodes p).memRecIdx ≤ memRecPerEntry) {uplimit : ℤ}
    (hle : uplimit ≤ memRecPerEntry) {k i : ℕ} (hk : k < (T.oldestFirst p).length) :
    (T.blockRecs ((T.oldestFirst p).getD k 0) uplimit.toNat).drop i ++
        T.laterRecs p srcLastEntry uplimit ((T.oldestFirst p).drop (k + 1)) =
      (copiedIndices ((T.blocks p).length - 1) uplimit.toNat
        (T.recTreeNodes p).memRecIdx.toNat k i).map (T.recAt p) := by
  have hlen : (T.oldestFirst p).length = (T.blocks p).length := List.length_reverse
  have hdrop : (T.oldestFirst p).drop (k + 1) =
      (List.range' (k + 1) ((T.blocks p).length - 1 - k)).map fun b =>
        (T.oldestFirst p).getD b 0 := by
    refine List.ext_getElem (by simp; omega) fun b h₁ h₂ => ?_
    rw [List.length_drop] at h₁
    simp [List.getElem?_eq_getElem (show k + 1 + b < (T.oldestFirst p).length by omega)]
  rw [copiedIndices, List.map_append, blockRecs_eq_recAt k i (Int.toNat_le.2 hle), laterRecs,
    hdrop, List.flatMap_map, List.map_flatMap]
  congr 1
  refine List.flatMap_congr fun b hb => ?_
  have hb := List.mem_range'_1.1 hb
  have hnewest : copyLimit T p srcLastEntry uplimit ((T.oldestFirst p).getD b 0) =
      if b = (T.blocks p).length - 1 then (T.recTreeNodes p).memRecIdx else uplimit := by
    simp only [copyLimit, getD_eq_newest hnd hlast (show b < (T.blocks p).length by omega)]
  rw [hnewest, ← List.drop_zero (l := T.blockRecs _ _), blockRecs_eq_recAt b 0 (by split <;> omega)]
  split <;> rfl

end RecTree

end Cidl
