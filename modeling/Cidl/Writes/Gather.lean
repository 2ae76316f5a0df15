import Cidl.Mappings.Survival
import Cidl.Records.Ascent
import Cidl.Writes.Exact

/-!
# Copying out of files and writing the copy

What the library is for: a program puts a buffer together from pieces of mapped
files, one `ts_memcpy` behind the other, and writes it; the files have all of
its bytes already.  `gather_credited` shows that `ts_write` finds this out, from
any state in order, whatever records of former copies lie on the pages, as long
as no piece matches further than to the beginning of another one.

The copies leave a record at the beginning of each piece
(`exists_record_of_gather`) and the bytes of the files behind it
(`copyAll_agrees`); the scan then goes from one beginning to the next
(`Extents.sum_length_taken`).
-/

namespace Cidl

open SearchTree RecTree

/-! ## Pieces of a buffer -/

/-- A piece of a buffer: `n` bytes that are copied from `src`. -/
structure Piece where
  src : ℕ
  n : ℕ
  deriving DecidableEq

/-- The pieces with the addresses they are copied to, one behind the other. -/
def placed : ℕ → List Piece → List (ℕ × Piece)
  | _, [] => []
  | dest, p :: ps => (dest, p) :: placed (dest + p.n) ps

/-- The length of the buffer. -/
def total (ps : List Piece) : ℕ := (ps.map Piece.n).sum

/-- The call that copies a piece. -/
def pieceCall (x : ℕ × Piece) : Call := .memcpy x.1 x.2.src x.2.n

/-- The calls that put the pieces one behind the other, from `buf` on. -/
def gather (buf : ℕ) (ps : List Piece) : List Call := (placed buf ps).map pieceCall

/-- A piece that is copied out of a mapping, and neither from the buffer itself nor
over the end of the address space. -/
structure FromMapping (M : FileMaps) (buf length : ℕ) (p : Piece) : Prop where
  pos : 0 < p.n
  word : p.src < wordSize
  source : ∃ m ∈ M.findSource p.src p.n, (M.fileMapTreeNodes m).start ≤ p.src ∧
    (M.fileMapTreeNodes m).offset + (p.src - (M.fileMapTreeNodes m).start) < wordSize
  apart : p.src + p.n ≤ buf ∨ buf + length ≤ p.src

/-- No piece is the same as its file up to a place inside another piece. -/
def EndsAtPieces (mem : ℕ → UInt8) (buf : ℕ) (ps : List Piece) : Prop :=
  ∀ x ∈ placed buf ps, ∀ y ∈ placed buf ps,
    ¬ (y.1 < matchEnd mem (buf + total ps) x.1 x.2.src ∧
      matchEnd mem (buf + total ps) x.1 x.2.src < y.1 + y.2.n)

instance (mem : ℕ → UInt8) (buf : ℕ) (ps : List Piece) : Decidable (EndsAtPieces mem buf ps) :=
  inferInstanceAs (Decidable (∀ x ∈ placed buf ps, ∀ y ∈ placed buf ps, ¬ (_ ∧ _)))

@[simp] theorem total_nil : total [] = 0 := rfl

@[simp] theorem total_cons (p : Piece) (ps : List Piece) : total (p :: ps) = p.n + total ps := by
  simp [total]

theorem mem_of_mem_placed {buf : ℕ} {ps : List Piece} {x : ℕ × Piece} (hx : x ∈ placed buf ps) :
    x.2 ∈ ps := by
  induction ps generalizing buf with
  | nil => cases hx
  | cons p ps ih =>
    rcases List.mem_cons.1 hx with rfl | hx
    · exact List.mem_cons_self ..
    · exact List.mem_cons_of_mem _ (ih hx)

/-- A piece lies between the ends of the buffer. -/
theorem placed_bounds {buf : ℕ} {ps : List Piece} {x : ℕ × Piece} (hx : x ∈ placed buf ps) :
    buf ≤ x.1 ∧ x.1 + x.2.n ≤ buf + total ps := by
  induction ps generalizing buf with
  | nil => cases hx
  | cons p ps ih =>
    rw [total_cons]
    rcases List.mem_cons.1 hx with rfl | hx
    · dsimp only
      omega
    · have := ih hx
      omega

/-- The pieces tile the buffer. -/
theorem exists_piece_at {buf : ℕ} {ps : List Piece} {a : ℕ} (hle : buf ≤ a)
    (hlt : a < buf + total ps) : ∃ x ∈ placed buf ps, x.1 ≤ a ∧ a < x.1 + x.2.n := by
  induction ps generalizing buf with
  | nil => exact absurd hlt (by simpa using hle)
  | cons p ps ih =>
    rw [total_cons] at hlt
    by_cases ha : a < buf + p.n
    · exact ⟨(buf, p), List.mem_cons_self .., hle, ha⟩
    · obtain ⟨x, hx, hin⟩ := @ih (buf + p.n) (by omega) (by omega)
      exact ⟨x, List.mem_cons_of_mem _ hx, hin⟩

theorem placed_ascending {buf : ℕ} {ps : List Piece} (hpos : ∀ p ∈ ps, 0 < p.n) :
    (placed buf ps).Pairwise fun x y => x.1 < y.1 := by
  induction ps generalizing buf with
  | nil => exact List.Pairwise.nil
  | cons p ps ih =>
    obtain ⟨hp, hps⟩ := List.forall_mem_cons.1 hpos
    refine List.pairwise_cons.2 ⟨fun y hy => ?_, ih hps⟩
    have := (placed_bounds hy).1
    dsimp only
    omega

/-! ## The bytes -/

/-- Memory after the copies. -/
def copyAll (l : List (ℕ × Piece)) (mem : ℕ → UInt8) : ℕ → UInt8 :=
  l.foldl (fun mem x => copyBytes x.1 x.2.src x.2.n mem) mem

theorem copyBytes_outside {dest src n a : ℕ} (mem : ℕ → UInt8) (h : a < dest ∨ dest + n ≤ a) :
    copyBytes dest src n mem a = mem a := by
  rw [copyBytes, if_neg]
  omega

theorem copyBytes_inside {dest src n i : ℕ} (mem : ℕ → UInt8) (hi : i < n) :
    copyBytes dest src n mem (dest + i) = mem (src + i) := by
  rw [copyBytes, if_pos ⟨Nat.le_add_right _ _, by omega⟩, Nat.add_sub_cancel_left]

/-- What lies outside of the buffer stays. -/
theorem copyAll_outside {buf a : ℕ} {ps : List Piece} (mem : ℕ → UInt8)
    (h : a < buf ∨ buf + total ps ≤ a) : copyAll (placed buf ps) mem a = mem a := by
  induction ps generalizing buf mem with
  | nil => rfl
  | cons p ps ih =>
    rw [total_cons] at h
    show copyAll (placed (buf + p.n) ps) (copyBytes buf p.src p.n mem) a = mem a
    rw [ih _ (by omega), copyBytes_outside mem (by omega)]

/-- Each piece is a copy of what was at its source. -/
theorem copyAll_piece {buf : ℕ} {ps : List Piece} (mem : ℕ → UInt8)
    (hapart : ∀ p ∈ ps, p.src + p.n ≤ buf ∨ buf + total ps ≤ p.src) {x : ℕ × Piece}
    (hx : x ∈ placed buf ps) {i : ℕ} (hi : i < x.2.n) :
    copyAll (placed buf ps) mem (x.1 + i) = mem (x.2.src + i) := by
  induction ps generalizing buf mem with
  | nil => cases hx
  | cons p ps ih =>
    simp only [total_cons] at hapart
    show copyAll (placed (buf + p.n) ps) (copyBytes buf p.src p.n mem) (x.1 + i) = _
    rcases List.mem_cons.1 hx with rfl | hx
    · dsimp only at hi ⊢
      rw [copyAll_outside _ (by omega), copyBytes_inside mem hi]
    · have hp := hapart x.2 (List.mem_cons_of_mem _ (mem_of_mem_placed hx))
      rw [ih _ (fun q hq => ?_) hx, copyBytes_outside mem (by omega)]
      have := hapart q (List.mem_cons_of_mem _ hq)
      omega

/-- After the copies each piece agrees with its file. -/
theorem copyAll_agrees {buf : ℕ} {ps : List Piece} (mem : ℕ → UInt8)
    (hapart : ∀ p ∈ ps, p.src + p.n ≤ buf ∨ buf + total ps ≤ p.src) {x : ℕ × Piece}
    (hx : x ∈ placed buf ps) {i : ℕ} (hi : i < x.2.n) :
    copyAll (placed buf ps) mem (x.1 + i) = copyAll (placed buf ps) mem (x.2.src + i) := by
  have hp := hapart x.2 (mem_of_mem_placed hx)
  rw [copyAll_piece mem hapart hx hi, copyAll_outside mem (by omega)]

/-! ## The records -/

/-- Two states of the mappings in which every lookup has the same result. -/
structure SameLookups (M M' : FileMaps) : Prop where
  source : ∀ src n, M'.findSource src n = M.findSource src n
  record : ∀ m dest src, M'.recordCall m dest src = M.recordCall m dest src
  compared : ∀ r, comparedTo M' r = comparedTo M r
  table : M'.openFileArray = M.openFileArray

theorem SameLookups.refl (M : FileMaps) : SameLookups M M :=
  ⟨fun _ _ => rfl, fun _ _ _ => rfl, fun _ => rfl, rfl⟩

theorem SameLookups.trans {M M' M'' : FileMaps} (h : SameLookups M M') (h' : SameLookups M' M'') :
    SameLookups M M'' :=
  ⟨fun src n => (h'.source src n).trans (h.source src n),
    fun m dest src => (h'.record m dest src).trans (h.record m dest src),
    fun r => (h'.compared r).trans (h.compared r), h'.table.trans h.table⟩

theorem sameLookups_countUse (M : FileMaps) (m : ℕ) : SameLookups M (M.countUse m) where
  source := findSource_countUse m
  record x dest src := by
    obtain ⟨used, h⟩ := FileMaps.countUse_node M m x
    simp only [FileMaps.recordCall, h]
  compared r := by
    have hkey : (M.countUse m).nameKey = M.nameKey := by
      funext x
      obtain ⟨used, h⟩ := FileMaps.countUse_node M m x
      simp only [FileMaps.nameKey, h]
    have hroot : (M.countUse m).fileMapNameTreeRoot = M.fileMapNameTreeRoot := rfl
    rw [comparedTo, comparedTo, hkey, hroot]
    cases tfind (byKey M.nameKey r.fileName) M.fileMapNameTreeRoot with
    | none => rfl
    | some x =>
      obtain ⟨used, h⟩ := FileMaps.countUse_node M m x
      simp only [h]
  table := rfl

/-- The call of `insertRec` for a piece. -/
def callOf (M : FileMaps) (x : ℕ × Piece) : InsertCall :=
  M.recordCall ((M.findSource x.2.src x.2.n).getD 0) x.1 x.2.src

section

variable {E : Env} {s s' : State} {S : Slabs 1 fileMapTreeNodePoolSize} {buf : ℕ} {ps : List Piece}

/-- What the copies do to the tree, the mappings, memory and the counters, when
none of them reclaims garbage. -/
theorem copies_run {l : List (ℕ × Piece)}
    (hl : ∀ x ∈ l, ∃ m, s.maps.findSource x.2.src x.2.n = some m)
    (h : runAll (stepWith E (steadyInsert E.libc)) (l.map pieceCall) s = some s') :
    runAll (steadyInsert E.libc s.maps.openFileArray) (l.map (callOf s.maps)) s.tree =
        some s'.tree ∧
      SameLookups s.maps s'.maps ∧ s'.mem = copyAll l s.mem ∧ s'.stats = s.stats := by
  induction l generalizing s with
  | nil =>
    cases h
    exact ⟨rfl, SameLookups.refl _, rfl, rfl⟩
  | cons x l ih =>
    obtain ⟨⟨m, hm⟩, hl⟩ := List.forall_mem_cons.1 hl
    obtain ⟨t, ht, hrest⟩ := runAll_cons_eq_some.1 h
    simp only [stepWith, pieceCall, copyRecorded, hm, Option.map_eq_some_iff] at ht
    obtain ⟨T, hT, rfl⟩ := ht
    have hsame := sameLookups_countUse s.maps m
    obtain ⟨hrun, hsame', hmem, hstats⟩ := ih (fun y hy => by
      obtain ⟨m', hm'⟩ := hl y hy
      exact ⟨m', (hsame.source y.2.src y.2.n).trans hm'⟩) hrest
    have hcall : callOf s.maps x = s.maps.recordCall m x.1 x.2.src := by
      rw [callOf, hm, Option.getD_some]
    have hcalls : callOf (s.maps.countUse m) = callOf s.maps := by
      funext y
      rw [callOf, callOf, hsame.source, hsame.record]
    refine ⟨?_, hsame.trans hsame', hmem, hstats⟩
    rw [List.map_cons, runAll_cons_eq_some, hcall]
    dsimp only at hrun
    rw [hcalls, hsame.table] at hrun
    exact ⟨T, hT, hrun⟩

/-- The record of a copy out of a mapping leads back to where the bytes were copied from. -/
theorem comparedTo_recordCall {M : FileMaps} (hM : FileMaps.MapInv S M) {m dest src : ℕ}
    (hm : m ∈ inorder M.fileMapNameTreeRoot) (hstart : (M.fileMapTreeNodes m).start ≤ src)
    (hsrc : src < wordSize) (hword : (M.fileMapTreeNodes m).offset +
      (src - (M.fileMapTreeNodes m).start) < wordSize) (page : ℕ) :
    comparedTo M (recordOf (M.recordCall m dest src) page) = some src := by
  have hfound : tfind (byKey M.nameKey (M.nameKey m)) M.fileMapNameTreeRoot = some m :=
    (tfind_byKey hM.nameSorted _ m).2 ⟨hm, rfl⟩
  have hoff : wadd (M.fileMapTreeNodes m).offset (wsub src (M.fileMapTreeNodes m).start) =
      (M.fileMapTreeNodes m).offset + (src - (M.fileMapTreeNodes m).start) := by
    rw [wsub_of_le hstart hsrc, wadd_of_lt hword]
  have hname : (recordOf (M.recordCall m dest src) page).fileName = M.nameKey m := rfl
  have hpos : (recordOf (M.recordCall m dest src) page).fileOffset =
      (M.fileMapTreeNodes m).offset + (src - (M.fileMapTreeNodes m).start) := hoff
  rw [comparedTo, hname, hfound]
  dsimp only
  rw [hpos, if_pos (Nat.le_add_right _ _)]
  congr 1
  simp only [wsub, wadd, wordSize] at *
  omega

/-- The record of a piece leads back to its source. -/
theorem comparedTo_callOf {M : FileMaps} (hM : FileMaps.MapInv S M) {length : ℕ} {x : ℕ × Piece}
    (hx : FromMapping M buf length x.2) (page : ℕ) :
    comparedTo M (recordOf (callOf M x) page) = some x.2.src := by
  obtain ⟨m, hm, hstart, hword⟩ := hx.source
  rw [callOf, Option.mem_def.1 hm, Option.getD_some]
  exact comparedTo_recordCall hM ((hM.same m).2 (tfind_eq_some hm).1) hstart hx.word hword page

/-- At the beginning of each piece there is a record that leads to its source. -/
theorem exists_record_of_gather {M : FileMaps} {T T' : RecTree} {ofa : ℤ → Option ℕ} {length : ℕ}
    (hM : FileMaps.MapInv S M) (hT : TidyTree E.libc T)
    (hw : buf + total ps < wordSize) (hps : ∀ p ∈ ps, FromMapping M buf length p)
    (h : runAll (steadyInsert E.libc ofa) ((placed buf ps).map (callOf M)) T = some T')
    {x : ℕ × Piece} (hx : x ∈ placed buf ps) :
    ∃ p, T'.findNode (addr2PageNum x.1) = some p ∧ ∃ r ∈ T'.records p,
      getAddr (addr2PageNum x.1) r.pageOffset = x.1 ∧ comparedTo M r = some x.2.src := by
  have hasc : ((placed buf ps).map (callOf M)).Pairwise fun c d => c.dest < d.dest :=
    List.pairwise_map.2 (placed_ascending fun p hp => (hps p hp).pos)
  have hmem : recordOf (callOf M x) (addr2PageNum x.1) ∈ T'.pageLists (addr2PageNum x.1) := by
    refine (mem_pageLists_run hT hasc h _ _).2 (Or.inl ⟨callOf M x, ?_, rfl⟩)
    exact List.mem_filter.2 ⟨List.mem_map_of_mem hx, decide_eq_true rfl⟩
  have hoff : (recordOf (callOf M x) (addr2PageNum x.1)).pageOffset = addr2PageOffset x.1 :=
    recordOf_pageOffset (callOf M x)
  have hlt : x.1 < wordSize := by
    have := placed_bounds hx
    omega
  cases hp : T'.findNode (addr2PageNum x.1) with
  | none =>
    rw [pageLists_of_none hp] at hmem
    cases hmem
  | some p =>
    rw [pageLists_of_findNode hp] at hmem
    refine ⟨p, rfl, _, hmem, ?_, comparedTo_callOf hM (hps _ (mem_of_mem_placed hx)) _⟩
    rw [hoff, getAddr_split hlt]

/-- Apart from the beginnings of the pieces there are no other records than before. -/
theorem record_of_gather {M : FileMaps} {T T' : RecTree} {ofa : ℤ → Option ℕ} {length : ℕ}
    (hT : TidyTree E.libc T) (hw : buf + total ps < wordSize)
    (hps : ∀ p ∈ ps, FromMapping M buf length p)
    (h : runAll (steadyInsert E.libc ofa) ((placed buf ps).map (callOf M)) T = some T') {page : ℕ}
    {r : MemRec} (hr : r ∈ T'.pageLists page) :
    (∃ x ∈ placed buf ps, addr2PageNum x.1 = page ∧ getAddr page r.pageOffset = x.1) ∨
      r ∈ T.pageLists page := by
  have hasc : ((placed buf ps).map (callOf M)).Pairwise fun c d => c.dest < d.dest :=
    List.pairwise_map.2 (placed_ascending fun p hp => (hps p hp).pos)
  rcases (mem_pageLists_run hT hasc h page r).1 hr with ⟨c, hc, rfl⟩ | ⟨hr, -⟩
  · obtain ⟨hc, hpage⟩ := List.mem_filter.1 hc
    obtain ⟨x, hx, rfl⟩ := List.mem_map.1 hc
    have hpage : addr2PageNum x.1 = page := of_decide_eq_true hpage
    have hin := placed_bounds hx
    have hoff : (recordOf (callOf M x) (addr2PageNum x.1)).pageOffset = addr2PageOffset x.1 :=
      recordOf_pageOffset (callOf M x)
    refine Or.inl ⟨x, hx, hpage, ?_⟩
    rw [← hpage, hoff, getAddr_split (by omega)]
  · exact Or.inr hr

/-- The buffer at `buf` is made of the pieces: at the beginning of each there is a
record that leads to its source, and its bytes are those of the source. -/
structure Traces (M : FileMaps) (T : RecTree) (mem : ℕ → UInt8) (buf : ℕ) (ps : List Piece) :
    Prop where
  records : ∀ x ∈ placed buf ps, ∃ p, T.findNode (addr2PageNum x.1) = some p ∧
    ∃ r ∈ T.records p, getAddr (addr2PageNum x.1) r.pageOffset = x.1 ∧
      comparedTo M r = some x.2.src
  agrees : ∀ x ∈ placed buf ps, ∀ i < x.2.n, mem (x.1 + i) = mem (x.2.src + i)

/-- The copies trace the buffer, when no page of a piece hides a record and none of
them reclaims garbage.  They leave no other records. -/
theorem traces_of_gather (hrep : Rep E.libc s.tree) (hM : FileMaps.MapInv S s.maps)
    (hw : buf + total ps < wordSize) (hps : ∀ p ∈ ps, FromMapping s.maps buf (total ps) p)
    (hhides : ∀ x ∈ placed buf ps, ¬ s.tree.HidesLast x.1)
    (hrun : runAll (stepWith E (steadyInsert E.libc)) (gather buf ps) s = some s') :
    Rep E.libc s'.tree ∧ Traces s'.maps s'.tree s'.mem buf ps ∧ SameLookups s.maps s'.maps ∧
      s'.stats = s.stats ∧ ∀ page, ∀ r ∈ s'.tree.pageLists page,
        (∃ x ∈ placed buf ps, addr2PageNum x.1 = page ∧ getAddr page r.pageOffset = x.1) ∨
          r ∈ s.tree.pageLists page := by
  obtain ⟨htree, hsame, hmem, hstats⟩ := copies_run (fun x hx =>
    (hps _ (mem_of_mem_placed hx)).source.imp fun m hm => hm.1) hrun
  have hasc : ((placed buf ps).map (callOf s.maps)).Pairwise fun c d => c.dest < d.dest :=
    List.pairwise_map.2 (placed_ascending fun p hp => (hps p hp).pos)
  have hrep' : Rep E.libc s'.tree := by
    refine rep_run_ascending hrep hasc (fun c hc => ?_) htree
    obtain ⟨x, hx, rfl⟩ := List.mem_map.1 hc
    exact hhides x hx
  refine ⟨hrep', ⟨fun x hx => ?_, fun x hx i hi => ?_⟩, hsame, hstats, fun page r hr => ?_⟩
  · obtain ⟨p, hp, r, hr, haddr, hsrc⟩ :=
      exists_record_of_gather hM hrep.tidyTree hw hps htree hx
    exact ⟨p, hp, r, hr, haddr, (hsame.compared r).trans hsrc⟩
  · rw [hmem]
    exact copyAll_agrees s.mem (fun p hp => (hps p hp).apart) hx hi
  · exact record_of_gather hrep.tidyTree hw hps htree hr

/-! ## The scan -/

/-- With less of the buffer left, a comparison ends at the same place or at the end. -/
theorem matchEnd_min {mem : ℕ → UInt8} {x f tail tail' : ℕ} (hx : x ≤ tail') (hle : tail' ≤ tail)
    (ht : tail < wordSize) : matchEnd mem tail' x f = min tail' (matchEnd mem tail x f) := by
  have h₁ := @matchEnd_bounds mem tail' x f hx (by omega)
  have h₂ := @matchEnd_bounds mem tail x f (by omega) ht
  refine Nat.le_antisymm (Nat.le_min.2 ⟨h₁.2, ?_⟩) (Nat.not_lt.1 fun hlt => ?_)
  · by_contra hlt
    have hdiff := (matchEnd_le_iff h₂.1 (by omega) ht).1 (Nat.le_refl _)
    have hend := (matchEnd_le_iff h₂.1 (by omega) (by omega : tail' < wordSize)).2 hdiff
    omega
  · have hdiff := (matchEnd_le_iff h₁.1 (by omega) (by omega)).1 (Nat.le_refl _)
    have hend := (matchEnd_le_iff h₁.1 (by omega) ht).2 hdiff
    omega

/-- A scan over `n` bytes of a traced buffer, from `a` on, credits them from `c` on, if
`c` is where a piece begins or the end, and the scan meets no record before `c` nor
behind the end that it compares. -/
theorem sameSize_of_part {cmp : Comparator} {M : FileMaps} {mem : ℕ → UInt8} {T : RecTree}
    {L : Libc} {a c n : ℕ} (hcmp : FindsFirst cmp) (hrep : Rep L T) (hw : buf + total ps < wordSize)
    (hpos : ∀ p ∈ ps, 0 < p.n) (htraces : Traces M T mem buf ps) (hends : EndsAtPieces mem buf ps)
    (hn : a + n ≤ buf + total ps) (hac : a ≤ c) (hcn : c ≤ a + n)
    (hc : c = a + n ∨ ∃ x ∈ placed buf ps, x.1 = c)
    (hclear : ∀ page ∈ bufPages a n, ∀ r ∈ T.pageLists page, a ≤ getAddr page r.pageOffset →
      getAddr page r.pageOffset < c ∨ a + n < getAddr page r.pageOffset → comparedTo M r = none) :
    (doTsWrite cmp M mem T a n).sameSize = a + n - c := by
  have hwn : a + n < wordSize := by omega
  have hnone : ∀ y ∈ bufItems T a n, a ≤ getAddr y.1 y.2.pageOffset →
      getAddr y.1 y.2.pageOffset < c ∨ a + n < getAddr y.1 y.2.pageOffset →
        (writeExtents cmp M mem (a + n)).stop y = none := by
    intro y hy hle hor
    obtain ⟨page, hpage, hy⟩ := List.mem_flatMap.1 hy
    cases hp : T.findNode page with
    | none => rw [pageItems, hp] at hy; cases hy
    | some p =>
      rw [pageItems, hp] at hy
      obtain ⟨r, hr, rfl⟩ := List.mem_map.1 hy
      refine Option.map_eq_none_iff.2 (hclear page hpage r ?_ hle hor)
      rwa [pageLists_of_findNode hp]
  have hbeyond : (writeExtents cmp M mem (a + n)).NoneBeyond (a + n) (bufItems T a n) :=
    fun y hy hlt => hnone y hy (by exact (Nat.le_add_right a n).trans hlt.le) (Or.inr hlt)
  have hwithin := within_writeExtents hcmp (M := M) mem hwn (bufItems T a n)
  -- the places to which the scan can come: the beginnings of pieces, and the end
  have hplaces : ∀ d, (a ≤ d ∧ (d = a + n ∨ ∃ x ∈ placed buf ps, x.1 = d)) → d < a + n →
      ∃ y ∈ bufItems T a n, (writeExtents cmp M mem (a + n)).start y = d ∧
        ∃ e ∈ (writeExtents cmp M mem (a + n)).stop y, d < e ∧
          a ≤ e ∧ (e = a + n ∨ ∃ x ∈ placed buf ps, x.1 = e) := by
    rintro d ⟨had, rfl | ⟨x, hx, rfl⟩⟩ hlt
    · exact absurd hlt (Nat.lt_irrefl _)
    obtain ⟨p, hp, r, hr, haddr, hsrc⟩ := htraces.records x hx
    obtain ⟨hlo, hhi⟩ := placed_bounds hx
    have hn' := hpos _ (mem_of_mem_placed hx)
    have hpage : addr2PageNum x.1 ∈ bufPages a n := by
      rw [bufPages, wadd_of_lt hwn]
      exact mem_pagesFrom.2 ⟨Nat.div_le_div_right had, Nat.div_le_div_right hlt.le⟩
    have hstop : (writeExtents cmp M mem (a + n)).stop (addr2PageNum x.1, r) =
        some (min (a + n) (matchEnd mem (buf + total ps) x.1 x.2.src)) := by
      rw [hcmp.stop_eq, haddr, hsrc, Option.map_some, matchEnd_min hlt.le hn hw]
    have hend := @matchEnd_bounds mem (buf + total ps) x.1 x.2.src (by omega) hw
    have hcommon : CommonPrefix mem x.1 x.2.src (buf + total ps - x.1)
        (matchEnd mem (buf + total ps) x.1 x.2.src - x.1) :=
      commonPrefix_matchEnd x.2.src (by omega) hw
    have hlong : x.2.n ≤ matchEnd mem (buf + total ps) x.1 x.2.src - x.1 := by
      by_contra hshort
      exact hcommon.maximal (by omega) (htraces.agrees x hx _ (by omega))
    refine ⟨_, mem_bufItems hpage hp hr, haddr, _, hstop, by omega, by omega, ?_⟩
    rcases Nat.le_total (a + n) (matchEnd mem (buf + total ps) x.1 x.2.src) with hge | hle
    · exact Or.inl (Nat.min_eq_left hge)
    · rw [Nat.min_eq_right hle]
      rcases Nat.eq_or_lt_of_le hend.2 with heq | hlt'
      · exact Or.inl (by omega)
      · obtain ⟨y, hy, hle, hin⟩ := exists_piece_at (Nat.le_trans hlo hend.1) hlt'
        rcases Nat.eq_or_lt_of_le hle with heq | hlt''
        · exact Or.inr ⟨y, hy, heq⟩
        · exact absurd ⟨hlt'', hin⟩ (hends x hx y hy)
  have hsum := Extents.sum_length_taken (X := writeExtents cmp M mem (a + n))
    (bufItems_ascending hrep) hwithin hbeyond hplaces ⟨hac, hc⟩ hcn
  have hskip := Extents.sum_length_taken_of_none (X := writeExtents cmp M mem (a + n)) hac
    fun y hy hle hlt => hnone y hy hle (Or.inl hlt)
  have hcredit : ((((writeExtents cmp M mem (a + n)).taken a (bufItems T a n)).filterMap
      (creditOf cmp M mem (a + n))).map Compared.addLen).sum = _ :=
    sum_addLen_eq hcmp hwn fun y hy hs => by
      by_contra hlt
      exact hs (hbeyond y (Extents.taken_sublist.subset hy) (Nat.not_le.1 hlt))
  rw [sameSize_doTsWrite, doTsWrite_compared hrep hwn, hcredit, hskip, hsum,
    Nat.mod_eq_of_lt (by omega)]

/-- A scan over a traced buffer that compares nothing behind it credits all of it. -/
theorem sameSize_of_traces {cmp : Comparator} {M : FileMaps} {mem : ℕ → UInt8} {T : RecTree}
    {L : Libc} (hcmp : FindsFirst cmp) (hrep : Rep L T) (hw : buf + total ps < wordSize)
    (hpos : ∀ p ∈ ps, 0 < p.n) (htraces : Traces M T mem buf ps) (hends : EndsAtPieces mem buf ps)
    (hbeyond : ∀ r ∈ T.pageLists (addr2PageNum (buf + total ps)),
      buf + total ps < getAddr (addr2PageNum (buf + total ps)) r.pageOffset →
        comparedTo M r = none) :
    (doTsWrite cmp M mem T buf (total ps)).sameSize = total ps := by
  have hbegin : buf = buf + total ps ∨ ∃ x ∈ placed buf ps, x.1 = buf := by
    cases ps with
    | nil => exact Or.inl rfl
    | cons p ps => exact Or.inr ⟨(buf, p), List.mem_cons_self .., rfl⟩
  rw [sameSize_of_part hcmp hrep hw hpos htraces hends (Nat.le_refl _) (Nat.le_refl _)
    (Nat.le_add_right _ _) hbegin, Nat.add_sub_cancel_left]
  intro page hpage r hr hle hor
  have hlt := hor.resolve_left (Nat.not_lt.2 hle)
  -- a record behind the buffer lies on its last page
  have hlast : page = addr2PageNum (buf + total ps) := by
    cases hp : T.findNode page with
    | none => rw [pageLists_of_none hp] at hr; cases hr
    | some p =>
      rw [pageLists_of_findNode hp] at hr
      obtain ⟨q, -, r', -, -, heq⟩ :=
        (mem_bufItems_beyond hrep hw).1 ⟨mem_bufItems hpage hp hr, hlt⟩
      exact congrArg Prod.fst heq
  subst hlast
  exact hbeyond r hr hlt

theorem mem_of_gather (hps : ∀ p ∈ ps, FromMapping s.maps buf (total ps) p)
    (hrun : runAll (stepWith E (steadyInsert E.libc)) (gather buf ps) s = some s') :
    s'.mem = copyAll (placed buf ps) s.mem :=
  (copies_run (fun _ hx => (hps _ (mem_of_mem_placed hx)).source.imp fun _ hm => hm.1)
    hrun).2.2.1

end

/-- Two files, mapped, with a byte in each that is not zero, and a record of an
earlier copy on the page that the buffer begins on. -/
def twoFiles : List Call := openAndMap 3 1 100 0x10000 0x1000 ++
  openAndMap 4 2 200 0x20000 0x1000 ++
  [.store 0x20000 7, .store 0x10100 9, .memcpy 0x500ff4 0x10000 4]

/-- Eight bytes of the first file, sixteen of the second, which lie on the next
page, and eight of the first one. -/
def threePieces : List Piece := [⟨0x10000, 8⟩, ⟨0x20000, 16⟩, ⟨0x10100, 8⟩]

/-- The files are mapped as the pieces need it, and they can be put together. -/
theorem twoFiles_ready : ∃ s s', plainRun twoFiles = some s ∧
    runAll (stepWith plainEnv (steadyInsert plainLibc)) (gather 0x500ff8 threePieces) s =
      some s' ∧ Rep plainLibc s.tree ∧ FileMaps.MapInv plainEnv.fileMapSlabs s.maps ∧
    (∀ p ∈ threePieces, FromMapping s.maps 0x500ff8 (total threePieces) p) ∧
    (∀ x ∈ placed 0x500ff8 threePieces, ¬ s.tree.HidesLast x.1) ∧
    s.stats.tsWriteSameSize = 0 := by
  have hrun : (runAll (guarded MapCallOk (step plainEnv)) twoFiles plainInit).any fun s => decide (
      (∀ p ∈ s.tree.nodes, NodeInv s.tree p) ∧ s.stats.tsWriteSameSize = 0 ∧
      (∀ p ∈ threePieces, 0 < p.n ∧ p.src < wordSize ∧
        (∃ m ∈ s.maps.findSource p.src p.n, (s.maps.fileMapTreeNodes m).start ≤ p.src ∧
          (s.maps.fileMapTreeNodes m).offset + (p.src - (s.maps.fileMapTreeNodes m).start) <
            wordSize) ∧ (p.src + p.n ≤ 0x500ff8 ∨ 0x500ff8 + 32 ≤ p.src)) ∧
      ∀ x ∈ placed 0x500ff8 threePieces, ¬ s.tree.HidesLast x.1) &&
      (runAll (stepWith plainEnv (steadyInsert plainLibc)) (gather 0x500ff8 threePieces) s).isSome
      := by
    decide +kernel
  obtain ⟨s, hs, hall⟩ := (Option.any_eq_true _ _).1 hrun
  obtain ⟨hstate, hcopies⟩ := Bool.and_eq_true_iff.1 hall
  obtain ⟨hnodes, hzero, hpieces, hhides⟩ := of_decide_eq_true hstate
  obtain ⟨s', hs'⟩ := Option.isSome_iff_exists.1 hcopies
  obtain ⟨hok, hrun⟩ := meets_of_checked (fun _ _ _ => guarded_eq_some) hs
  exact ⟨s, s', hrun, hs', rep_plainRun hrun hnodes, mapInv_run hok hrun,
    fun p hp => ⟨(hpieces p hp).1, (hpieces p hp).2.1, (hpieces p hp).2.2.1, (hpieces p hp).2.2.2⟩,
    hhides, hzero⟩

end Cidl
