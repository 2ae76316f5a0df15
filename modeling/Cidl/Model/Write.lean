import Cidl.Model.FileMap
import Cidl.Model.Insert

/-!
# The write scanners

`do_ts_write` and the loop inside `ts_fwrite` go over the pages of a buffer and
compare, at every record they meet, the rest of the buffer with the file the
record names.  They are two copies of one loop; `scanRecs`, `scanBlock` and
`scanPage` are that loop with the points in which the copies differ as
parameters.

The tree does not change meanwhile, so a walk along a queue visits the entries
of the queue from the last to the first.  The local sums that the source keeps
for its commented messages are left out.
-/

namespace Cidl

open SearchTree

/-! ## Comparing memory -/

/-- A byte as a `char`, which is signed. -/
def charVal (b : UInt8) : ℤ := if b.toNat < 128 then b.toNat else (b.toNat : ℤ) - 256

/-- The C version of `memcmp_avx2_asm`: the result, and `*firstDiffPos` where it
is written. -/
def memcmpC (mem : ℕ → UInt8) : ℕ → ℕ → ℕ → ℤ × Option ℕ
  | _, _, 0 => (0, none)
  | c1, c2, n + 1 =>
    if charVal (mem c1) - charVal (mem c2) ≠ 0 then
      (charVal (mem c1) - charVal (mem c2), some c1)
    else memcmpC mem (c1 + 1) (c2 + 1) n

/-- What `cmpWrite` learns from the routine that compares: nothing if it answers 0,
and otherwise the address that it has stored.  Any routine will do that stores an
address whenever it answers something else than 0. -/
abbrev Comparator := (ℕ → UInt8) → ℕ → ℕ → ℕ → Option ℕ

/-- The routine answers 0 exactly on equal ranges, and otherwise it stores the
address of the first difference. -/
structure FindsFirst (cmp : Comparator) : Prop where
  equal : ∀ mem a b n, cmp mem a b n = none ↔ ∀ i < n, mem (a + i) = mem (b + i)
  first : ∀ mem a b n, ∀ d ∈ cmp mem a b n, ∃ i < n, d = a + i ∧
    mem (a + i) ≠ mem (b + i) ∧ ∀ j < i, mem (a + j) = mem (b + j)

theorem charVal_injective {a b : UInt8} (h : charVal a = charVal b) : a = b := by
  have ha := a.toNat_lt
  have hb := b.toNat_lt
  have : a.toNat = b.toNat := by
    unfold charVal at h
    split at h <;> split at h <;> omega
  exact UInt8.toNat_inj.1 this

theorem memcmpC_equal (mem : ℕ → UInt8) (a b n : ℕ) :
    (memcmpC mem a b n).1 = 0 ↔ ∀ i < n, mem (a + i) = mem (b + i) := by
  induction n generalizing a b with
  | zero => simp [memcmpC]
  | succ n ih =>
    rw [memcmpC]
    split
    · rename_i hne
      constructor
      · intro h
        exact absurd h hne
      · intro h
        exact absurd (by rw [show mem a = mem b from h 0 (by omega)]; omega) hne
    · rename_i heq
      have h₀ : mem a = mem b := charVal_injective (by omega)
      rw [ih]
      constructor
      · intro h i hi
        cases i with
        | zero => exact h₀
        | succ i => simpa [Nat.add_assoc, Nat.add_comm 1] using h i (by omega)
      · intro h i hi
        simpa [Nat.add_assoc, Nat.add_comm 1] using h (i + 1) (by omega)

theorem memcmpC_first (mem : ℕ → UInt8) (a b n : ℕ) (h : (memcmpC mem a b n).1 ≠ 0) :
    ∃ i < n, (memcmpC mem a b n).2 = some (a + i) ∧ mem (a + i) ≠ mem (b + i) ∧
      ∀ j < i, mem (a + j) = mem (b + j) := by
  induction n generalizing a b with
  | zero => simp [memcmpC] at h
  | succ n ih =>
    rw [memcmpC] at h ⊢
    split
    · rename_i hne
      refine ⟨0, Nat.succ_pos n, rfl, fun heq => ?_, fun j hj => absurd hj (Nat.not_lt_zero j)⟩
      rw [show mem a = mem b from heq] at hne
      omega
    · rename_i heq
      have h₀ : mem a = mem b := charVal_injective (by omega)
      rw [if_neg heq] at h
      obtain ⟨i, hi, hsome, hne, hbelow⟩ := ih (a + 1) (b + 1) h
      refine ⟨i + 1, by omega, ?_, ?_, ?_⟩
      · rw [hsome]
        congr 1
        omega
      · simpa [Nat.add_assoc, Nat.add_comm 1] using hne
      · intro j hj
        cases j with
        | zero => exact h₀
        | succ j => simpa [Nat.add_assoc, Nat.add_comm 1] using hbelow j (by omega)

/-- The C version, as `cmpWrite` sees it. -/
def byteComparator : Comparator := fun mem c1 c2 n =>
  if (memcmpC mem c1 c2 n).1 ≠ 0 then (memcmpC mem c1 c2 n).2 else none

theorem byteComparator_findsFirst : FindsFirst byteComparator where
  equal mem a b n := by
    rw [← memcmpC_equal, byteComparator]
    split
    · rename_i hne
      obtain ⟨i, -, hsome, -⟩ := memcmpC_first mem a b n hne
      rw [hsome]
      exact iff_of_false (Option.some_ne_none _) hne
    · rename_i heq
      exact iff_of_true rfl (not_not.1 heq)
  first mem a b n d hd := by
    unfold byteComparator at hd
    split at hd
    · rename_i hne
      obtain ⟨i, hi, hsome, hdiff, hbelow⟩ := memcmpC_first mem a b n hne
      rw [hsome] at hd
      exact ⟨i, hi, (Option.some.inj hd).symm, hdiff, hbelow⟩
    · cases hd

/-! ## `cmpWrite` -/

/-- One comparison: the record, where it starts in the buffer, how many bytes
are compared, how many of them are credited, and `*diffPos` afterwards. -/
structure Compared where
  mrp : MemRec
  bufCmpStart : ℕ
  cmpLen : ℕ
  addLen : ℕ
  diffPos : ℕ
  deriving DecidableEq

/-- What a scan has done so far: `diffPos`, what it has added to the three
counters, the records it has passed to `cmpWrite`, and the comparisons made. -/
structure Scan where
  diffPos : ℕ
  sameSize : ℕ
  metadataItem : ℕ
  notFoundSize : ℕ
  passed : List (MemRec × ℕ)
  compared : List Compared

/-- A scan before its first page. -/
def Scan.start (diffPos : ℕ) : Scan where
  diffPos := diffPos
  sameSize := 0
  metadataItem := 0
  notFoundSize := 0
  passed := []
  compared := []

section

variable (cmp : Comparator) (M : FileMaps) (mem : ℕ → UInt8)

/-- `cmpWrite`. -/
def cmpWrite (tail : ℕ) (mrp : MemRec) (bufCmpStart : ℕ) (s : Scan) : Scan :=
  let s := { s with passed := s.passed ++ [(mrp, bufCmpStart)] }
  match tfind (byKey M.nameKey mrp.fileName) M.fileMapNameTreeRoot with
  | none => s
  | some x =>
    let fmTarNode := M.fileMapTreeNodes x
    if fmTarNode.offset ≤ mrp.fileOffset then
      let fileCmpStart := wsub (wadd fmTarNode.start mrp.fileOffset) fmTarNode.offset
      let cmpLen := wsub tail bufCmpStart
      let cmpRet := cmp mem bufCmpStart fileCmpStart cmpLen
      let diffPos := cmpRet.getD tail
      let addLen := if cmpRet.isSome then wsub (min tail diffPos) bufCmpStart else cmpLen
      { s with
        diffPos := diffPos
        metadataItem := wadd s.metadataItem 1
        sameSize := wadd s.sameSize addLen
        compared := s.compared ++ [⟨mrp, bufCmpStart, cmpLen, addLen, diffPos⟩] }
    else s

/-! ## The scan -/

/-- The loop over the slots of one array from `i` on. -/
def scanRecs (stopAtTail : Bool) (T : RecTree) (tail page arr : ℕ) : List ℕ → Scan → Scan
  | [], s => s
  | i :: rest, s =>
    let mrp := T.slot arr i
    let bufCmpStart := getAddr page mrp.pageOffset
    if bufCmpStart < s.diffPos then scanRecs stopAtTail T tail page arr rest s
    else if stopAtTail ∧ tail < bufCmpStart then s
    else scanRecs stopAtTail T tail page arr rest (cmpWrite cmp M mem tail mrp bufCmpStart s)

/-- How many slots at the beginning of an array lie below `bound`, of the first `idx`. -/
def skipBelow (T : RecTree) (page arr bound idx : ℕ) : ℕ :=
  ((List.range idx).find? fun i : ℕ =>
    decide (bound ≤ getAddr page (T.slot arr i).pageOffset)).getD idx

/-- How many slots of a block a scan looks at. -/
def scanLimit (T : RecTree) (node blockEntry : ℕ) : ℕ :=
  if (T.recTreeNodes node).recModEntry = blockEntry then (T.recTreeNodes node).memRecIdx.toNat
  else memRecPerEntry

/-- One block.  `skipTo` is the address below which slots at its beginning are
skipped: a fixed one, or else `diffPos` as it is now. -/
def scanBlock (stopAtTail : Bool) (skipTo : Option ℕ) (T : RecTree) (tail page node : ℕ) (s : Scan)
    (blockEntry : ℕ) : Scan :=
  let arr := (T.recBlockEntries blockEntry).recArr
  let idx := scanLimit T node blockEntry
  let i := skipBelow T page arr (skipTo.getD s.diffPos) idx
  scanRecs cmp M mem stopAtTail T tail page arr (List.range' i (idx - i)) s

/-- `MIN(PAGESIZE, toTailLen)` for a page without a node, with `toTailLen` an `int`. -/
def notFoundLen (buf length page : ℕ) : ℤ :=
  min (pageSize : ℤ) (toInt (wsub length (wsub (getAddr page 0) buf)))

/-- Add an `int` to an `unsigned long`. -/
def addInt (a : ℕ) (x : ℤ) : ℕ := (((a : ℤ) + x) % wordSize).toNat

/-- One page.  It is passed over when its byte at `pageEnd` lies below `diffPos`. -/
def scanPage (stopAtTail : Bool) (skipTo : Option ℕ) (pageEnd : ℤ) (T : RecTree)
    (buf length tail : ℕ) (s : Scan) (page : ℕ) : Scan :=
  if getAddr page pageEnd < s.diffPos then s
  else
    match T.findNode page with
    | some node => (T.tailheads (T.recTreeNodes node).listHead).reverse.foldl
        (scanBlock cmp M mem stopAtTail skipTo T tail page node) s
    | none => { s with notFoundSize := addInt s.notFoundSize (notFoundLen buf length page) }

/-- The pages that a buffer touches, with the one of the address behind it. -/
def bufPages (buf length : ℕ) : List ℕ :=
  pagesFrom (addr2PageNum buf) (addr2PageNum (wadd buf length))

/-- `do_ts_write`, as `ts_write` and `ts_pwrite` call it. -/
def doTsWrite (T : RecTree) (buf length : ℕ) : Scan :=
  (bufPages buf length).foldl
    (scanPage cmp M mem false none 4095 T buf length (wadd buf length)) (.start buf)

/-- The scan in `ts_fwrite`. -/
def fwriteScan (T : RecTree) (buf length : ℕ) : Scan :=
  (bufPages buf length).foldl
    (scanPage cmp M mem true (some buf) 0 T buf length (wadd buf length)) (.start 0)

end

/-! ## The counters -/

/-- The counters of the library. -/
structure WriteStats where
  tsWriteSize : ℕ
  tsWriteSameSize : ℕ
  tsMetadataItem : ℕ
  tsWriteNotFoundSize : ℕ

/-- Add to the counters what a scan has counted for a write of `length` bytes. -/
def WriteStats.add (w : WriteStats) (length : ℕ) (s : Scan) : WriteStats where
  tsWriteSize := wadd w.tsWriteSize length
  tsWriteSameSize := wadd w.tsWriteSameSize s.sameSize
  tsMetadataItem := wadd w.tsMetadataItem s.metadataItem
  tsWriteNotFoundSize := wadd w.tsWriteNotFoundSize s.notFoundSize

end Cidl
