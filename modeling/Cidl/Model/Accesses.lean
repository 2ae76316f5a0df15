import Cidl.Lib.Run
import Cidl.Model.Transfer
import Cidl.Model.Write

/-!
# The slots that the traversals read

Four functions go over the record arrays of a page: the two write scanners,
`ts_memcpy_traced` and `ts_realloc`.  Here each of their loops comes a second
time, as the list of the slots it reads, in the order of the source and with
the subscripts as the source forms them (`rec[uplimit-1]`, `rec[uplimit]`, the
cursor of a loop that tests the record before the index).  The states between
the reads are those of the functions themselves.

A slot is counted as valid if it was so when the traversal came to its block,
or is so when it is read: `ts_memcpy_traced` cuts the block it begins with before
it reads the records that are behind the cut.
-/

namespace Cidl

/-- A slot of a record array that is read. -/
structure Access where
  blockEntry : ℕ
  subscript : ℤ
  /-- How many records of the block are valid. -/
  valid : ℕ
  deriving DecidableEq

/-- The subscript is inside the array and below the number of valid records. -/
def Access.Inside (a : Access) : Prop :=
  0 ≤ a.subscript ∧ a.subscript < memRecPerEntry ∧ a.subscript < a.valid

instance Access.decidableInside (a : Access) : Decidable a.Inside :=
  inferInstanceAs (Decidable (_ ∧ _ ∧ _))

/-! ## The write scanners -/

section

variable (cmp : Comparator) (M : FileMaps) (mem : ℕ → UInt8)

/-- The loop that skips the records below `bound`, from slot `i` on with `n` slots
left: it reads a slot before it looks whether any are left. -/
def skipReads (T : RecTree) (page arr bound : ℕ) : ℕ → ℕ → List ℕ
  | i, 0 => [i]
  | i, n + 1 =>
    if getAddr page (T.slot arr i).pageOffset < bound then i :: skipReads T page arr bound (i + 1) n
    else [i]

/-- The loop that follows it (`scanRecs`). -/
def scanReads (stopAtTail : Bool) (T : RecTree) (tail page arr : ℕ) : List ℕ → Scan → List ℕ
  | [], _ => []
  | i :: rest, s =>
    let mrp := T.slot arr i
    let bufCmpStart := getAddr page mrp.pageOffset
    i :: (if bufCmpStart < s.diffPos then scanReads stopAtTail T tail page arr rest s
      else if stopAtTail ∧ tail < bufCmpStart then []
      else scanReads stopAtTail T tail page arr rest (cmpWrite cmp M mem tail mrp bufCmpStart s))

/-- One block (`scanBlock`). -/
def blockAccesses (stopAtTail : Bool) (skipTo : Option ℕ) (T : RecTree) (tail page node : ℕ)
    (blockEntry : ℕ) (s : Scan) : List Access :=
  let arr := (T.recBlockEntries blockEntry).recArr
  let idx := scanLimit T node blockEntry
  let bound := skipTo.getD s.diffPos
  let i := skipBelow T page arr bound idx
  (skipReads T page arr bound 0 idx ++
    scanReads cmp M mem stopAtTail T tail page arr (List.range' i (idx - i)) s).map
      fun j : ℕ => ⟨blockEntry, j, idx⟩

/-- One page (`scanPage`). -/
def pageAccesses (stopAtTail : Bool) (skipTo : Option ℕ) (pageEnd : ℤ) (T : RecTree)
    (tail page : ℕ) (s : Scan) : List Access :=
  if getAddr page pageEnd < s.diffPos then []
  else
    match T.findNode page with
    | some node => runLog (blockAccesses cmp M mem stopAtTail skipTo T tail page node)
        (fun e s => some (scanBlock cmp M mem stopAtTail skipTo T tail page node s e))
        (T.tailheads (T.recTreeNodes node).listHead).reverse s
    | none => []

/-- The pages of a buffer. -/
def scanAccesses (stopAtTail : Bool) (skipTo : Option ℕ) (pageEnd : ℤ) (T : RecTree)
    (buf length : ℕ) (s : Scan) : List Access :=
  runLog (pageAccesses cmp M mem stopAtTail skipTo pageEnd T (wadd buf length))
    (fun page s =>
      some (scanPage cmp M mem stopAtTail skipTo pageEnd T buf length (wadd buf length) s page))
    (bufPages buf length) s

/-- The slots that `do_ts_write` reads. -/
def doTsWriteAccesses (T : RecTree) (buf length : ℕ) : List Access :=
  scanAccesses cmp M mem false none 4095 T buf length (.start buf)

/-- The slots that the scan in `ts_fwrite` reads. -/
def fwriteAccesses (T : RecTree) (buf length : ℕ) : List Access :=
  scanAccesses cmp M mem true (some buf) 0 T buf length (.start 0)

end

namespace RecTree

variable (L : Libc) (insert : InsertCall → RecTree → Option RecTree)

/-! ## `ts_memcpy_traced` -/

/-- The search for the block to begin with (`findBlock`). -/
def findBlockAccesses (T : RecTree) (node : ℕ) (uplimit offset : ℤ) : List ℕ → List Access
  | [] => []
  | e :: rest =>
    ⟨e, uplimit - 1, scanLimit T node e⟩ ::
      (if offset ≤ (T.slot (T.recBlockEntries e).recArr (uplimit - 1)).pageOffset then []
        else findBlockAccesses T node uplimit offset rest)

/-- The search for the slot to begin with (`findSlot`), from slot `i` on with `n`
slots left. -/
def findSlotReads (T : RecTree) (arr : ℕ) (offset : ℤ) : ℕ → ℕ → List ℕ
  | _, 0 => []
  | i, n + 1 =>
    i :: (if offset ≤ (T.slot arr i).pageOffset then [] else findSlotReads T arr offset (i + 1) n)

/-- The loop over the slots of one array (`copyRecs`).  `valid` is the number of
valid records when the traversal came to the block. -/
def copyAccesses (dest src start node e valid idx : ℕ) (uplimit : ℤ) (T : RecTree) :
    List Access :=
  runLog (fun i U => [⟨e, (i : ℕ), max valid (scanLimit U node e)⟩])
    (fun i U => insert (U.copyCall dest src start (T.recBlockEntries e).recArr i) U)
    (List.range' idx (uplimit.toNat - idx)) T

/-- The last loop over the blocks of a source page (`copyBlocks`). -/
def copyBlocksAccesses (dest src start node : ℕ) (res : RecTree → ℕ) (srcLastEntry : ℕ) :
    ℕ → Option ℕ → ℤ → RecTree → List Access
  | _, none, _, _ => []
  | 0, some _, _, _ => []
  | fuel + 1, some e, uplimit, T =>
    let uplimit := if e = srcLastEntry then (T.recTreeNodes (res T)).memRecIdx else uplimit
    copyAccesses insert dest src start node e (scanLimit T node e) 0 uplimit T ++
      (copyRecs insert dest src start (T.recBlockEntries e).recArr 0 uplimit T).elim [] fun U =>
        copyBlocksAccesses dest src start node res srcLastEntry fuel (U.tailqPrev e) uplimit U

/-- From slot `idx` of a block on (`copyFrom`). -/
def copyFromAccesses (fuel dest src start node : ℕ) (res : RecTree → ℕ)
    (e srcLastEntry valid idx : ℕ) (uplimit : ℤ) (T : RecTree) : List Access :=
  copyAccesses insert dest src start node e valid idx uplimit T ++
    (copyRecs insert dest src start (T.recBlockEntries e).recArr idx uplimit T).elim [] fun U =>
      copyBlocksAccesses insert dest src start node res srcLastEntry fuel (U.tailqPrev e) uplimit U

/-- The page of `src` (`copyFirstPage`). -/
def copyFirstPageAccesses (fuel dest src start node : ℕ) (T : RecTree) : List Access :=
  let n := T.recTreeNodes node
  let uplimit := n.memRecIdx
  let blocks := (T.tailheads n.listHead).reverse
  findBlockAccesses T node uplimit (addr2PageOffset src) blocks ++
    match T.findBlock uplimit (addr2PageOffset src) blocks with
    | none => []
    | some e =>
      let arr := (T.recBlockEntries e).recArr
      let valid := scanLimit T node e
      (findSlotReads T arr (addr2PageOffset src) 0 uplimit.toNat).map
          (fun i : ℕ => ⟨e, i, valid⟩) ++
        match T.findSlot arr uplimit (addr2PageOffset src) with
        | some idx =>
          copyFromAccesses insert fuel dest src start node (T.reread L node) e n.recModEntry valid
            idx uplimit (T.setCursor node e idx)
        | none =>
          copyFromAccesses insert fuel dest src start node (T.reread L node) e n.recModEntry valid
            uplimit.toNat uplimit T

/-- A page after the first (`copyNextPage`). -/
def copyNextPageAccesses (fuel dest src start node : ℕ) (T : RecTree) : List Access :=
  let n := T.recTreeNodes node
  (T.tailqLast n.listHead).elim [] fun e =>
    copyFromAccesses insert fuel dest src start node (T.reread L node) e n.recModEntry
      (scanLimit T node e) 0 n.memRecIdx T

/-- The body of the loop over the source pages (`copyPage`). -/
def copyPageAccesses (fuel dest src start : ℕ) (T : RecTree) : List Access :=
  match T.findNode start with
  | none => []
  | some node =>
    if start = addr2PageNum src then copyFirstPageAccesses L insert fuel dest src start node T
    else copyNextPageAccesses L insert fuel dest src start node T

/-- The slots that `ts_memcpy_traced` reads. -/
def tsMemcpyTracedAccesses (fuel dest src n : ℕ) (T : RecTree) : List Access :=
  runLog (copyPageAccesses L insert fuel dest src) (copyPage L insert fuel dest src)
    (pagesFrom (addr2PageNum src) (addr2PageNum (wadd src n))) T

/-! ## `ts_realloc` -/

/-- The loop over the slots of one array (`moveRecs`). -/
def moveAccesses (ret ptr tail start node e valid arr : ℕ) :
    List ℕ → RecTree → List Access
  | [], _ => []
  | i :: rest, T =>
    let r := T.slot arr i
    let memAddr := getAddr start r.pageOffset
    ⟨e, i, max valid (scanLimit T node e)⟩ ::
      (if memAddr ≤ ptr then moveAccesses ret ptr tail start node e valid arr rest T
        else if tail ≤ memAddr then []
        else
          (insert
            { fileOffset := r.fileOffset, src := 0, dest := wadd (wsub memAddr ptr) ret,
              fileName := r.fileName, fd := r.fd, origin := r.origin } T).elim []
            (moveAccesses ret ptr tail start node e valid arr rest))

/-- The do-while loop over the blocks (`moveBlocks`). -/
def moveBlocksAccesses (ret ptr tail start node : ℕ) (res : RecTree → ℕ) (mostRecBlock : ℕ) :
    ℕ → Option ℕ → RecTree → List Access
  | _, none, _ => []
  | 0, some _, _ => []
  | fuel + 1, some e, T =>
    let uplimit :=
      if e = mostRecBlock then (T.recTreeNodes (res T)).memRecIdx else memRecPerEntry
    let arr := (T.recBlockEntries e).recArr
    let valid := scanLimit T node e
    ⟨e, uplimit, valid⟩ ::
      (if tail ≤ getAddr start (T.slot arr uplimit).pageOffset then
        moveBlocksAccesses ret ptr tail start node res mostRecBlock fuel (some e) T
      else
        moveAccesses insert ret ptr tail start node e valid arr (List.range uplimit.toNat) T ++
          (moveRecs insert ret ptr tail start arr (List.range uplimit.toNat) T).elim [] fun U =>
            moveBlocksAccesses ret ptr tail start node res mostRecBlock fuel (U.tailqPrev e) U)

/-- The body of the loop over the pages of the old block (`movePage`). -/
def movePageAccesses (fuel ret ptr tail start : ℕ) (T : RecTree) : List Access :=
  match T.findNode start with
  | none => []
  | some node =>
    let n := T.recTreeNodes node
    moveBlocksAccesses insert ret ptr tail start node (T.reread L node) n.recModEntry fuel
      (T.tailqLast n.listHead) T

/-- The slots that `ts_realloc` reads. -/
def tsReallocAccesses (fuel ret ptr tail : ℕ) (T : RecTree) : List Access :=
  runLog (movePageAccesses L insert fuel ret ptr tail) (movePage L insert fuel ret ptr tail)
    (pagesFrom (addr2PageNum ptr) (addr2PageNum tail)) T

end RecTree

end Cidl
