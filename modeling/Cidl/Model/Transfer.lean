import Cidl.Model.Insert

/-!
# Copying and moving traced memory

`ts_memcpy_traced` inserts, for the records of its source pages, records at the
destination, and cuts the node of the first page; `ts_realloc` does the same
for a block that `realloc` has moved.  Both walk the queues of the source pages
while `insertRec` changes the tree, so every read is from the state of that
moment.  The limit of a block is read again through the cell that `tfind` has
returned (`reread`), which a reclaim may have changed.  The walks from block to
block are bounded by `fuel`.

The function that inserts a record is a parameter: the model passes
`insertRec`, and the same loops run with a variant that checks a condition
first.
-/

namespace Cidl

open SearchTree

namespace RecTree

variable (L : Libc) (insert : InsertCall → RecTree → Option RecTree)

/-! ## `ts_memcpy_traced` -/

/-- The call of `insertRec` for the record in slot `idx` of an array of the
page `start`. -/
def copyCall (dest src start arr : ℕ) (T : RecTree) (idx : ℕ) : InsertCall :=
  let curMemRec := T.slot arr idx
  let copySrc := getAddr start curMemRec.pageOffset
  { fileOffset := curMemRec.fileOffset
    src := copySrc
    dest := wadd dest (wsub copySrc src)
    fileName := curMemRec.fileName
    fd := curMemRec.fd
    origin := curMemRec.origin }

/-- `for(; idx < uplimit; idx++)` over the slots of one array. -/
def copyRecs (dest src start arr idx : ℕ) (uplimit : ℤ) (T : RecTree) : Option RecTree :=
  runAll (fun i T => insert (T.copyCall dest src start arr i) T)
    (List.range' idx (uplimit.toNat - idx)) T

/-- The last loop over the blocks of a source page.  Only the block that was
current at the beginning gets its limit from the node again, from the one that the
cell names by then (`res`). -/
def copyBlocks (dest src start : ℕ) (res : RecTree → ℕ) (srcLastEntry : ℕ) :
    ℕ → Option ℕ → ℤ → RecTree → Option RecTree
  | _, none, _, T => some T
  | 0, some _, _, _ => none
  | fuel + 1, some blockEntry, uplimit, T => do
    let uplimit := if blockEntry = srcLastEntry then (T.recTreeNodes (res T)).memRecIdx else uplimit
    let T ← copyRecs insert dest src start (T.recBlockEntries blockEntry).recArr 0 uplimit T
    copyBlocks dest src start res srcLastEntry fuel (T.tailqPrev blockEntry) uplimit T

/-- The do-while loop that looks for the block to begin with: over the blocks
from oldest to newest, to the first one whose slot before `uplimit` is not
below the offset. -/
def findBlock (T : RecTree) (uplimit offset : ℤ) : List ℕ → Option ℕ
  | [] => none
  | e :: rest =>
    if offset ≤ (T.slot (T.recBlockEntries e).recArr (uplimit - 1)).pageOffset then some e
    else findBlock T uplimit offset rest

/-- The first slot below `uplimit` whose record is not below the offset. -/
def findSlot (T : RecTree) (arr : ℕ) (uplimit offset : ℤ) : Option ℕ :=
  (List.range uplimit.toNat).find? fun i => decide (offset ≤ (T.slot arr i).pageOffset)

/-- Copy from slot `idx` of a block on, and then the blocks after it. -/
def copyFrom (fuel dest src start : ℕ) (res : RecTree → ℕ) (blockEntry srcLastEntry idx : ℕ)
    (uplimit : ℤ) (T : RecTree) : Option RecTree := do
  let T ← copyRecs insert dest src start (T.recBlockEntries blockEntry).recArr idx uplimit T
  copyBlocks insert dest src start res srcLastEntry fuel (T.tailqPrev blockEntry) uplimit T

/-- The page of `src`: find where to begin, cut the node there, copy the rest.
As the node has not changed yet, the limit of every block it looks at is the
index of the current one. -/
def copyFirstPage (fuel dest src start node : ℕ) (T : RecTree) : Option RecTree :=
  let n := T.recTreeNodes node
  let uplimit := n.memRecIdx
  match (T.tailheads n.listHead).reverse with
  | [] => none
  | blocks =>
    match T.findBlock uplimit (addr2PageOffset src) blocks with
    | none => some T
    | some blockEntry =>
      match T.findSlot (T.recBlockEntries blockEntry).recArr uplimit (addr2PageOffset src) with
      | some idx =>
        copyFrom insert fuel dest src start (T.reread L node) blockEntry n.recModEntry idx uplimit
          (T.setCursor node blockEntry idx)
      | none =>
        copyFrom insert fuel dest src start (T.reread L node) blockEntry n.recModEntry uplimit.toNat
          uplimit T

/-- A page after the first: from the oldest block on. -/
def copyNextPage (fuel dest src start node : ℕ) (T : RecTree) : Option RecTree := do
  let n := T.recTreeNodes node
  let blockEntry ← T.tailqLast n.listHead
  copyFrom insert fuel dest src start (T.reread L node) blockEntry n.recModEntry 0 n.memRecIdx T

/-- The body of the loop over the source pages. -/
def copyPage (fuel dest src start : ℕ) (T : RecTree) : Option RecTree :=
  match T.findNode start with
  | none => some T
  | some node =>
    if start = addr2PageNum src then copyFirstPage L insert fuel dest src start node T
    else copyNextPage L insert fuel dest src start node T

/-- `ts_memcpy_traced`, without its `memcpy`. -/
def tsMemcpyTraced (fuel dest src n : ℕ) (T : RecTree) : Option RecTree :=
  runAll (copyPage L insert fuel dest src)
    (pagesFrom (addr2PageNum src) (addr2PageNum (wadd src n))) T

/-! ## `ts_realloc` -/

/-- The loop over the slots of one array, up to the first record at or behind
`tail`. -/
def moveRecs (ret ptr tail start arr : ℕ) : List ℕ → RecTree → Option RecTree
  | [], T => some T
  | i :: rest, T =>
    let r := T.slot arr i
    let memAddr := getAddr start r.pageOffset
    if memAddr ≤ ptr then moveRecs ret ptr tail start arr rest T
    else if tail ≤ memAddr then some T
    else do
      let T ← insert
        { fileOffset := r.fileOffset, src := 0, dest := wadd (wsub memAddr ptr) ret,
          fileName := r.fileName, fd := r.fd, origin := r.origin } T
      moveRecs ret ptr tail start arr rest T

/-- The do-while loop over the blocks.  A block whose slot at the limit lies at
or behind `tail` is looked at again, as the `continue` of the source does not
advance to the next one. -/
def moveBlocks (ret ptr tail start : ℕ) (res : RecTree → ℕ) (mostRecBlock : ℕ) :
    ℕ → Option ℕ → RecTree → Option RecTree
  | _, none, T => some T
  | 0, some _, _ => none
  | fuel + 1, some blockEntry, T =>
    let uplimit := if blockEntry = mostRecBlock then (T.recTreeNodes (res T)).memRecIdx
      else memRecPerEntry
    let arr := (T.recBlockEntries blockEntry).recArr
    if tail ≤ getAddr start (T.slot arr uplimit).pageOffset then
      moveBlocks ret ptr tail start res mostRecBlock fuel (some blockEntry) T
    else do
      let T ← moveRecs insert ret ptr tail start arr (List.range uplimit.toNat) T
      moveBlocks ret ptr tail start res mostRecBlock fuel (T.tailqPrev blockEntry) T

/-- The body of the loop over the pages of the old block. -/
def movePage (fuel ret ptr tail start : ℕ) (T : RecTree) : Option RecTree :=
  match T.findNode start with
  | none => some T
  | some node => do
    let n := T.recTreeNodes node
    let blockEntry ← T.tailqLast n.listHead
    moveBlocks insert ret ptr tail start (T.reread L node) n.recModEntry fuel (some blockEntry) T

/-- `ts_realloc` of the block from `ptr` to `tail` that `realloc` has moved to `ret`. -/
def tsRealloc (fuel ret ptr tail : ℕ) (T : RecTree) : Option RecTree :=
  runAll (movePage L insert fuel ret ptr tail) (pagesFrom (addr2PageNum ptr) (addr2PageNum tail)) T

end RecTree

end Cidl
