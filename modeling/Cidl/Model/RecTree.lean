import Cidl.Lib.SearchTree
import Cidl.Lib.SlabPool
import Cidl.Model.Addr

/-!
# The record tree and its storage

The records of a page hang off one node of `recTreeRoot`: a tail queue of
blocks, the newest block first, each block an array of `memRecPerEntry` slots.
Nodes, queue heads, block entries and arrays come from four pools and are known
here by their addresses.

* `RecTree` is the tree with the contents of all these objects.  The slots of
  the record arrays form one memory, so that a subscript outside its array
  reads the slot of a neighbour.
* The queue operations follow `<sys/queue.h>`.  An entry remembers the queue it
  is linked in, as its `tqe_prev` does, and `tailqPrev` goes by that.
* Three things the C program does not keep are recorded for the statements
  about it: the file a record was made from (`origin`), how many slots of a
  block were in use when the node last wrote its cursor (`filled`), and the
  calls of `insertRec` made so far (`calls`).
-/

namespace Cidl

open SearchTree

/-- What a file descriptor refers to: the identity of a file. -/
abbrev FileId := ℕ

/-! ## The objects -/

/-- `MEMRECPERENTRY`. -/
abbrev memRecPerEntry : ℕ := 38

/-- `MAX_FILE_NUM`. -/
abbrev maxFileNum : ℕ := 1024

/-- `struct memRec`. -/
structure MemRec where
  fileOffset : ℕ
  fileName : ℕ
  pageOffset : ℤ
  fd : ℤ
  /-- The file the record was made from; not in the C structure. -/
  origin : Option FileId
  deriving DecidableEq, Inhabited

/-- The arguments of one call of `insertRec`. -/
structure InsertCall where
  fileOffset : ℕ
  src : ℕ
  dest : ℕ
  fileName : ℕ
  fd : ℤ
  /-- The file of the mapping or of the record that is copied; not an argument in C. -/
  origin : Option FileId
  deriving DecidableEq

/-- `struct recBlockEntry`. -/
structure RecBlockEntry where
  recArr : ℕ
  /-- The queue that the entry is linked in. -/
  queue : Option ℕ
  /-- The last cursor that was written while this was the node's `recModEntry`. -/
  filled : ℤ
  deriving Inhabited

/-- `struct recTreeNode`. -/
structure RecTreeNode where
  pageNum : ℕ
  listHead : ℕ
  recModEntry : ℕ
  memRecIdx : ℤ
  deriving Inhabited

/-- The record tree, its objects and its pools. -/
structure RecTree where
  /-- The slots of all record arrays. -/
  recMem : ℤ → MemRec
  recBlockEntries : ℕ → RecBlockEntry
  /-- The entries of each queue, first to last. -/
  tailheads : ℕ → List ℕ
  recTreeNodes : ℕ → RecTreeNode
  recTreeRoot : BinaryTree ℕ
  recTreeNodePool : Pool
  recTreeNodeThreshold : ℕ
  tailHeadPool : Pool
  recBlockEntryPool : Pool
  recArrPool : Pool
  /-- How many garbage reclaims there have been. -/
  walks : ℕ
  /-- The calls of `insertRec`, the last one at the end. -/
  calls : List InsertCall

/-- What the C library decides: the shapes of its trees, which nodes a walk
over a tree reaches while the tree is being changed, what the cells of a tree hold
after a deletion, and where the slabs of the pools lie. -/
structure Libc where
  search : TreeLib ℕ
  twalk : ℕ → BinaryTree ℕ → List ℕ
  nodeSlabs : Slabs 1 8000
  headSlabs : Slabs 1 8000
  entrySlabs : Slabs 1 6000
  arrSlabs : Slabs memRecPerEntry 6000
  /-- What a cell that named a node in the first state names in the second, after a
  reclaim: `tdelete` may move a key to another cell, and gives a cell back. -/
  cell : RecTree → ℕ → RecTree → ℕ

namespace RecTree

variable (T : RecTree)

/-! ## Reading and writing the objects -/

/-- The slot `rec[i]` of the array that begins at `arr`. -/
def slot (arr : ℕ) (i : ℤ) : MemRec := T.recMem (arr + i)

/-- Write the slot at an address. -/
def setRec (a : ℤ) (r : MemRec) : RecTree := { T with recMem := Function.update T.recMem a r }

/-- Write a block entry. -/
def setEntry (e : ℕ) (b : RecBlockEntry) : RecTree :=
  { T with recBlockEntries := Function.update T.recBlockEntries e b }

/-- Write a queue. -/
def setQueue (h : ℕ) (q : List ℕ) : RecTree :=
  { T with tailheads := Function.update T.tailheads h q }

/-- Write a tree node. -/
def setNode (p : ℕ) (n : RecTreeNode) : RecTree :=
  { T with recTreeNodes := Function.update T.recTreeNodes p n }

/-- Write the append cursor of a node: its current block and the index in it. -/
def setCursor (p e : ℕ) (idx : ℤ) : RecTree :=
  (T.setNode p { T.recTreeNodes p with recModEntry := e, memRecIdx := idx }).setEntry e
    { T.recBlockEntries e with filled := idx }

/-- The key by which `recCompare` orders the nodes. -/
abbrev pageKey (p : ℕ) : ℕ := (T.recTreeNodes p).pageNum

/-- `tfind` with `recCompare`: the node of a page. -/
def findNode (pageNum : ℕ) : Option ℕ := tfind (byKey T.pageKey pageNum) T.recTreeRoot

/-- `res[0]` for the cell that `tfind` has returned for a node, read again later.  As only
a reclaim deletes nodes, without one the cell still names the same node. -/
def reread (L : Libc) (node : ℕ) (now : RecTree) : ℕ :=
  if now.walks = T.walks then node else L.cell T node now

/-! ## Tail queues -/

/-- The element just before `e` in a list. -/
def predIn (e : ℕ) : List ℕ → Option ℕ
  | a :: b :: l => if b = e then some a else predIn e (b :: l)
  | _ => none

/-- `TAILQ_FIRST`. -/
def tailqFirst (h : ℕ) : Option ℕ := (T.tailheads h).head?

/-- `TAILQ_LAST`. -/
def tailqLast (h : ℕ) : Option ℕ := (T.tailheads h).getLast?

/-- `TAILQ_PREV`, for an entry that is not linked anywhere the null pointer. -/
def tailqPrev (e : ℕ) : Option ℕ :=
  (T.recBlockEntries e).queue.bind fun h => predIn e (T.tailheads h)

/-- `TAILQ_INIT`. -/
def tailqInit (h : ℕ) : RecTree := T.setQueue h []

/-- `TAILQ_INSERT_HEAD`. -/
def tailqInsertHead (h e : ℕ) : RecTree :=
  (T.setQueue h (e :: T.tailheads h)).setEntry e { T.recBlockEntries e with queue := some h }

/-- `TAILQ_REMOVE`. -/
def tailqRemove (h e : ℕ) : RecTree :=
  (T.setQueue h ((T.tailheads h).erase e)).setEntry e { T.recBlockEntries e with queue := none }

/-! ## The pools -/

/-- `allocateRecTreeNode`: this pool does not grow. -/
def allocateRecTreeNode : Option (ℕ × RecTree) :=
  T.recTreeNodePool.pop.map fun r => (r.1, { T with recTreeNodePool := r.2 })

/-- `allocateTailHead`. -/
def allocateTailHead (L : Libc) : Option (ℕ × RecTree) :=
  (T.tailHeadPool.take L.headSlabs).map fun r => (r.1, { T with tailHeadPool := r.2 })

/-- `allocateRecBlockEntry`. -/
def allocateRecBlockEntry (L : Libc) : Option (ℕ × RecTree) :=
  (T.recBlockEntryPool.take L.entrySlabs).map fun r => (r.1, { T with recBlockEntryPool := r.2 })

/-- `allocateMemRecArr`. -/
def allocateMemRecArr (L : Libc) : Option (ℕ × RecTree) :=
  (T.recArrPool.take L.arrSlabs).map fun r => (r.1, { T with recArrPool := r.2 })

/-- `withdrawRecTreeNode`. -/
def withdrawRecTreeNode (p : ℕ) : Option RecTree :=
  (T.recTreeNodePool.push p).map fun q => { T with recTreeNodePool := q }

/-- `withdrawTailHead`. -/
def withdrawTailHead (h : ℕ) : Option RecTree :=
  (T.tailHeadPool.push h).map fun q => { T with tailHeadPool := q }

/-- `withdrawRecBlockEntry`. -/
def withdrawRecBlockEntry (e : ℕ) : Option RecTree :=
  (T.recBlockEntryPool.push e).map fun q => { T with recBlockEntryPool := q }

/-- `withdrawMemRecArr`. -/
def withdrawMemRecArr (arr : ℕ) : Option RecTree :=
  (T.recArrPool.push arr).map fun q => { T with recArrPool := q }

/-- Give the first block of a queue back: the array to its pool, the entry out
of the queue and to its pool.  `insertRec` and the reclaimer both free blocks
in this order. -/
def withdrawBlock (h e : ℕ) : Option RecTree := do
  let T ← T.withdrawMemRecArr (T.recBlockEntries e).recArr
  (T.tailqRemove h e).withdrawRecBlockEntry e

/-- `initMemory` over objects with any contents, for the part kept here. -/
def initMemory (L : Libc) (recMem : ℤ → MemRec) (recBlockEntries : ℕ → RecBlockEntry)
    (recTreeNodes : ℕ → RecTreeNode) : RecTree where
  recMem := recMem
  recBlockEntries := recBlockEntries
  tailheads := fun _ => []
  recTreeNodes := recTreeNodes
  recTreeRoot := .nil
  recTreeNodePool := .start L.nodeSlabs
  recTreeNodeThreshold := 8000 * 3 / 5
  tailHeadPool := .start L.headSlabs
  recBlockEntryPool := .start L.entrySlabs
  recArrPool := .start L.arrSlabs
  walks := 0
  calls := []

end RecTree

end Cidl
