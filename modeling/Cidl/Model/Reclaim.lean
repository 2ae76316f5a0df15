import Cidl.Lib.Run
import Cidl.Model.RecTree

/-!
# Garbage reclaim

`recTreeNodeGrabageReclaim` walks over the record tree.  A node without records
is given back with everything it owns; any other node is compacted in place by
two cursors, one that searches and one that marks the next slot to keep, and
the blocks in front of the last kept one are given back.

The two macros that advance a cursor return the pointer *before* its increment
(`return keeped++` on a parameter), so inside a block the pointer stands still
while the index counts on; `nextSlot` does the same.
-/

namespace Cidl

open SearchTree

namespace RecTree

/-- One of the two cursors: index and last index in the block, block, pointer. -/
structure Cursor where
  idx : ℤ
  maxIdx : ℤ
  ent : Option ℕ
  ptr : Option ℤ

/-- The last index to visit in a block: the newest block ends at the cursor of
the node, as it is at this moment. -/
def maxIdxOf (T : RecTree) (node e : ℕ) : ℤ :=
  if (T.tailqPrev e).isSome then memRecPerEntry - 1 else (T.recTreeNodes node).memRecIdx - 1

/-- A cursor at the beginning of a block. -/
def enterBlock (T : RecTree) (node e : ℕ) : Cursor where
  idx := 0
  maxIdx := T.maxIdxOf node e
  ent := some e
  ptr := some (T.recBlockEntries e).recArr

/-- The common body of `NEXTKEEPED` and `NEXTSEARCHING`. -/
def nextSlot (T : RecTree) (node : ℕ) (c : Cursor) : Option Cursor :=
  if c.idx < c.maxIdx then some { c with idx := c.idx + 1 }
  else c.ent.bind fun e =>
    match T.tailqPrev e with
    | none => some { c with ent := none, ptr := none }
    | some e' => some (T.enterBlock node e')

/-- `NEXTKEEPED`. -/
abbrev nextKeeped := nextSlot

/-- `NEXTSEARCHING`. -/
abbrev nextSearching := nextSlot

/-- `openFileArray[fd % MAX_FILE_NUM]` is not null: the file is still mapped. -/
def isLive (openFileArray : ℤ → Option ℕ) (r : MemRec) : Bool :=
  (openFileArray (r.fd.tmod maxFileNum)).isSome

/-- The compaction loop.  Its last argument but three bounds the iterations. -/
def reclaimLoop (openFileArray : ℤ → Option ℕ) (node : ℕ) :
    ℕ → Cursor → Cursor → RecTree → Option RecTree
  | 0, _, search, T => if search.ptr.isNone then some T else none
  | fuel + 1, keep, search, T =>
    match search.ptr with
    | none => some T
    | some searching =>
      if isLive openFileArray (T.recMem searching) then
        if keep.ptr = some searching then do
          let search ← T.nextSearching node search
          reclaimLoop openFileArray node fuel keep search T
        else do
          let keeped ← keep.ptr
          let T := T.setRec keeped (T.recMem searching)
          let keep ← T.nextKeeped node keep
          let search ← T.nextSearching node search
          reclaimLoop openFileArray node fuel keep search T
      else do
        let keepEnt ← keep.ent
        let T := T.setCursor node keepEnt keep.idx
        let keep ← T.nextKeeped node keep
        let search ← T.nextSearching node search
        reclaimLoop openFileArray node fuel keep search T

/-- Give back the blocks of a queue up to `keepEnt`. -/
def withdrawUntil (head keepEnt : ℕ) : List ℕ → RecTree → Option RecTree
  | [], _ => none
  | delEnt :: rest, T =>
    if delEnt = keepEnt then some T
    else (T.withdrawBlock head delEnt).bind (withdrawUntil head keepEnt rest)

/-- The first branch of `reclaimSpecialRecTreeNode`: the node goes, with its
only block, its queue head and its place in the tree. -/
def withdrawNode (L : Libc) (node ent : ℕ) (T : RecTree) : Option RecTree := do
  let pageNum := (T.recTreeNodes node).pageNum
  let head := (T.recTreeNodes node).listHead
  let T ← T.withdrawBlock head ent
  let T ← T.withdrawTailHead head
  let T ← T.withdrawRecTreeNode node
  let T := { T with recTreeRoot := L.search.tdelete (byKey T.pageKey pageNum) T.recTreeRoot }
  some (T.setNode node { pageNum := 0, listHead := 0, recModEntry := 0, memRecIdx := 0 })

/-- The second branch: compaction, then the blocks that are no longer needed.
A block makes at most as many iterations as a `short` has values. -/
def compactNode (openFileArray : ℤ → Option ℕ) (node : ℕ) (T : RecTree) : Option RecTree := do
  let head := (T.recTreeNodes node).listHead
  let ent ← T.tailqLast head
  let start := T.enterBlock node ent
  let T ← reclaimLoop openFileArray node ((T.tailheads head).length * 32768) start start T
  withdrawUntil head (T.recTreeNodes node).recModEntry (T.tailheads head) T

/-- `reclaimSpecialRecTreeNode`. -/
def reclaimSpecialRecTreeNode (L : Libc) (openFileArray : ℤ → Option ℕ) (node : ℕ)
    (T : RecTree) : Option RecTree :=
  match T.tailheads (T.recTreeNodes node).listHead with
  | [] => none
  | ent :: rest =>
    if (T.recTreeNodes node).memRecIdx = 0 ∧ rest = [] then withdrawNode L node ent T
    else compactNode openFileArray node T

/-- What the walk does at a node it reaches.  A node that has left the tree
meanwhile is not visited. -/
def reclaimRecTreeNode (L : Libc) (openFileArray : ℤ → Option ℕ) (node : ℕ) (T : RecTree) :
    Option RecTree :=
  if node ∈ inorder T.recTreeRoot then reclaimSpecialRecTreeNode L openFileArray node T
  else some T

/-- `recTreeNodeGrabageReclaim`.  The ratio 0.6 times an index below 2^53 is,
rounded to a double and cut to an integer, three fifths rounded down. -/
def recTreeNodeGrabageReclaim (L : Libc) (openFileArray : ℤ → Option ℕ) (T : RecTree) :
    Option RecTree := do
  let T ← runAll (reclaimRecTreeNode L openFileArray) (L.twalk T.walks T.recTreeRoot) T
  some { T with recTreeNodeThreshold := T.recTreeNodePool.idx * 3 / 5, walks := T.walks + 1 }

end RecTree

end Cidl
