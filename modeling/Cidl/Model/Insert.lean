import Cidl.Model.Reclaim

/-!
# Inserting a record

`insertRec` appends one record to the page of its destination.  A page without
a node gets one (`addTreeNode`, which may reclaim garbage first); a page whose
last record lies at or behind the destination is cleared down to its oldest
block; then `writeRec` writes the record behind the cursor of the node, in a
new block when the current one is full.

The static `lastRec` is set from the node before every use and always points at
its current block and at its index, so both are read from the node here.
-/

namespace Cidl

open SearchTree

namespace RecTree

/-- The record that `writeRec` stores. -/
def recordOf (c : InsertCall) (pageNum : ℕ) : MemRec where
  fileOffset := c.fileOffset
  fileName := c.fileName
  pageOffset := toShort (wsub c.dest (pageNum * pageSize))
  fd := c.fd
  origin := c.origin

/-- The array of the block a node appends to, `nodePtr->recModEntry->recArr`. -/
def curArr (T : RecTree) (node : ℕ) : ℕ :=
  (T.recBlockEntries (T.recTreeNodes node).recModEntry).recArr

/-- `writeRec`. -/
def writeRec (L : Libc) (c : InsertCall) (pageNum node : ℕ) (T : RecTree) : Option RecTree :=
  let idx := (T.recTreeNodes node).memRecIdx
  if idx < memRecPerEntry then
    some ((T.setRec (T.curArr node + idx) (recordOf c pageNum)).setCursor node
      (T.recTreeNodes node).recModEntry (idx + 1))
  else do
    let node ← T.findNode pageNum
    let (recArr, T) ← T.allocateMemRecArr L
    let (rbe, T) ← T.allocateRecBlockEntry L
    let T := T.setEntry rbe { T.recBlockEntries rbe with recArr := recArr }
    let T := T.tailqInsertHead (T.recTreeNodes node).listHead rbe
    some ((T.setRec recArr (recordOf c pageNum)).setCursor node rbe 1)

/-- Give back the blocks of a queue but the last one. -/
def withdrawNewer (head : ℕ) : List ℕ → RecTree → Option RecTree
  | e :: e' :: rest, T => (T.withdrawBlock head e).bind (withdrawNewer head (e' :: rest))
  | _, T => some T

/-- The test of the `DELETE_TREENODE` part of `insertRec`: the last record of
the current block lies at or behind the destination. -/
def mustClear (T : RecTree) (node dest : ℕ) : Prop :=
  0 < (T.recTreeNodes node).memRecIdx ∧
    addr2PageOffset dest ≤
      (T.slot (T.curArr node) ((T.recTreeNodes node).memRecIdx - 1)).pageOffset

instance (T : RecTree) (node dest : ℕ) : Decidable (T.mustClear node dest) :=
  inferInstanceAs (Decidable (_ ∧ _))

/-- The `DELETE_TREENODE` part of `insertRec`. -/
def clearPage (node dest : ℕ) (T : RecTree) : Option RecTree :=
  if (T.recTreeNodes node).memRecIdx < 0 then none
  else if T.mustClear node dest then do
    let head := (T.recTreeNodes node).listHead
    let T ← withdrawNewer head (T.tailheads head) T
    let first ← T.tailqFirst head
    some (T.setCursor node first 0)
  else some T

/-- The test by which `addTreeNode` reclaims garbage. -/
def needsReclaim (T : RecTree) : Prop :=
  T.recTreeNodePool.idx < T.recTreeNodeThreshold ∨ T.recTreeNodePool.idx = 0

instance (T : RecTree) : Decidable T.needsReclaim := inferInstanceAs (Decidable (_ ∨ _))

/-- `addTreeNode` after its reclaim: a node with one empty block. -/
def newTreeNode (L : Libc) (pageNum : ℕ) (T : RecTree) : Option (ℕ × RecTree) := do
  let (treeNode, T) ← T.allocateRecTreeNode
  let (head, T) ← T.allocateTailHead L
  let T := T.tailqInit head
  let (ent, T) ← T.allocateRecBlockEntry L
  let (recArr, T) ← T.allocateMemRecArr L
  let T := T.setEntry ent { T.recBlockEntries ent with recArr := recArr }
  let T := T.tailqInsertHead head ent
  let T := T.setNode treeNode { T.recTreeNodes treeNode with pageNum := pageNum, listHead := head }
  let T := T.setCursor treeNode ent 0
  some (treeNode,
    { T with recTreeRoot := L.search.tsearch (byKey T.pageKey pageNum) treeNode T.recTreeRoot })

/-- The reclaim at the beginning of `addTreeNode`. -/
def reclaimIfNeeded (L : Libc) (openFileArray : ℤ → Option ℕ) (T : RecTree) : Option RecTree :=
  if T.needsReclaim then recTreeNodeGrabageReclaim L openFileArray T else some T

/-- `addTreeNode`. -/
def addTreeNode (L : Libc) (openFileArray : ℤ → Option ℕ) (pageNum : ℕ) (T : RecTree) :
    Option (ℕ × RecTree) :=
  (reclaimIfNeeded L openFileArray T).bind (newTreeNode L pageNum)

/-- Note a call of `insertRec`. -/
def logCall (c : InsertCall) (T : RecTree) : RecTree := { T with calls := T.calls ++ [c] }

/-- `insertRec`.  The range check behind `addTreeNode` reads the 0 that was
just stored, and the last one only prints. -/
def insertRec (L : Libc) (openFileArray : ℤ → Option ℕ) (c : InsertCall) (T : RecTree) :
    Option RecTree :=
  let T := T.logCall c
  let pageNum := addr2PageNum c.dest
  match T.findNode pageNum with
  | some nodePtr => (clearPage nodePtr c.dest T).bind (writeRec L c pageNum nodePtr)
  | none => (addTreeNode L openFileArray pageNum T).bind fun r => writeRec L c pageNum r.1 r.2

/-- `insertRec` of a build with `DELETE_TREENODE=0`, which clears no page. -/
def insertRecKeeping (L : Libc) (openFileArray : ℤ → Option ℕ) (c : InsertCall) (T : RecTree) :
    Option RecTree :=
  let T := T.logCall c
  let pageNum := addr2PageNum c.dest
  match T.findNode pageNum with
  | some nodePtr => writeRec L c pageNum nodePtr T
  | none => (addTreeNode L openFileArray pageNum T).bind fun r => writeRec L c pageNum r.1 r.2

end RecTree

end Cidl
