import Cidl.Lib.SearchTree
import Cidl.Lib.SlabPool
import Cidl.Model.RecTree

/-!
# File mappings

`ts_mmap` registers a mapping in two trees, one ordered by its start address
and one by the address of its path string, and in a table by descriptor;
`ts_munmap` and `ts_close` take it out again.

What the system answers is an argument of each operation: the descriptor and
the string that `open` and `realpath` return, the address that `mmap` returns,
the results of `close` and `lseek`.  An operation is `none` when the program
ends in it: a failed assertion, a call of `exit`, a null pointer that is read, a
second `free` of one string.

Besides the program's own data the state keeps what the statements about it
need: the file behind a descriptor, the file a mapping shows, and the file whose
path `realpath` last put at an address.
-/

namespace Cidl

open SearchTree

/-- `FILEMAPTREENODEPOOLSIZE`. -/
abbrev fileMapTreeNodePoolSize : ℕ := 2048

/-- `MAP_FAILED`. -/
abbrev mapFailed : ℕ := wordSize - 1

/-- `MAP_ANONYMOUS`. -/
abbrev mapAnonymous : ℕ := 0x20

/-- `struct fileMapTreeNode`. -/
structure FileMapTreeNode where
  start : ℕ
  tail : ℕ
  usedTime : ℤ
  fileName : ℕ
  offset : ℕ
  fd : ℤ
  /-- The file that the mapping shows; not in the C structure. -/
  file : Option FileId
  deriving Inhabited

/-- The mappings, the table of open files and the path strings. -/
structure FileMaps where
  fileMapTreeNodes : ℕ → FileMapTreeNode
  fileMapTreeNodePool : Pool
  fileMapTreeRoot : BinaryTree ℕ
  fileMapNameTreeRoot : BinaryTree ℕ
  openFileArray : ℤ → Option ℕ
  /-- `FD2PATH`, with 0 for the null pointer. -/
  fd2Path : ℤ → ℕ
  /-- The characters at the address of a path string. -/
  pathStr : ℕ → List Char
  /-- Whether `realpath` has handed the address out and nobody has freed it. -/
  pathLive : ℕ → Bool
  /-- Whether a caller of `ts_openat` has allocated the string at the address with
  `malloc`, and nobody has freed it. -/
  callerLive : ℕ → Bool
  /-- The file whose path `realpath` last stored at the address. -/
  pathFile : ℕ → Option FileId
  /-- The file behind an open descriptor. -/
  fdFile : ℤ → Option FileId

/-- What the system answers to `ts_open`: the descriptor, the file behind it,
the result of `realpath`, and whether `fstat` succeeds. -/
structure OpenAnswer where
  fd : ℤ
  file : FileId
  abpath : Option (ℕ × List Char)
  statOk : Bool

namespace FileMaps

variable (M : FileMaps)

/-- `GETPATH`. -/
def getPath (fd : ℤ) : ℕ := M.fd2Path (fd.tmod fileMapTreeNodePoolSize)

/-- The key of `fileMapTreeInsDelCompare`. -/
abbrev startKey (x : ℕ) : ℕ := (M.fileMapTreeNodes x).start

/-- The key of `fileMapNameTreeInsDelCompare`. -/
abbrev nameKey (x : ℕ) : ℕ := (M.fileMapTreeNodes x).fileName

/-- `fileMapTreeSearchCompare` of the range from `start` to `tail` with a node. -/
def searchCompare (start tail x : ℕ) : Ordering :=
  let b := M.fileMapTreeNodes x
  if b.start < start ∧ b.tail < start then .gt
  else if start < b.start ∧ tail < b.start then .lt
  else .eq

/-- `allocateFileMapTreeNode`. -/
def allocateFileMapTreeNode : Option (ℕ × FileMaps) :=
  M.fileMapTreeNodePool.pop.map fun r => (r.1, { M with fileMapTreeNodePool := r.2 })

/-- `withdrawFileMapTreeNode`. -/
def withdrawFileMapTreeNode (x : ℕ) : Option FileMaps :=
  (M.fileMapTreeNodePool.push x).map fun q => { M with fileMapTreeNodePool := q }

/-- Write a mapping node. -/
def setMapNode (x : ℕ) (m : FileMapTreeNode) : FileMaps :=
  { M with fileMapTreeNodes := Function.update M.fileMapTreeNodes x m }

/-- `openFileArray[fd % MAX_FILE_NUM] = ...`. -/
def setOpenFile (fd : ℤ) (x : Option ℕ) : FileMaps :=
  { M with openFileArray := Function.update M.openFileArray (fd.tmod maxFileNum) x }

/-- The test `strncmp("./pmem/DR-", path, 10)` of `ts_mmap` on a path string. -/
def isMktmp (path : ℕ) : Bool :=
  ['.', '/', 'p', 'm', 'e', 'm', '/', 'D', 'R', '-'].isPrefixOf (M.pathStr path)

/-- `free` of a path string.  The characters stay where they are. -/
def freePath (path : ℕ) : Option FileMaps :=
  if M.pathLive path then some { M with pathLive := Function.update M.pathLive path false }
  else if M.callerLive path then
    some { M with callerLive := Function.update M.callerLive path false }
  else none

theorem freePath_cases {M M' : FileMaps} {path : ℕ} (h : M.freePath path = some M') :
    (M.pathLive path = true ∧
      M' = { M with pathLive := Function.update M.pathLive path false }) ∨
    (M.pathLive path = false ∧
      M' = { M with callerLive := Function.update M.callerLive path false }) := by
  unfold freePath at h
  split at h
  · rename_i hlive
    exact Or.inl ⟨hlive, (Option.some.inj h).symm⟩
  · rename_i hlive
    split at h
    · exact Or.inr ⟨Bool.eq_false_iff.2 hlive, (Option.some.inj h).symm⟩
    · cases h

theorem freePath_eq_some {M M' : FileMaps} {path : ℕ} (h : M.freePath path = some M') :
    ∃ live caller, M' = { M with pathLive := live, callerLive := caller } := by
  rcases freePath_cases h with ⟨-, rfl⟩ | ⟨-, rfl⟩ <;> exact ⟨_, _, rfl⟩

/-- `ts_open`.  `realpath` never returns the null pointer as an address nor one
that is in use. -/
def tsOpen (a : OpenAnswer) : Option FileMaps :=
  if a.fd = -1 then some M
  else
    let M := { M with fdFile := Function.update M.fdFile a.fd (some a.file) }
    match a.abpath with
    | none => if a.statOk then some M else none
    | some (path, str) =>
      if path = 0 ∨ M.pathLive path ∨ M.callerLive path ∨ a.statOk = false then none
      else some { M with
        fd2Path := Function.update M.fd2Path (a.fd.tmod fileMapTreeNodePoolSize) path
        pathStr := Function.update M.pathStr path str
        pathLive := Function.update M.pathLive path true
        pathFile := Function.update M.pathFile path (some a.file) }

/-- The node that `ts_mmap` fills in. -/
def mapNode (ret len : ℕ) (file : ℤ) (off : ℕ) : FileMapTreeNode where
  start := ret
  tail := wadd ret len
  usedTime := 0
  fileName := M.getPath file
  offset := off
  fd := file
  file := if ret = mapFailed then none else M.fdFile file

/-- The part of `ts_mmap` that registers a mapping. -/
def register (L : Libc) (ret len : ℕ) (file : ℤ) (off : ℕ) : Option FileMaps := do
  let (treeNode, M) ← M.allocateFileMapTreeNode
  let M := M.setMapNode treeNode (M.mapNode ret len file off)
  let M := M.setOpenFile file (some treeNode)
  some { M with
    fileMapTreeRoot :=
      L.search.tsearch (byKey M.startKey (M.startKey treeNode)) treeNode M.fileMapTreeRoot
    fileMapNameTreeRoot :=
      L.search.tsearch (byKey M.nameKey (M.nameKey treeNode)) treeNode M.fileMapNameTreeRoot }

/-- `ts_mmap` when `mmap` has returned `ret`. -/
def tsMmap (L : Libc) (ret len prot : ℕ) (file : ℤ) (off : ℕ) : Option FileMaps :=
  if prot &&& mapAnonymous = 0 ∧ -1 < file then
    if M.getPath file = 0 then none
    else if M.isMktmp (M.getPath file) then some M
    else M.register L ret len file off
  else some M

/-- `ts_munmap` of the mapping at `addr`.  The comparator of both deletions is
the one of the first tree. -/
def tsMunmap (L : Libc) (addr : ℕ) : Option FileMaps :=
  match tfind (byKey M.startKey addr) M.fileMapTreeRoot with
  | none => some M
  | some freep => do
    let M := M.setOpenFile (M.fileMapTreeNodes freep).fd none
    let M := { M with
      fileMapTreeRoot := L.search.tdelete (byKey M.startKey addr) M.fileMapTreeRoot
      fileMapNameTreeRoot := L.search.tdelete (byKey M.startKey addr) M.fileMapNameTreeRoot }
    let M ← M.freePath (M.fileMapTreeNodes freep).fileName
    M.withdrawFileMapTreeNode freep

/-- `ts_close` when `close` has returned `result`.  The comparator of the search
and of both deletions is the one of the second tree. -/
def tsClose (L : Libc) (result fd : ℤ) : Option FileMaps :=
  if result = -1 then some M
  else
    let M := { M with fdFile := Function.update M.fdFile fd none }
    let abpath := M.getPath fd
    if abpath = 0 then some M
    else
      match tfind (byKey M.nameKey abpath) M.fileMapTreeRoot with
      | none => some M
      | some freep =>
        let M := M.setOpenFile (M.fileMapTreeNodes freep).fd none
        let M := { M with
          fileMapTreeRoot := L.search.tdelete (byKey M.nameKey abpath) M.fileMapTreeRoot
          fileMapNameTreeRoot := L.search.tdelete (byKey M.nameKey abpath) M.fileMapNameTreeRoot }
        M.withdrawFileMapTreeNode freep

/-- The call of `insertRec` for bytes that are copied from `src` in a mapping. -/
def recordCall (x dest src : ℕ) : InsertCall :=
  let fmNode := M.fileMapTreeNodes x
  { fileOffset := wadd fmNode.offset (wsub src fmNode.start)
    src := src
    dest := dest
    fileName := fmNode.fileName
    fd := toShort fmNode.fd
    origin := fmNode.file }

/-- `fmNode->usedTime++`. -/
def countUse (x : ℕ) : FileMaps :=
  M.setMapNode x { M.fileMapTreeNodes x with usedTime := (M.fileMapTreeNodes x).usedTime + 1 }

/-- The lookup of the source in `ts_memcpy`. -/
def findSource (src n : ℕ) : Option ℕ :=
  tfind (M.searchCompare src (wadd src n)) M.fileMapTreeRoot

/-- The lookup by path of `ts_read`, which borrows a node of the pool as its
search key. -/
def findByFd (fd : ℤ) : Option (ℕ × FileMaps) := do
  let (treeNode, M) ← M.allocateFileMapTreeNode
  let M := M.setMapNode treeNode { M.fileMapTreeNodes treeNode with fileName := M.getPath fd }
  let found := tfind (byKey M.nameKey (M.nameKey treeNode)) M.fileMapNameTreeRoot
  let M ← M.withdrawFileMapTreeNode treeNode
  let node ← found
  some (node, M)

/-- The mappings at the beginning, over objects with any contents. -/
def init (fileMapSlabs : Slabs 1 fileMapTreeNodePoolSize) (fileMapTreeNodes : ℕ → FileMapTreeNode) :
    FileMaps where
  fileMapTreeNodes := fileMapTreeNodes
  fileMapTreeNodePool := .start fileMapSlabs
  fileMapTreeRoot := .nil
  fileMapNameTreeRoot := .nil
  openFileArray := fun _ => none
  fd2Path := fun _ => 0
  pathStr := fun _ => []
  pathLive := fun _ => false
  callerLive := fun _ => false
  pathFile := fun _ => none
  fdFile := fun _ => none

end FileMaps

end Cidl
