import Cidl.Model.Transfer
import Cidl.Model.Write

/-!
# The library as a state machine

`State` is everything the library keeps, with the memory of the host program.
`Call` is one call of the library, together with what the system answers to it,
or a store of the host program between two calls.  `step` performs a call.

`stepWith` is `step` with the function that inserts a record as a parameter.
-/

namespace Cidl

open SearchTree

/-- The state of the library and the memory of its host. -/
structure State where
  tree : RecTree
  maps : FileMaps
  stats : WriteStats
  mem : ℕ → UInt8

/-- The calls of the library. -/
inductive Call
  /-- `ts_open`. -/
  | open (answer : OpenAnswer)
  /-- `ts_close(fd)`, with the result of `close`. -/
  | close (result fd : ℤ)
  /-- `ts_mmap`, with the result of `mmap`. -/
  | mmap (ret len prot : ℕ) (file : ℤ) (off : ℕ)
  /-- `ts_munmap`. -/
  | munmap (addr : ℕ)
  /-- `ts_memcpy`. -/
  | memcpy (dest src n : ℕ)
  /-- `ts_memcpy_traced`. -/
  | memcpyTraced (dest src n : ℕ)
  /-- `ts_realloc(ptr, size, tail)`, with the result of `realloc`. -/
  | realloc (ret ptr tail : ℕ)
  /-- `ts_read(fd, buf, nbytes)` at the file position `pos`. -/
  | read (fd : ℤ) (buf nbytes pos : ℕ)
  /-- `ts_write` and `ts_pwrite`. -/
  | write (buf length : ℕ)
  /-- `ts_fwrite`. -/
  | fwrite (buf size n : ℕ)
  /-- The host program stores a byte. -/
  | store (addr : ℕ) (b : UInt8)

/-- `memcpy`. -/
def copyBytes (dest src n : ℕ) (mem : ℕ → UInt8) : ℕ → UInt8 := fun a =>
  if dest ≤ a ∧ a < dest + n then mem (src + (a - dest)) else mem a

/-- What the environment of a run decides once and for all: the C library, the
comparison routine, and a bound for the loops over the blocks of a page. -/
structure Env where
  libc : Libc
  fileMapSlabs : Slabs 1 fileMapTreeNodePoolSize
  cmp : Comparator
  fuel : ℕ

/-- A function that inserts a record, given the table of open files. -/
abbrev Insert := (ℤ → Option ℕ) → InsertCall → RecTree → Option RecTree

section

variable (E : Env) (insert : Insert)

/-- `ts_memcpy_withFile`, and the part of `ts_memcpy` after its lookup. -/
def copyRecorded (dest src n : ℕ) (fmNode : Option ℕ) (s : State) : Option State :=
  let s := { s with mem := copyBytes dest src n s.mem }
  match fmNode with
  | none => some s
  | some x => (insert s.maps.openFileArray (s.maps.recordCall x dest src) s.tree).map fun T =>
      { s with tree := T, maps := s.maps.countUse x }

/-- `ts_read`.  The length is what the mapping holds from the position on, as
an unsigned difference. -/
def tsRead (fd : ℤ) (buf nbytes pos : ℕ) (s : State) : Option State := do
  let (x, maps) ← s.maps.findByFd fd
  let node := maps.fileMapTreeNodes x
  let copyBegin := wadd node.start (wsub pos node.offset)
  let copyLen := min (wsub node.tail copyBegin) nbytes
  copyRecorded insert buf copyBegin copyLen (maps.openFileArray (fd.tmod maxFileNum))
    { s with maps := maps }

/-- One call of the library. -/
def stepWith : Call → State → Option State
  | .open a, s => (s.maps.tsOpen a).map fun M => { s with maps := M }
  | .close result fd, s => (s.maps.tsClose E.libc result fd).map fun M => { s with maps := M }
  | .mmap ret len prot file off, s =>
    (s.maps.tsMmap E.libc ret len prot file off).map fun M => { s with maps := M }
  | .munmap addr, s => (s.maps.tsMunmap E.libc addr).map fun M => { s with maps := M }
  | .memcpy dest src n, s => copyRecorded insert dest src n (s.maps.findSource src n) s
  | .memcpyTraced dest src n, s =>
    (s.tree.tsMemcpyTraced E.libc (insert s.maps.openFileArray) E.fuel dest src n).map fun T =>
      { s with tree := T, mem := copyBytes dest src n s.mem }
  | .realloc ret ptr tail, s =>
    (s.tree.tsRealloc E.libc (insert s.maps.openFileArray) E.fuel ret ptr tail).map fun T =>
      { s with tree := T }
  | .read fd buf nbytes pos, s => tsRead insert fd buf nbytes pos s
  | .write buf length, s =>
    some { s with stats := s.stats.add length (doTsWrite E.cmp s.maps s.mem s.tree buf length) }
  | .fwrite buf size n, s =>
    let length := size * n % wordSize
    some { s with stats := s.stats.add length (fwriteScan E.cmp s.maps s.mem s.tree buf length) }
  | .store addr b, s => some { s with mem := Function.update s.mem addr b }

end

/-- One call of the library, with the library's own `insertRec`. -/
def step (E : Env) : Call → State → Option State := stepWith E (RecTree.insertRec E.libc)

/-- The state that `init` leaves, over memory with any contents.  A slot that
was never written has no origin. -/
def initState (E : Env) (recMem : ℤ → MemRec) (recBlockEntries : ℕ → RecBlockEntry)
    (recTreeNodes : ℕ → RecTreeNode) (fileMapTreeNodes : ℕ → FileMapTreeNode)
    (mem : ℕ → UInt8) : State where
  tree := .initMemory E.libc (fun a => { recMem a with origin := none }) recBlockEntries
    recTreeNodes
  maps := .init E.fileMapSlabs fileMapTreeNodes
  stats := ⟨0, 0, 0, 0⟩
  mem := mem

/-- The states of runs from `init`. -/
def Reachable (E : Env) (s : State) : Prop :=
  ∃ recMem recBlockEntries recTreeNodes fileMapTreeNodes mem cs,
    runAll (step E) cs (initState E recMem recBlockEntries recTreeNodes fileMapTreeNodes mem) =
      some s

/-! ## A concrete environment -/

/-- Trees that are not rebalanced, slabs one behind the other, a walk that reaches
every node, and cells that keep their keys. -/
def plainLibc : Libc where
  search := unbalanced
  twalk _ t := inorder t
  nodeSlabs := .contiguous 1 8000 (by decide) (by decide)
  headSlabs := .contiguous 1 8000 (by decide) (by decide)
  entrySlabs := .contiguous 1 6000 (by decide) (by decide)
  arrSlabs := .contiguous memRecPerEntry 6000 (by decide) (by decide)
  cell _ node _ := node

/-- An environment to run the model in. -/
def plainEnv : Env where
  libc := plainLibc
  fileMapSlabs := .contiguous 1 fileMapTreeNodePoolSize (by decide) (by decide)
  cmp := byteComparator
  fuel := 64

/-- The state after `init` over zeroed memory. -/
def plainInit : State :=
  initState plainEnv (fun _ => default) (fun _ => default) (fun _ => default) (fun _ => default)
    (fun _ => 0)

/-- A run of the library from there. -/
def plainRun (cs : List Call) : Option State := runAll (step plainEnv) cs plainInit

theorem reachable_plainRun {cs : List Call} {s : State} (h : plainRun cs = some s) :
    Reachable plainEnv s := ⟨_, _, _, _, _, cs, h⟩

/-- The calls that open a file as `fd`, its path stored at `path`, and map `len`
bytes of it at `start`. -/
def openAndMap (fd : ℤ) (file path start len : ℕ) : List Call :=
  [.open ⟨fd, file, some (path, ['/']), true⟩, .mmap start len 1 fd 0]

end Cidl
