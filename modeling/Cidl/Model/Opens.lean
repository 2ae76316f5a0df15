import Cidl.Model.Api

/-!
# The other ways to open a file

`ts_openat` and `ts_fopen` open a file like `ts_open`, but do not treat its path
alike.  `ts_openat` stores the string that its caller has passed, instead of one
from `realpath`.  `ts_fopen` leaves before it stores the path when the file is
empty; and when `realpath` fails, it asks `fstat` about descriptor 0 and stores
the null pointer there.

With them the interface of the library is complete (`ApiCall`).
-/

namespace Cidl

open SearchTree

/-- What the system answers to `ts_openat`, and the string that its caller has
passed: the descriptor, the file behind it, and whether `fstat` succeeds.  `heap`
says whether `free` may be called with the string: it comes from `malloc`, and the
caller does not free it later. -/
structure OpenatAnswer where
  fd : ℤ
  file : FileId
  path : ℕ
  str : List Char
  heap : Bool
  statOk : Bool

/-- What the system answers to `ts_fopen`: the descriptor and the file of the
stream, the result of `realpath`, and the size that `fstat` reports. -/
structure FopenAnswer where
  stream : Option (ℤ × FileId)
  abpath : Option (ℕ × List Char)
  size : Option ℤ

namespace FileMaps

variable (M : FileMaps)

/-- `STOREPATH`. -/
def storePath (fd : ℤ) (path : ℕ) : FileMaps :=
  { M with fd2Path := Function.update M.fd2Path (fd.tmod fileMapTreeNodePoolSize) path }

/-- `realpath`, with the null pointer for a failure.  As in `tsOpen`, it never
returns the null pointer as an address nor one that is in use. -/
def realpath (file : FileId) : Option (ℕ × List Char) → Option (ℕ × FileMaps)
  | none => some (0, M)
  | some (path, str) =>
    if path = 0 ∨ M.pathLive path ∨ M.callerLive path then none
    else some (path, { M with
      pathStr := Function.update M.pathStr path str
      pathLive := Function.update M.pathLive path true
      pathFile := Function.update M.pathFile path (some file) })

/-- `ts_openat`.  The string of the caller is not at an address that `realpath`
has handed out. -/
def tsOpenat (a : OpenatAnswer) : Option FileMaps :=
  if a.fd = -1 then some M
  else
    let M := { M with fdFile := Function.update M.fdFile a.fd (some a.file) }
    if a.path = 0 then if a.statOk then some M else none
    else if M.pathLive a.path ∨ a.statOk = false then none
    else some { M.storePath a.fd a.path with
      pathStr := Function.update M.pathStr a.path a.str
      callerLive := Function.update M.callerLive a.path a.heap }

/-- `ts_fopen`. -/
def tsFopen (a : FopenAnswer) : Option FileMaps :=
  match a.stream with
  | none => some M
  | some (fileno, file) => do
    let M := { M with fdFile := Function.update M.fdFile fileno (some file) }
    let (abpath, M) ← M.realpath file a.abpath
    -- `fd` is still 0 when `realpath` has failed
    let fd := if abpath = 0 then 0 else fileno
    let size ← a.size
    some (if size ≤ 0 then M else M.storePath fd abpath)

end FileMaps

/-- `ts_isMemTraced`. -/
def RecTree.isMemTraced (T : RecTree) (ptr : ℕ) : Bool := (T.findNode (addr2PageNum ptr)).isSome

/-- The calls of the library, with all ways to open a file. -/
inductive ApiCall
  | call (c : Call)
  /-- `ts_openat`. -/
  | openat (answer : OpenatAnswer)
  /-- `ts_fopen`. -/
  | fopen (answer : FopenAnswer)

/-- One call of the library. -/
def apiStep (E : Env) : ApiCall → State → Option State
  | .call c, s => step E c s
  | .openat a, s => (s.maps.tsOpenat a).map fun M => { s with maps := M }
  | .fopen a, s => (s.maps.tsFopen a).map fun M => { s with maps := M }

/-- A run of calls that `Call` covers is a run of the whole interface. -/
theorem runAll_apiStep_call (E : Env) (cs : List Call) (s : State) :
    runAll (apiStep E) (cs.map .call) s = runAll (step E) cs s := by
  induction cs generalizing s with
  | nil => rfl
  | cons c cs ih =>
    rw [List.map_cons, runAll_cons, runAll_cons]
    exact Option.bind_congr fun t _ => ih t

end Cidl
