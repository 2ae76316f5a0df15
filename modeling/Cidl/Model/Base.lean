import Cidl.Lib.Intervals
import Cidl.Model.Write

/-!
# The baseline build

With `BASE_VERSION` the library keeps one tree of records, each of them a range
of memory, ordered by where the range begins.  The tree is searched with three
comparators: `recCompare`, its own, and `overlapRec` and `overlapRecBegBigger`,
which compare ranges.

The cells of `struct memRec` that the tree points to are not written while they
are in the tree, so a tree of records stands for the tree of pointers.
`insertRec` asserts `assertRec` of a record before it calls `tsearch`, and no
other function adds to the tree: a `TreeRec` is a record with that proof.

Every record is allocated for itself, and so is every search key of `deleteRec`
and `ts_memcpy_traced`.  The operations are those on a `Heap`, the tree with a
ledger; what they do to the tree alone is read off from them.

An operation is `none` when an assertion ends the program or its fuel, the
number of rounds of its loops, runs out; the scan of a write says which.
-/

namespace Cidl.Base

open SearchTree

/-! ## Records -/

/-- `struct memRec`. -/
structure MemRec where
  fileOffset : ℕ
  fileName : ℕ
  startMemory : ℕ
  tailMemory : ℕ
  deriving DecidableEq

/-- The address that the assertions compare with. -/
abbrev addrLimit : ℕ := 343596402010

/-- The assertions on the two ends of a range. -/
def assertRange (startMemory tailMemory : ℕ) : Prop :=
  startMemory < tailMemory ∧ addrLimit < startMemory ∧ addrLimit < tailMemory

instance (s t : ℕ) : Decidable (assertRange s t) := inferInstanceAs (Decidable (_ ∧ _))

/-- `assertRec`. -/
def assertRec (rec : MemRec) : Prop :=
  assertRange rec.startMemory rec.tailMemory ∧ rec.fileOffset < 100000000000002 ∧ rec.fileName ≠ 0

instance (rec : MemRec) : Decidable (assertRec rec) := inferInstanceAs (Decidable (_ ∧ _))

/-- A record that has passed `assertRec`, with its ends in machine words. -/
structure TreeRec extends MemRec where
  accepted : assertRec toMemRec
  fits : tailMemory < wordSize
  deriving DecidableEq

/-! ## The comparators -/

/-- `recCompare`. -/
def recCompare (startMemory : ℕ) (b : TreeRec) : Ordering :=
  if startMemory < b.startMemory then .lt
  else if b.startMemory < startMemory then .gt
  else .eq

/-- `overlapRecBegBigger`. -/
def overlapRecBegBigger (startMemory tailMemory : ℕ) (b : TreeRec) : Ordering :=
  if b.startMemory < startMemory then .gt
  else if startMemory < b.startMemory ∧ tailMemory < b.startMemory then .lt
  else .eq

/-- `overlapRec`. -/
def overlapRec (startMemory tailMemory : ℕ) (b : TreeRec) : Ordering :=
  if b.startMemory < startMemory ∧ b.tailMemory ≤ startMemory then .gt
  else if startMemory < b.startMemory ∧ tailMemory ≤ b.startMemory then .lt
  else .eq

/-! ## The heap -/

/-- A call of `deleteRec`: the tree it finds and the range it clears. -/
structure Deletion where
  recTreeRoot : BinaryTree TreeRec
  startMemory : ℕ
  tailMemory : ℕ

/-- The record tree with a ledger: how many objects have been allocated and
withdrawn, the calls of `deleteRec`, and the records that copies have made. -/
structure Heap where
  recTreeRoot : BinaryTree TreeRec
  allocated : ℕ
  withdrawn : ℕ
  deletions : List Deletion
  created : List MemRec

namespace Heap

/-- A tree with nothing in the ledger. -/
def start (recTreeRoot : BinaryTree TreeRec) : Heap where
  recTreeRoot := recTreeRoot
  allocated := 0
  withdrawn := 0
  deletions := []
  created := []

/-- The library after `init`. -/
def init : Heap := start .nil

/-- `allocateMemRecArr`. -/
def allocateMemRecArr (H : Heap) : Heap := { H with allocated := H.allocated + 1 }

/-- `withdrawMemRecArr`. -/
def withdrawMemRecArr (H : Heap) : Heap := { H with withdrawn := H.withdrawn + 1 }

variable (L : TreeLib TreeRec)

/-- `deleteRec`.  Its search key is an object of its own.  What is found is
deleted from the tree, and nothing else is done with it. -/
def deleteRec (fuel dest length : ℕ) (H : Heap) : Option Heap :=
  let H := H.allocateMemRecArr
  if assertRange dest (wadd dest length) then
    (evict L (overlapRec dest (wadd dest length)) fuel H.recTreeRoot).map fun recTreeRoot =>
      withdrawMemRecArr { H with
        recTreeRoot := recTreeRoot
        deletions := H.deletions ++ [⟨H.recTreeRoot, dest, wadd dest length⟩] }
  else none

/-- `insertRec`.  Its second argument is not read. -/
def insertRec (fuel fileOffset dest fileName length : ℕ) (H : Heap) : Option Heap :=
  let H := H.allocateMemRecArr
  (deleteRec L fuel dest length H).bind fun H =>
    if h : assertRec ⟨fileOffset, fileName, dest, wadd dest length⟩ then
      let recTreeRoot := L.tsearch (recCompare dest) ⟨_, h, wadd_lt dest length⟩ H.recTreeRoot
      some { H with recTreeRoot := recTreeRoot }
    else none

/-- The loop of `ts_memcpy_traced`.  Every deletion inside it may take `inner` rounds. -/
def moveRecs (inner dest src n : ℕ) : ℕ → Heap → Option Heap
  | 0, _ => none
  | fuel + 1, H =>
    match tfind (overlapRecBegBigger src (wadd src n)) H.recTreeRoot with
    | none => some H
    | some b =>
      let insertDest := wadd dest (wsub b.startMemory src)
      let copyLen := wsub (min b.tailMemory (wadd src n)) src
      let recTreeRoot := L.tdelete (overlapRecBegBigger src (wadd src n)) H.recTreeRoot
      let created := ⟨b.fileOffset, b.fileName, insertDest, wadd insertDest copyLen⟩
      let H := { H with recTreeRoot := recTreeRoot, created := H.created ++ [created] }
      (insertRec L inner b.fileOffset insertDest b.fileName copyLen H).bind fun H =>
        moveRecs inner dest src n fuel H.withdrawMemRecArr

/-- `ts_memcpy_traced`.  Its search key is withdrawn at the end. -/
def tsMemcpyTraced (fuel dest src n : ℕ) (H : Heap) : Option Heap :=
  (moveRecs L fuel dest src n fuel H.allocateMemRecArr).map withdrawMemRecArr

end Heap

/-! ## The tree alone -/

section

variable (L : TreeLib TreeRec)

/-- What `deleteRec` leaves of the tree. -/
def deleteRec (fuel : ℕ) (recTreeRoot : BinaryTree TreeRec) (dest length : ℕ) :
    Option (BinaryTree TreeRec) :=
  (Heap.deleteRec L fuel dest length (.start recTreeRoot)).map Heap.recTreeRoot

/-- The tree that `insertRec` leaves. -/
def insertRec (fuel : ℕ) (recTreeRoot : BinaryTree TreeRec) (fileOffset dest fileName length : ℕ) :
    Option (BinaryTree TreeRec) :=
  (Heap.insertRec L fuel fileOffset dest fileName length (.start recTreeRoot)).map Heap.recTreeRoot

/-- What a call of `insertRec` is given. -/
structure InsertCall where
  fileOffset : ℕ
  dest : ℕ
  fileName : ℕ
  length : ℕ

/-- One call of a run of insertions. -/
def InsertCall.perform (fuel : ℕ) (c : InsertCall) (recTreeRoot : BinaryTree TreeRec) :
    Option (BinaryTree TreeRec) :=
  insertRec L fuel recTreeRoot c.fileOffset c.dest c.fileName c.length

/-- The tree that the loop of `ts_memcpy_traced` leaves, and the records it has
created. -/
def moveRecs (inner dest src n fuel : ℕ) (recTreeRoot : BinaryTree TreeRec) :
    Option (BinaryTree TreeRec × List MemRec) :=
  (Heap.moveRecs L inner dest src n fuel (.start recTreeRoot)).map
    fun H => (H.recTreeRoot, H.created)

/-- The tree that `ts_memcpy_traced` leaves, and the records it has created. -/
def tsMemcpyTraced (fuel : ℕ) (recTreeRoot : BinaryTree TreeRec) (dest src n : ℕ) :
    Option (BinaryTree TreeRec × List MemRec) :=
  (Heap.tsMemcpyTraced L fuel dest src n (.start recTreeRoot)).map
    fun H => (H.recTreeRoot, H.created)

end

/-! ## What happens to the tree does not depend on the ledger -/

section

variable {L : TreeLib TreeRec} {fuel inner dest src n length fileOffset fileName : ℕ}
  {t : BinaryTree TreeRec} {H : Heap}

theorem deleteRec_eq : deleteRec L fuel t dest length =
    if assertRange dest (wadd dest length) then
      evict L (overlapRec dest (wadd dest length)) fuel t
    else none := by
  rw [deleteRec, Heap.deleteRec]
  split
  · rw [Option.map_map]
    exact congrFun Option.map_id _
  · rfl

/-- `deleteRec` allocates its key and withdraws it. -/
theorem Heap.deleteRec_eq : Heap.deleteRec L fuel dest length H =
    (Base.deleteRec L fuel H.recTreeRoot dest length).map fun t =>
      { H with
        recTreeRoot := t
        allocated := H.allocated + 1
        withdrawn := H.withdrawn + 1
        deletions := H.deletions ++ [⟨H.recTreeRoot, dest, wadd dest length⟩] } := by
  rw [Base.deleteRec_eq, Heap.deleteRec]
  split <;> rfl

theorem insertRec_eq : insertRec L fuel t fileOffset dest fileName length =
    (deleteRec L fuel t dest length).bind fun t =>
      if h : assertRec ⟨fileOffset, fileName, dest, wadd dest length⟩ then
        some (L.tsearch (recCompare dest) ⟨_, h, wadd_lt dest length⟩ t)
      else none := by
  rw [insertRec, Heap.insertRec, Heap.deleteRec_eq, Option.bind_map, Option.map_bind]
  refine Option.bind_congr fun t _ => ?_
  simp only [Function.comp_apply]
  split <;> rfl

/-- `insertRec` allocates two objects and withdraws one. -/
theorem Heap.insertRec_eq : Heap.insertRec L fuel fileOffset dest fileName length H =
    (Base.insertRec L fuel H.recTreeRoot fileOffset dest fileName length).map fun t =>
      { H with
        recTreeRoot := t
        allocated := H.allocated + 2
        withdrawn := H.withdrawn + 1
        deletions := H.deletions ++ [⟨H.recTreeRoot, dest, wadd dest length⟩] } := by
  rw [Heap.insertRec, Base.insertRec_eq, Heap.deleteRec_eq, Option.bind_map, Option.map_bind]
  refine Option.bind_congr fun t _ => ?_
  simp only [Function.comp_apply]
  split <;> rfl

/-- The loop adds the records it creates to those of the ledger. -/
theorem Heap.moveRecs_eq : (Heap.moveRecs L inner dest src n fuel H).map
    (fun H' => (H'.recTreeRoot, H'.created)) =
      (Base.moveRecs L inner dest src n fuel H.recTreeRoot).map
        fun r => (r.1, H.created ++ r.2) := by
  rw [Base.moveRecs, Option.map_map]
  have hledger : ∀ (fuel : ℕ) (H H₀ : Heap), H.recTreeRoot = H₀.recTreeRoot →
      ∀ pre, H.created = pre ++ H₀.created →
        (Heap.moveRecs L inner dest src n fuel H).map (fun H' => (H'.recTreeRoot, H'.created)) =
          (Heap.moveRecs L inner dest src n fuel H₀).map
            fun H' => (H'.recTreeRoot, pre ++ H'.created) := by
    intro fuel
    induction fuel with
    | zero => exact fun _ _ _ _ _ => rfl
    | succ fuel ih =>
      intro H H₀ ht pre hpre
      rw [Heap.moveRecs, Heap.moveRecs, ht]
      cases tfind (overlapRecBegBigger src (wadd src n)) H₀.recTreeRoot with
      | none => exact congrArg some (Prod.ext ht hpre)
      | some b =>
        dsimp only
        rw [Heap.insertRec_eq, Heap.insertRec_eq, Option.bind_map, Option.bind_map,
          Option.map_bind, Option.map_bind]
        refine Option.bind_congr fun t _ => ?_
        have hcreated : ∀ l, H.created ++ l = pre ++ (H₀.created ++ l) := fun l => by
          rw [hpre, List.append_assoc]
        simp only [Function.comp_apply]
        refine ih _ _ ?_ pre ?_
        · rfl
        · exact hcreated _
  exact hledger fuel H (.start H.recTreeRoot) rfl H.created (List.append_nil _).symm

/-- One round of the loop. -/
theorem moveRecs_succ : moveRecs L inner dest src n (fuel + 1) t =
    match tfind (overlapRecBegBigger src (wadd src n)) t with
    | none => some (t, [])
    | some b =>
      let insertDest := wadd dest (wsub b.startMemory src)
      let copyLen := wsub (min b.tailMemory (wadd src n)) src
      (insertRec L inner (L.tdelete (overlapRecBegBigger src (wadd src n)) t) b.fileOffset
        insertDest b.fileName copyLen).bind fun t =>
          (moveRecs L inner dest src n fuel t).map fun r =>
            (r.1, ⟨b.fileOffset, b.fileName, insertDest, wadd insertDest copyLen⟩ :: r.2) := by
  rw [moveRecs, Heap.moveRecs, show (Heap.start t).recTreeRoot = t from rfl]
  cases tfind (overlapRecBegBigger src (wadd src n)) t with
  | none => rfl
  | some b =>
    dsimp only
    rw [Heap.insertRec_eq, Option.bind_map, Option.map_bind]
    refine Option.bind_congr fun t _ => ?_
    exact Heap.moveRecs_eq

theorem tsMemcpyTraced_eq : tsMemcpyTraced L fuel t dest src n =
    moveRecs L fuel dest src n fuel t := by
  rw [tsMemcpyTraced, Heap.tsMemcpyTraced, Option.map_map]
  refine (Heap.moveRecs_eq (H := (Heap.start t).allocateMemRecArr)).trans ?_
  exact congrFun Option.map_id _

end

/-! ## Writes -/

/-- `memcmp_bbb`, the same loop as the C version of `memcmp_avx2_asm`. -/
def memcmpBbb (mem : ℕ → UInt8) : ℕ → ℕ → ℕ → ℤ × Option ℕ := memcmpC mem

/-- One comparison: the record, how many bytes are compared, how many of them
are credited, and `*diffPos` afterwards. -/
structure Compared where
  mrp : TreeRec
  cmpLen : ℕ
  addLen : ℕ
  diffPos : ℕ
  deriving DecidableEq

/-- What a scan has done so far: `diffPos`, what it has added to the counters,
the records it has passed to `cmpWrite`, the comparisons made, and whether an
assertion has ended the program. -/
structure Scan where
  diffPos : ℕ
  sameSize : ℕ
  metadataItem : ℕ
  passed : List TreeRec
  compared : List Compared
  exited : Bool

/-- A scan before its first record. -/
def Scan.start : Scan where
  diffPos := 0
  sameSize := 0
  metadataItem := 0
  passed := []
  compared := []
  exited := false

section

variable (M : FileMaps) (mem : ℕ → UInt8)

/-- `cmpWrite`. -/
def cmpWrite (tail : ℕ) (mrp : TreeRec) (s : Scan) : Scan :=
  let s := { s with passed := s.passed ++ [mrp] }
  let bufCmpStart := mrp.startMemory
  match tfind (byKey M.nameKey mrp.fileName) M.fileMapNameTreeRoot with
  | none => s
  | some x =>
    let fmTarNode := M.fileMapTreeNodes x
    if fmTarNode.offset ≤ mrp.fileOffset then
      let fileCmpStart := wsub (wadd fmTarNode.start mrp.fileOffset) fmTarNode.offset
      let cmpLen := wsub tail bufCmpStart
      let cmpRet := memcmpBbb mem bufCmpStart fileCmpStart cmpLen
      let diffPos := if cmpRet.1 ≠ 0 then cmpRet.2.getD s.diffPos else tail
      let addLen := if cmpRet.1 ≠ 0 then wsub (min tail diffPos) bufCmpStart else cmpLen
      { s with
        diffPos := diffPos
        metadataItem := wadd s.metadataItem 1
        sameSize := wadd s.sameSize addLen
        compared := s.compared ++ [⟨mrp, cmpLen, addLen, diffPos⟩] }
    else s

/-- The loop of `do_ts_write`, which searches from `startMemory` on.  The record
that it asserts `assertRec` of is one of the tree. -/
def writeLoop (recTreeRoot : BinaryTree TreeRec) (tail : ℕ) : ℕ → ℕ → Scan → Option Scan
  | 0, _, _ => none
  | fuel + 1, startMemory, s =>
    match tfind (overlapRecBegBigger startMemory tail) recTreeRoot with
    | none => some s
    | some b =>
      let startMemory := wadd b.tailMemory 1
      let s := cmpWrite M mem tail b s
      if tail ≤ startMemory then some s
      else if assertRange startMemory tail then writeLoop recTreeRoot tail fuel startMemory s
      else some { s with exited := true }

/-- `do_ts_write`. -/
def doTsWrite (fuel : ℕ) (recTreeRoot : BinaryTree TreeRec) (buf length : ℕ) : Option Scan :=
  writeLoop M mem recTreeRoot (wadd buf length) fuel buf .start

end

end Cidl.Base
