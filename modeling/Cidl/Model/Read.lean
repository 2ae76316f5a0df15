import Cidl.Model.Api

/-!
# What `ts_read` returns

`tsRead` with everything that the caller sees of it: the range that is copied,
the record that is inserted, the number that is returned and the position of the
file afterwards.

The mapping is found by the path of the descriptor, in a table of
`FILEMAPTREENODEPOOLSIZE` path strings, and the record is made from what the
table `openFileArray` of `MAX_FILE_NUM` mappings has for the descriptor.
-/

namespace Cidl

/-- A copy out of a mapping: where it begins, how long it is, and the call of
`insertRec` for it. -/
structure ReadCopy where
  copyBegin : ℕ
  copyLen : ℕ
  inserted : Option InsertCall

/-- The copy that `ts_read` makes when the file position is `pos`. -/
def FileMaps.readCopy (M : FileMaps) (fd : ℤ) (buf nbytes pos : ℕ) : Option ReadCopy := do
  let (x, M) ← M.findByFd fd
  let node := M.fileMapTreeNodes x
  let copyBegin := wadd node.start (wsub pos node.offset)
  let copyLen := min (wsub node.tail copyBegin) nbytes
  some
    { copyBegin := copyBegin
      copyLen := copyLen
      inserted := (M.openFileArray (fd.tmod maxFileNum)).map fun y =>
        M.recordCall y buf copyBegin }

/-- The number of file positions: those that an `off_t` holds. -/
abbrev offSize : ℕ := 9223372036854775808

/-- An `unsigned long` as an `off_t`. -/
def toOff (x : ℕ) : ℤ :=
  if x % wordSize < offSize then (x % wordSize : ℕ) else ((x % wordSize : ℕ) : ℤ) - wordSize

/-- `lseek(fd, n, SEEK_CUR)` at the position `pos`, unless it fails: the new
position is not negative and fits an `off_t`. -/
def lseekCur (pos : ℕ) (n : ℤ) : Option ℕ :=
  if 0 ≤ pos + n ∧ pos + n < offSize then some (pos + n).toNat else none

/-- A call of `ts_read` that has returned. -/
structure ReadResult extends ReadCopy where
  returned : ℕ
  position : ℕ

/-- `ts_read`.  It ends the program when the file is not mapped, and when one of
the calls of `lseek` fails. -/
def FileMaps.readResult (M : FileMaps) (fd : ℤ) (buf nbytes pos : ℕ) : Option ReadResult := do
  let copy ← M.readCopy fd buf nbytes pos
  let position ← lseekCur pos (toOff copy.copyLen)
  some { toReadCopy := copy, returned := copy.copyLen, position := position }

/-- `tsRead` copies that range and inserts that record. -/
theorem tsRead_eq_some {insert : Insert} {fd : ℤ} {buf nbytes pos : ℕ} {s s' : State}
    (h : tsRead insert fd buf nbytes pos s = some s') :
    ∃ copy, s.maps.readCopy fd buf nbytes pos = some copy ∧
      s'.mem = copyBytes buf copy.copyBegin copy.copyLen s.mem ∧
      ∀ c ∈ copy.inserted, ∃ ofa, insert ofa c s.tree = some s'.tree := by
  obtain ⟨⟨x, M⟩, hM, h⟩ := Option.bind_eq_some_iff.1 h
  refine ⟨_, by rw [FileMaps.readCopy, hM]; rfl, ?_⟩
  dsimp only at h ⊢
  cases hy : M.openFileArray (fd.tmod maxFileNum) with
  | none =>
    rw [hy] at h
    cases h
    exact ⟨rfl, fun c hc => absurd hc (by simp)⟩
  | some y =>
    rw [hy] at h
    obtain ⟨T, hT, rfl⟩ := Option.map_eq_some_iff.1 h
    refine ⟨rfl, fun c hc => ?_⟩
    cases hc
    exact ⟨_, hT⟩

end Cidl
