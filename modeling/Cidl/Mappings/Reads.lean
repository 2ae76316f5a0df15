import Cidl.Mappings.Nodes
import Cidl.Model.Read

/-!
# When `ts_read` reads the file it was asked for

Three things must fit together.  The mapping that is found by the path of the
descriptor has to show the file behind the descriptor; the position must not lie
behind the end of that mapping, since what is left of it is an unsigned
difference; and the table of open files, which is half as long as the table of
path strings, must have a mapping of the same file for the descriptor, with the
same distance between memory and file.  `readResult_exact_iff` shows that
nothing else is needed and nothing less is enough.
-/

namespace Cidl

open SearchTree

/-! ## What a read should do -/

/-- The call copies what the mapping of the descriptor's file has from the
position on, up to `nbytes` bytes; it returns their number, advances the
position by it, and inserts a record of this file and this position. -/
structure ReadsItsFile (M : FileMaps) (fd : ℤ) (buf nbytes pos : ℕ) (r : ReadResult) : Prop where
  copies : ∃ x M₁, M.findByFd fd = some (x, M₁) ∧
    (M₁.fileMapTreeNodes x).file = M.fdFile fd ∧
    r.copyLen = min nbytes ((M₁.fileMapTreeNodes x).offset +
      ((M₁.fileMapTreeNodes x).tail - (M₁.fileMapTreeNodes x).start) - pos) ∧
    (0 < r.copyLen → r.copyBegin =
      (M₁.fileMapTreeNodes x).start + (pos - (M₁.fileMapTreeNodes x).offset)) ∧
    ∀ a, r.copyBegin ≤ a → a < r.copyBegin + r.copyLen →
      (M₁.fileMapTreeNodes x).start ≤ a ∧ a < (M₁.fileMapTreeNodes x).tail
  returned : r.returned = r.copyLen
  position : r.position = pos + r.copyLen
  inserted : ∃ c, r.inserted = some c ∧ c.dest = buf ∧ c.fileOffset = pos ∧
    c.origin = M.fdFile fd ∧ M.pathFile c.fileName = M.fdFile fd

/-- The condition under which it does. -/
def ReadsWell (M : FileMaps) (fd : ℤ) (nbytes pos : ℕ) : Prop :=
  ∃ x M₁, M.findByFd fd = some (x, M₁) ∧
    (M₁.fileMapTreeNodes x).file = M.fdFile fd ∧
    (nbytes = 0 ∨ pos ≤ (M₁.fileMapTreeNodes x).offset +
      ((M₁.fileMapTreeNodes x).tail - (M₁.fileMapTreeNodes x).start)) ∧
    ∃ y, M.openFileArray (fd.tmod maxFileNum) = some y ∧
      (M₁.fileMapTreeNodes y).file = M.fdFile fd ∧
      M.pathFile (M₁.fileMapTreeNodes y).fileName = M.fdFile fd ∧
      wsub (M₁.fileMapTreeNodes x).start (M₁.fileMapTreeNodes x).offset =
        wsub (M₁.fileMapTreeNodes y).start (M₁.fileMapTreeNodes y).offset

instance (M : FileMaps) (fd : ℤ) (nbytes pos : ℕ) : Decidable (ReadsWell M fd nbytes pos) :=
  decidable_of_iff (∃ f ∈ M.findByFd fd, (f.2.fileMapTreeNodes f.1).file = M.fdFile fd ∧
      (nbytes = 0 ∨ pos ≤ (f.2.fileMapTreeNodes f.1).offset +
        ((f.2.fileMapTreeNodes f.1).tail - (f.2.fileMapTreeNodes f.1).start)) ∧
      ∃ y ∈ M.openFileArray (fd.tmod maxFileNum), (f.2.fileMapTreeNodes y).file = M.fdFile fd ∧
        M.pathFile (f.2.fileMapTreeNodes y).fileName = M.fdFile fd ∧
        wsub (f.2.fileMapTreeNodes f.1).start (f.2.fileMapTreeNodes f.1).offset =
          wsub (f.2.fileMapTreeNodes y).start (f.2.fileMapTreeNodes y).offset)
    ⟨fun ⟨(x, M₁), hx, h⟩ => ⟨x, M₁, hx, h⟩, fun ⟨x, M₁, hx, h⟩ => ⟨(x, M₁), hx, h⟩⟩

/-! ## The arithmetic -/

/-- The position that a record gets, for a source in a mapping at `xs` of the file
from `xo` on, reckoned by a mapping at `ys` from `yo` on. -/
theorem fileOffset_eq_iff {xs xo ys yo pos : ℕ} (hpos : pos < wordSize) :
    wadd yo (wsub (wadd xs (wsub pos xo)) ys) = pos ↔ wsub xs xo = wsub ys yo := by
  simp only [wadd, wsub, wordSize] at *
  omega

/-- What is left of a mapping from a position that it has. -/
theorem left_of_le {start tail offset pos : ℕ} (htail : tail < wordSize) (hrange : start ≤ tail)
    (hoff : offset ≤ pos) (hle : pos ≤ offset + (tail - start)) :
    wadd start (wsub pos offset) = start + (pos - offset) ∧
      wsub tail (wadd start (wsub pos offset)) = offset + (tail - start) - pos := by
  simp only [wadd, wsub, wordSize] at *
  omega

/-- Behind the end the difference wraps around. -/
theorem left_of_lt {start tail offset pos : ℕ} (htail : tail < wordSize) (hrange : start ≤ tail)
    (hoff : offset ≤ pos) (hpos : pos < offSize) (hlt : offset + (tail - start) < pos) :
    0 < wsub tail (wadd start (wsub pos offset)) := by
  simp only [wadd, wsub, wordSize, offSize] at *
  omega

theorem lseekCur_of_lt {pos n : ℕ} (h : pos + n < offSize) :
    lseekCur pos (toOff n) = some (pos + n) := by
  have hmod : n % wordSize = n := by
    simp only [offSize, wordSize] at *
    omega
  have hlt : n < offSize := by
    omega
  have hoff : toOff n = n := by
    rw [toOff, hmod, if_pos hlt]
  have hrange : 0 ≤ (pos : ℤ) + n ∧ (pos : ℤ) + n < offSize := by
    simp only [offSize] at *
    omega
  have hsum : ((pos : ℤ) + n).toNat = pos + n := by
    omega
  rw [lseekCur, hoff, if_pos hrange, hsum]

/-! ## One call -/

/-- A mapping that `mmap` has made: a range of addresses, of a part of a file that
an `off_t` can address. -/
structure MappedRange (m : FileMapTreeNode) : Prop where
  start_le : m.start ≤ m.tail
  tail_lt : m.tail < wordSize
  offset_lt : m.offset + (m.tail - m.start) < offSize

section

variable {M M₁ : FileMaps} {fd : ℤ} {buf nbytes pos x : ℕ}

theorem readCopy_of_found (buf nbytes pos : ℕ) (hx : M.findByFd fd = some (x, M₁)) :
    M.readCopy fd buf nbytes pos = some
      { copyBegin := wadd (M₁.fileMapTreeNodes x).start (wsub pos (M₁.fileMapTreeNodes x).offset)
        copyLen := min (wsub (M₁.fileMapTreeNodes x).tail (wadd (M₁.fileMapTreeNodes x).start
          (wsub pos (M₁.fileMapTreeNodes x).offset))) nbytes
        inserted := (M.openFileArray (fd.tmod maxFileNum)).map fun y => M₁.recordCall y buf
          (wadd (M₁.fileMapTreeNodes x).start (wsub pos (M₁.fileMapTreeNodes x).offset)) } := by
  obtain ⟨y, pool, -, -, -, heq⟩ := FileMaps.findByFd_eq_some hx
  have hopen : M₁.openFileArray = M.openFileArray := by rw [heq]
  rw [FileMaps.readCopy, hx, ← hopen]
  rfl

theorem readResult_of_copy {copy : ReadCopy} {position : ℕ}
    (hcopy : M.readCopy fd buf nbytes pos = some copy)
    (hseek : lseekCur pos (toOff copy.copyLen) = some position) :
    M.readResult fd buf nbytes pos =
      some { toReadCopy := copy, returned := copy.copyLen, position := position } := by
  rw [FileMaps.readResult, hcopy]
  show (lseekCur pos (toOff copy.copyLen)).bind _ = _
  rw [hseek]
  rfl

theorem readsItsFile_of_well (hwell : ReadsWell M fd nbytes pos) (hpos : pos < offSize)
    (hrange : ∀ x M₁, M.findByFd fd = some (x, M₁) →
      (M₁.fileMapTreeNodes x).file = M.fdFile fd →
        MappedRange (M₁.fileMapTreeNodes x) ∧ (M₁.fileMapTreeNodes x).offset ≤ pos) :
    ∃ r, M.readResult fd buf nbytes pos = some r ∧ ReadsItsFile M fd buf nbytes pos r := by
  obtain ⟨x, M₁, hx, hfile, hend, y, hy, hyfile, hypath, hsame⟩ := hwell
  obtain ⟨⟨hle, htail, hoffset⟩, hoff⟩ := hrange x M₁ hx hfile
  have hcopy := readCopy_of_found buf nbytes pos hx
  rw [hy, Option.map_some] at hcopy
  -- the length, whether or not anything is asked for
  have hlen : min (wsub (M₁.fileMapTreeNodes x).tail (wadd (M₁.fileMapTreeNodes x).start
      (wsub pos (M₁.fileMapTreeNodes x).offset))) nbytes = min nbytes
        ((M₁.fileMapTreeNodes x).offset +
          ((M₁.fileMapTreeNodes x).tail - (M₁.fileMapTreeNodes x).start) - pos) := by
    rcases hend with hzero | hend
    · omega
    · rw [(left_of_le htail hle hoff hend).2, Nat.min_comm]
  have hbegin : 0 < min nbytes ((M₁.fileMapTreeNodes x).offset +
      ((M₁.fileMapTreeNodes x).tail - (M₁.fileMapTreeNodes x).start) - pos) →
      wadd (M₁.fileMapTreeNodes x).start (wsub pos (M₁.fileMapTreeNodes x).offset) =
        (M₁.fileMapTreeNodes x).start + (pos - (M₁.fileMapTreeNodes x).offset) := by
    intro hpositive
    exact (left_of_le htail hle hoff (by omega)).1
  rw [hlen] at hcopy
  have hfits : pos + min nbytes ((M₁.fileMapTreeNodes x).offset +
      ((M₁.fileMapTreeNodes x).tail - (M₁.fileMapTreeNodes x).start) - pos) < offSize := by
    simp only [offSize] at *
    omega
  generalize hcount : min nbytes ((M₁.fileMapTreeNodes x).offset +
    ((M₁.fileMapTreeNodes x).tail - (M₁.fileMapTreeNodes x).start) - pos) = count at *
  refine ⟨_, readResult_of_copy hcopy (lseekCur_of_lt hfits), ?_, rfl, rfl, ?_⟩
  · refine ⟨x, M₁, hx, hfile, hcount.symm, hbegin, fun a h₁ h₂ => ?_⟩
    simp only at h₁ h₂
    have hpositive : 0 < count := by omega
    rw [hbegin hpositive] at h₁ h₂
    omega
  · refine ⟨_, rfl, rfl, ?_, hyfile, hypath⟩
    have hword : pos < wordSize := by
      simp only [offSize, wordSize] at *
      omega
    exact (fileOffset_eq_iff hword).2 hsame

theorem well_of_readsItsFile (hpos : pos < offSize)
    (hrange : ∀ x M₁, M.findByFd fd = some (x, M₁) →
      (M₁.fileMapTreeNodes x).file = M.fdFile fd →
        MappedRange (M₁.fileMapTreeNodes x) ∧ (M₁.fileMapTreeNodes x).offset ≤ pos) {r : ReadResult}
    (hr : M.readResult fd buf nbytes pos = some r) (h : ReadsItsFile M fd buf nbytes pos r) :
    ReadsWell M fd nbytes pos := by
  obtain ⟨⟨x, M₁, hx, hfile, hlen, -⟩, -, -, c, hc, -, hoffset, horigin, hname⟩ := h
  obtain ⟨⟨hle, htail, -⟩, hoff⟩ := hrange x M₁ hx hfile
  have hcopy := readCopy_of_found buf nbytes pos hx
  obtain ⟨copy, hcopy', hr⟩ := Option.bind_eq_some_iff.1 hr
  obtain ⟨position, -, heq⟩ := Option.bind_eq_some_iff.1 hr
  cases hcopy.symm.trans hcopy'
  cases heq
  obtain ⟨y, hy, rfl⟩ := Option.map_eq_some_iff.1 hc
  have hword : pos < wordSize := by
    simp only [offSize, wordSize] at *
    omega
  refine ⟨x, M₁, hx, hfile, ?_, y, hy, horigin, hname, (fileOffset_eq_iff hword).1 hoffset⟩
  by_contra hnot
  have hwrap := left_of_lt htail hle hoff hpos (by omega)
  simp only at hlen
  omega

end

/-! ## Runs -/

/-- What `mmap` answers, if it does not fail: a range of addresses, for a part of
the file that an `off_t` can address. -/
def MmapAnswers : Call → State → Prop
  | .mmap ret len _ _ off, _ => ret ≠ mapFailed → ret + len < wordSize ∧ off + len < offSize
  | _, _ => True

instance : (c : Call) → (s : State) → Decidable (MmapAnswers c s)
  | .mmap .., _ => by dsimp only [MmapAnswers]; infer_instance
  | .open _, _ | .close .., _ | .munmap _, _ | .memcpy .., _ | .memcpyTraced .., _
  | .realloc .., _ | .read .., _ | .write .., _ | .fwrite .., _ | .store .., _ =>
    instDecidableTrue

/-- The nodes of files in the tree of paths are ranges. -/
def RangesOk (M : FileMaps) : Prop :=
  ∀ x ∈ inorder M.fileMapNameTreeRoot, (M.fileMapTreeNodes x).file.isSome →
    MappedRange (M.fileMapTreeNodes x)

variable {E : Env} {s s' : State}

theorem rangesOk_step {c : Call} (h : RangesOk s.maps) (hok : MmapAnswers c s)
    (hstep : step E c s = some s') : RangesOk s'.maps := by
  have hmaps := mapsStep_of_step hstep
  intro x hx hfile
  -- a node that has just been filled in
  have hfilled : ∀ ret len prot file off, c = .mmap ret len prot file off →
      s'.maps.fileMapTreeNodes x = s.maps.mapNode ret len file off →
        MappedRange (s'.maps.fileMapTreeNodes x) := by
    rintro ret len prot file off rfl heq
    rw [heq] at hfile ⊢
    have hret : ret ≠ mapFailed := by
      rintro rfl
      simp [FileMaps.mapNode] at hfile
    obtain ⟨haddr, hpos⟩ := hok hret
    have htail : wadd ret len = ret + len := wadd_of_lt haddr
    constructor
    · show ret ≤ wadd ret len
      omega
    · exact wadd_lt ret len
    · show off + (wadd ret len - ret) < offSize
      rw [htail, Nat.add_sub_cancel_left]
      exact hpos
  rcases mem_nameTree_of_mapsStep hmaps hx with hx | ⟨ret, len, prot, file, off, hc, heq⟩
  · rcases node_of_mapsStep hmaps x with ⟨ret, len, prot, file, off, hc, heq⟩ | ⟨used, name, heq⟩
    · exact hfilled ret len prot file off hc heq
    · rw [heq] at hfile ⊢
      obtain ⟨h₁, h₂, h₃⟩ := h x hx hfile
      exact ⟨h₁, h₂, h₃⟩
  · exact hfilled ret len prot file off hc heq

/-- In every state that a run reaches, a call of `ts_read` on an open file, from a
position that is not before its mapping, reads this file if and only if the
mapping found by the path is of this file and reaches to the position, and the
one in the table of open files is of the same file at the same distance. -/
theorem readResult_exact_iff {recMem : ℤ → MemRec} {recBlockEntries : ℕ → RecBlockEntry}
    {recTreeNodes : ℕ → RecTreeNode} {fileMapTreeNodes : ℕ → FileMapTreeNode} {mem : ℕ → UInt8}
    {cs : List Call}
    (hok : Meets MmapAnswers (step E) cs
      (initState E recMem recBlockEntries recTreeNodes fileMapTreeNodes mem))
    (h : runAll (step E) cs
      (initState E recMem recBlockEntries recTreeNodes fileMapTreeNodes mem) = some s)
    {fd : ℤ} (hopen : (s.maps.fdFile fd).isSome) (buf nbytes : ℕ) {pos : ℕ} (hpos : pos < offSize)
    (hoff : ∀ x M₁, s.maps.findByFd fd = some (x, M₁) → (M₁.fileMapTreeNodes x).offset ≤ pos) :
    (∃ r, s.maps.readResult fd buf nbytes pos = some r ∧ ReadsItsFile s.maps fd buf nbytes pos r) ↔
      ReadsWell s.maps fd nbytes pos := by
  have hranges : RangesOk s.maps :=
    runAll_guarded (P := fun s => RangesOk s.maps)
      (fun _ _ _ h hok hstep => rangesOk_step h hok hstep)
      (fun _ hx => absurd hx List.not_mem_nil) hok h
  have hfound : ∀ x M₁, s.maps.findByFd fd = some (x, M₁) →
      (M₁.fileMapTreeNodes x).file = s.maps.fdFile fd → MappedRange (M₁.fileMapTreeNodes x) ∧
        (M₁.fileMapTreeNodes x).offset ≤ pos := by
    intro x M₁ hx hfile
    refine ⟨?_, hoff x M₁ hx⟩
    obtain ⟨y, pool, -, -, hsearch, -⟩ := FileMaps.findByFd_eq_some hx
    obtain ⟨name, heq⟩ := FileMaps.findByFd_node hx x
    rw [heq] at hfile ⊢
    obtain ⟨h₁, h₂, h₃⟩ := hranges x (tfind_eq_some hsearch).1 (hfile ▸ hopen)
    exact ⟨h₁, h₂, h₃⟩
  constructor
  · rintro ⟨r, hr, hreads⟩
    exact well_of_readsItsFile hpos hfound hr hreads
  · intro hwell
    exact readsItsFile_of_well hwell hpos hfound

/-- Two files are opened and mapped, under descriptors that have a path each but
share a slot of the table of open files. -/
def sharedSlot : List Call := openAndMap 3 1 100 0x10000 0x1000 ++
  openAndMap 1027 2 200 0x20000 0x1000

/-- The second of the two files can be read. -/
theorem readResult_exact_iff_sharedSlot : ∃ s, plainRun sharedSlot = some s ∧
    ∃ r, s.maps.readResult 1027 0x500000 16 32 = some r ∧
      ReadsItsFile s.maps 1027 0x500000 16 32 r := by
  have hrun : (runAll (guarded MmapAnswers (step plainEnv)) sharedSlot plainInit).any
      fun s : State => decide ((s.maps.fdFile 1027).isSome ∧
        (∀ f ∈ s.maps.findByFd 1027, (f.2.fileMapTreeNodes f.1).offset ≤ 32) ∧
        ReadsWell s.maps 1027 16 32) := by
    decide +kernel
  obtain ⟨s, hs, hall⟩ := (Option.any_eq_true _ _).1 hrun
  obtain ⟨hok, hs⟩ := meets_of_checked (fun _ _ _ => guarded_eq_some) hs
  obtain ⟨hopen, hoff, hwell⟩ := of_decide_eq_true hall
  exact ⟨s, hs, (readResult_exact_iff hok hs hopen 0x500000 16 (by decide)
    fun x M₁ hx => hoff (x, M₁) hx).2 hwell⟩

/-- A read of the first one from its beginning inserts a record of the second one,
and a read from behind its end copies what lies behind the mapping. -/
theorem sharedSlot_misread : ∃ s, plainRun sharedSlot = some s ∧ Reachable plainEnv s ∧
    s.maps.fdFile 3 = some 1 ∧
    (∃ r, s.maps.readResult 3 0x500000 16 0 = some r ∧
      ¬ ReadsItsFile s.maps 3 0x500000 16 0 r) ∧
    ∃ r, s.maps.readResult 3 0x500000 16 0x1010 = some r ∧ r.copyBegin = 0x11010 ∧
      r.copyLen = 16 ∧ ¬ ReadsItsFile s.maps 3 0x500000 16 0x1010 r := by
  have hrun : (plainRun sharedSlot).any fun s : State => decide (s.maps.fdFile 3 = some 1 ∧
      (∃ r ∈ s.maps.readResult 3 0x500000 16 0, ∃ c ∈ r.inserted, c.origin = some 2) ∧
      (∀ f ∈ s.maps.findByFd 3, (f.2.fileMapTreeNodes f.1).tail = 0x11000) ∧
      ∃ r ∈ s.maps.readResult 3 0x500000 16 0x1010, r.copyBegin = 0x11010 ∧ r.copyLen = 16) := by
    decide +kernel
  obtain ⟨s, hs, hall⟩ := (Option.any_eq_true _ _).1 hrun
  obtain ⟨hfile, ⟨r₁, hr₁, c, hc, horigin⟩, htail, r₂, hr₂, hbegin, hlen⟩ := of_decide_eq_true hall
  refine ⟨s, hs, reachable_plainRun hs, hfile, ⟨r₁, hr₁, ?_⟩, r₂, hr₂, hbegin, hlen, ?_⟩
  · intro h
    obtain ⟨c', hc', -, -, horigin', -⟩ := h.inserted
    cases hc.symm.trans hc'
    rw [horigin, hfile] at horigin'
    cases horigin'
  · intro h
    obtain ⟨x, M₁, hx, -, -, -, hin⟩ := h.copies
    have hlt := (hin 0x11010 (by omega) (by omega)).2
    rw [htail (x, M₁) hx] at hlt
    omega

end Cidl
