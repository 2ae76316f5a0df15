import Cidl.Model.Api

/-!
# Failed and anonymous mappings

`ts_mmap` and `ts_munmap` go on after the system call without asking whether it
succeeded, and the test that should leave anonymous mappings out reads the
protection instead of the flags.

* `MmapArgs` and `MunmapArgs` are all arguments of the two calls, those that the
  library never looks at included.
* `Unchanged M M'` says that the mapping trees, `openFileArray`, the node pool
  and the path strings are those of `M`.
* `failedCalls_unchanged_iff` says for which failed or anonymous calls they are:
  those for which nothing would have been registered, or found, in any case.
-/

namespace Cidl

open SearchTree

/-- The arguments of `mmap`. -/
structure MmapArgs where
  addr : ℕ
  len : ℕ
  prot : ℕ
  flags : ℕ
  file : ℤ
  off : ℕ

/-- The arguments of `munmap`. -/
structure MunmapArgs where
  addr : ℕ
  len : ℕ

namespace FileMaps

variable {L : Libc} {M M' : FileMaps}

/-- `ts_mmap` on all its arguments, when `mmap` has returned `ret`. -/
def mmapCall (L : Libc) (ret : ℕ) (a : MmapArgs) (M : FileMaps) : Option FileMaps :=
  M.tsMmap L ret a.len a.prot a.file a.off

/-- `ts_munmap` on all its arguments, when `munmap` has returned `ret`. -/
def munmapCall (L : Libc) (_ret : ℤ) (a : MunmapArgs) (M : FileMaps) : Option FileMaps :=
  M.tsMunmap L a.addr

/-- The mappings, their nodes, the table of open files, the node pool and the
path strings are as before. -/
structure Unchanged (M M' : FileMaps) : Prop where
  startTree : M'.fileMapTreeRoot = M.fileMapTreeRoot
  nameTree : M'.fileMapNameTreeRoot = M.fileMapNameTreeRoot
  nodes : M'.fileMapTreeNodes = M.fileMapTreeNodes
  openFiles : M'.openFileArray = M.openFileArray
  pool : M'.fileMapTreeNodePool = M.fileMapTreeNodePool
  paths : M'.fd2Path = M.fd2Path
  pathStr : M'.pathStr = M.pathStr
  pathLive : M'.pathLive = M.pathLive
  callerLive : M'.callerLive = M.callerLive

theorem Unchanged.refl (M : FileMaps) : Unchanged M M :=
  ⟨rfl, rfl, rfl, rfl, rfl, rfl, rfl, rfl, rfl⟩

/-- The descriptors whose mappings `ts_mmap` does not register. -/
def Skipped (M : FileMaps) (prot : ℕ) (file : ℤ) : Prop :=
  prot &&& mapAnonymous ≠ 0 ∨ file < 0 ∨ M.getPath file ≠ 0 ∧ M.isMktmp (M.getPath file)

instance (M : FileMaps) (prot : ℕ) (file : ℤ) : Decidable (M.Skipped prot file) :=
  inferInstanceAs (Decidable (_ ∨ _ ∨ _))

/-- Registering takes a node from the pool. -/
theorem length_pool_register {ret len : ℕ} {file : ℤ} {off : ℕ}
    (h : M.register L ret len file off = some M') :
    M'.fileMapTreeNodePool.ptr.length + 1 = M.fileMapTreeNodePool.ptr.length := by
  obtain ⟨⟨x, M₁⟩, hx, h⟩ := Option.bind_eq_some_iff.1 h
  obtain ⟨⟨y, q⟩, hpop, heq⟩ := Option.map_eq_some_iff.1 hx
  cases heq
  cases h
  unfold Pool.pop at hpop
  split at hpop
  · cases hpop
  · rename_i hptr
    cases hpop
    rw [hptr]
    rfl

theorem tsMmap_unchanged_iff (ret len prot : ℕ) (file : ℤ) (off : ℕ) :
    (∃ M', M.tsMmap L ret len prot file off = some M' ∧ Unchanged M M') ↔ Skipped M prot file := by
  unfold tsMmap Skipped
  by_cases htest : prot &&& mapAnonymous = 0 ∧ -1 < file
  · have hprot : ¬ prot &&& mapAnonymous ≠ 0 := fun h => h htest.1
    have hfile : ¬ file < 0 := by omega
    rw [if_pos htest]
    split
    · rename_i hnull
      simp [hprot, hfile, hnull]
    · rename_i hpath
      split
      · rename_i hmk
        exact iff_of_true ⟨M, rfl, .refl M⟩ (Or.inr (Or.inr ⟨hpath, hmk⟩))
      · rename_i hmk
        refine iff_of_false ?_ (by simp [hprot, hfile, hmk])
        rintro ⟨M', hreg, hun⟩
        have := length_pool_register hreg
        rw [hun.pool] at this
        omega
  · rw [if_neg htest]
    refine iff_of_true ⟨M, rfl, .refl M⟩ ?_
    by_cases hprot : prot &&& mapAnonymous = 0
    · have hfile : ¬ -1 < file := fun h => htest ⟨hprot, h⟩
      exact Or.inr (Or.inl (by omega))
    · exact Or.inl hprot

/-- A mapping that is found gives its node back to the pool. -/
theorem length_pool_tsMunmap {addr x : ℕ}
    (hx : tfind (byKey M.startKey addr) M.fileMapTreeRoot = some x)
    (h : M.tsMunmap L addr = some M') :
    M'.fileMapTreeNodePool.ptr.length = M.fileMapTreeNodePool.ptr.length + 1 := by
  unfold tsMunmap at h
  rw [hx] at h
  obtain ⟨M₁, hfree, h⟩ := Option.bind_eq_some_iff.1 h
  obtain ⟨q, hpush, rfl⟩ := Option.map_eq_some_iff.1 h
  obtain ⟨live, caller, rfl⟩ := freePath_eq_some hfree
  unfold Pool.push at hpush
  split at hpush
  · cases hpush; rfl
  · cases hpush

theorem tsMunmap_unchanged_iff (addr : ℕ) :
    (∃ M', M.tsMunmap L addr = some M' ∧ Unchanged M M') ↔
      tfind (byKey M.startKey addr) M.fileMapTreeRoot = none := by
  cases hx : tfind (byKey M.startKey addr) M.fileMapTreeRoot with
  | none =>
    refine iff_of_true ⟨M, ?_, .refl M⟩ rfl
    unfold tsMunmap
    rw [hx]
  | some x =>
    refine iff_of_false ?_ (Option.some_ne_none x)
    rintro ⟨M', h, hun⟩
    have := length_pool_tsMunmap hx h
    rw [hun.pool] at this
    omega

/-- A `ts_mmap` that fails or maps anonymous memory changes nothing exactly when
the protection has the bit of `MAP_ANONYMOUS`, or there is no descriptor, or its
path is skipped; a `ts_munmap` that fails, exactly when no mapping is tracked at
its address. -/
theorem failedCalls_unchanged_iff (L : Libc) (M : FileMaps) :
    (∀ ret a, ret = mapFailed ∨ a.flags &&& mapAnonymous ≠ 0 →
      ((∃ M', M.mmapCall L ret a = some M' ∧ Unchanged M M') ↔ Skipped M a.prot a.file)) ∧
    ∀ ret : ℤ, ∀ a, ret = -1 →
      ((∃ M', M.munmapCall L ret a = some M' ∧ Unchanged M M') ↔
        tfind (byKey M.startKey a.addr) M.fileMapTreeRoot = none) :=
  ⟨fun ret a _ => tsMmap_unchanged_iff ret a.len a.prot a.file a.off,
    fun _ a _ => tsMunmap_unchanged_iff a.addr⟩

/-- A file is opened and mapped, and `mmap` fails when it is to be mapped again. -/
def remapFailed : MmapArgs := ⟨0, 0x1000, 1, 2, 3, 0⟩

/-- Anonymous memory. -/
def anonymous : MmapArgs := ⟨0, 0x1000, 3, 0x22, -1, 0⟩

/-- An unmapping of the first mapping that fails. -/
def unmapFailed : MunmapArgs := ⟨0x10000, 0x1000⟩

/-- The failed `mmap` does not leave everything as it was, and neither does the
failed `munmap`; anonymous memory, for which there is no descriptor, does. -/
theorem failedCalls_unchanged_iff_remap :
    ∃ s, plainRun (openAndMap 3 1 100 0x10000 0x1000) = some s ∧
    (¬ ∃ M', s.maps.mmapCall plainLibc mapFailed remapFailed = some M' ∧
      Unchanged s.maps M') ∧
    (∃ M', s.maps.mmapCall plainLibc 0x20000 anonymous = some M' ∧ Unchanged s.maps M') ∧
    ¬ ∃ M', s.maps.munmapCall plainLibc (-1) unmapFailed = some M' ∧ Unchanged s.maps M' := by
  have hrun : (plainRun (openAndMap 3 1 100 0x10000 0x1000)).any fun s =>
      decide (¬ s.maps.Skipped remapFailed.prot remapFailed.file) &&
        (tfind (byKey s.maps.startKey unmapFailed.addr) s.maps.fileMapTreeRoot).isSome := by
    decide +kernel
  obtain ⟨s, hs, hboth⟩ := (Option.any_eq_true _ _).1 hrun
  obtain ⟨htracked, hfound⟩ := Bool.and_eq_true_iff.1 hboth
  obtain ⟨hmmap, hmunmap⟩ := failedCalls_unchanged_iff plainLibc s.maps
  have hskipped : s.maps.Skipped anonymous.prot anonymous.file := Or.inr (Or.inl (by decide))
  refine ⟨s, hs, (hmmap mapFailed remapFailed (Or.inl rfl)).not.2 (of_decide_eq_true htracked),
    (hmmap 0x20000 anonymous (Or.inr (by decide))).2 hskipped,
    (hmunmap (-1) unmapFailed rfl).not.2 ?_⟩
  rw [Option.isSome_iff_ne_none] at hfound
  exact hfound

/-- The failed `mmap` leaves a mapping node at the address -1, and the failed
`munmap` takes the node of a mapping away that is still there. -/
theorem failedCalls_change :
    ∃ s, plainRun (openAndMap 3 1 100 0x10000 0x1000) = some s ∧ Reachable plainEnv s ∧
    (∃ M', s.maps.mmapCall plainLibc mapFailed remapFailed = some M' ∧
      (∃ x ∈ inorder M'.fileMapTreeRoot, (M'.fileMapTreeNodes x).start = mapFailed) ∧
      ¬ Unchanged s.maps M') ∧
    ∃ M', s.maps.munmapCall plainLibc (-1) unmapFailed = some M' ∧
      M'.fileMapTreeRoot = .nil ∧ ¬ Unchanged s.maps M' := by
  have hrun : (plainRun (openAndMap 3 1 100 0x10000 0x1000)).any fun s =>
      (s.maps.mmapCall plainLibc mapFailed remapFailed).any (fun M' =>
        decide (∃ x ∈ inorder M'.fileMapTreeRoot, (M'.fileMapTreeNodes x).start = mapFailed) &&
        decide (M'.fileMapTreeRoot ≠ s.maps.fileMapTreeRoot)) &&
      (s.maps.munmapCall plainLibc (-1) unmapFailed).any (fun M' =>
        decide (M'.fileMapTreeRoot = .nil) &&
        decide (M'.fileMapTreeRoot ≠ s.maps.fileMapTreeRoot)) := by
    decide +kernel
  obtain ⟨s, hs, hboth⟩ := (Option.any_eq_true _ _).1 hrun
  obtain ⟨hmmap, hmunmap⟩ := Bool.and_eq_true_iff.1 hboth
  obtain ⟨M₁, h₁, hchange₁⟩ := (Option.any_eq_true _ _).1 hmmap
  obtain ⟨M₂, h₂, hchange₂⟩ := (Option.any_eq_true _ _).1 hmunmap
  simp only [Bool.and_eq_true, decide_eq_true_eq] at hchange₁ hchange₂
  exact ⟨s, hs, reachable_plainRun hs, ⟨M₁, h₁, hchange₁.1, fun h => hchange₁.2 h.startTree⟩,
    M₂, h₂, hchange₂.1, fun h => hchange₂.2 h.startTree⟩

end FileMaps

end Cidl
