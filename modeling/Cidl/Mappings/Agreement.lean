import Cidl.Model.Api

/-!
# The two mapping trees

A mapping is registered under its start address and under its path, and both
trees are to hold the nodes that have been taken from the pool, no more and no
less (`Agree`).

`ts_close` keeps this, as it searches both trees by path.  `ts_munmap` does not:
it searches the tree ordered by path with the comparator of start addresses,
and may pass by the node it is about to give back.  And a mapping at a start
address or with a path that is registered already goes into one tree only, or
into none.  `MapCallOk` excludes these three cases, and `reachable_agree` shows
that nothing else can go wrong.
-/

namespace Cidl

open SearchTree

namespace FileMaps

variable {S : Slabs 1 fileMapTreeNodePoolSize} {L : Libc} {M M' : FileMaps}

/-! ## The invariant -/

/-- The nodes that have been taken from the pool and not given back. -/
def takenNodes (S : Slabs 1 fileMapTreeNodePoolSize) (M : FileMaps) : List ℕ :=
  (S.cells 0).filter fun x => x ∉ M.fileMapTreeNodePool.ptr

/-- Both trees hold the nodes in use. -/
structure Agree (S : Slabs 1 fileMapTreeNodePoolSize) (M : FileMaps) : Prop where
  start : ∀ x, x ∈ inorder M.fileMapTreeRoot ↔ x ∈ M.takenNodes S
  name : ∀ x, x ∈ inorder M.fileMapNameTreeRoot ↔ x ∈ M.takenNodes S

/-- What is preserved: both trees are ordered by their keys and hold the nodes
in use. -/
structure MapInv (S : Slabs 1 fileMapTreeNodePoolSize) (M : FileMaps) : Prop where
  startSorted : Sorted M.startKey M.fileMapTreeRoot
  nameSorted : Sorted M.nameKey M.fileMapNameTreeRoot
  owns : M.fileMapTreeNodePool.Owns S (inorder M.fileMapTreeRoot)
  oneSlab : M.fileMapTreeNodePool.slabs = 1
  same : ∀ x, x ∈ inorder M.fileMapNameTreeRoot ↔ x ∈ inorder M.fileMapTreeRoot

theorem MapInv.agree (h : MapInv S M) : Agree S M := by
  have hstart : ∀ x, x ∈ inorder M.fileMapTreeRoot ↔ x ∈ M.takenNodes S := by
    intro x
    rw [h.owns.mem_used_iff h.oneSlab, takenNodes, List.mem_filter, decide_eq_true_eq]
  exact ⟨hstart, fun x => (h.same x).trans (hstart x)⟩

theorem mapInv_init (nodes : ℕ → FileMapTreeNode) : MapInv S (init S nodes) where
  startSorted := List.Pairwise.nil
  nameSorted := List.Pairwise.nil
  owns := Pool.owns_start
  oneSlab := rfl
  same _ := Iff.rfl

/-- The invariant depends on the trees, the pool and the keys of the nodes. -/
theorem MapInv.congr (h : MapInv S M) (hstart : M'.fileMapTreeRoot = M.fileMapTreeRoot)
    (hname : M'.fileMapNameTreeRoot = M.fileMapNameTreeRoot)
    (hpool : M'.fileMapTreeNodePool = M.fileMapTreeNodePool)
    (hkeys : ∀ x ∈ inorder M.fileMapTreeRoot,
      M'.startKey x = M.startKey x ∧ M'.nameKey x = M.nameKey x) : MapInv S M' where
  startSorted := by
    rw [hstart]
    exact h.startSorted.congr fun x hx => (hkeys x hx).1
  nameSorted := by
    rw [hname]
    exact h.nameSorted.congr fun x hx => (hkeys x ((h.same x).1 hx)).2
  owns := by rw [hstart, hpool]; exact h.owns
  oneSlab := by rw [hpool]; exact h.oneSlab
  same := by rw [hstart, hname]; exact h.same

/-! ## Registering a mapping -/

theorem pop_slabs {q q' : Pool} {x : ℕ} (h : q.pop = some (x, q')) : q'.slabs = q.slabs := by
  unfold Pool.pop at h
  split at h <;> cases h
  rfl

theorem push_slabs {q q' : Pool} {x : ℕ} (h : q.push x = some q') : q'.slabs = q.slabs := by
  unfold Pool.push at h
  split at h <;> cases h
  rfl

/-- What `register` does: a node is taken, filled in, and put into both trees. -/
theorem register_eq_some {ret len off : ℕ} {file : ℤ}
    (h : M.register L ret len file off = some M') :
    ∃ x, M.fileMapTreeNodePool.pop = some (x, M'.fileMapTreeNodePool) ∧
      M'.fileMapTreeNodes = Function.update M.fileMapTreeNodes x (M.mapNode ret len file off) ∧
      M'.fileMapTreeRoot =
        L.search.tsearch (byKey M'.startKey (M'.startKey x)) x M.fileMapTreeRoot ∧
      M'.fileMapNameTreeRoot =
        L.search.tsearch (byKey M'.nameKey (M'.nameKey x)) x M.fileMapNameTreeRoot ∧
      M'.pathFile = M.pathFile ∧
      M'.openFileArray = Function.update M.openFileArray (file.tmod maxFileNum) (some x) := by
  simp only [register, allocateFileMapTreeNode, Option.bind_eq_bind, Option.bind_eq_some_iff,
    Option.map_eq_some_iff, Option.some.injEq] at h
  obtain ⟨r, ⟨⟨x, pool⟩, hpop, rfl⟩, rfl⟩ := h
  exact ⟨x, hpop, rfl, rfl, rfl, rfl, rfl⟩

/-- A mapping with a start address and a path that are not registered yet. -/
theorem mapInv_register (h : MapInv S M) {ret len off : ℕ} {file : ℤ}
    (hstart : ∀ x ∈ inorder M.fileMapTreeRoot, M.startKey x ≠ ret)
    (hname : ∀ x ∈ inorder M.fileMapNameTreeRoot, M.nameKey x ≠ M.getPath file)
    (hM : M.register L ret len file off = some M') : MapInv S M' := by
  obtain ⟨x, hpop, hnodes, hroot, hroot', -⟩ := register_eq_some hM
  have hfresh : x ∉ inorder M.fileMapTreeRoot := (List.nodup_cons.1 (h.owns.pop hpop).nodup_used).1
  have hself : M'.fileMapTreeNodes x = M.mapNode ret len file off := by
    rw [hnodes, Function.update_self]
  have hother : ∀ z ∈ inorder M.fileMapTreeRoot, M'.fileMapTreeNodes z = M.fileMapTreeNodes z := by
    intro z hz
    rw [hnodes, Function.update_of_ne fun heq : z = x => hfresh (heq ▸ hz)]
  have hsorted : Sorted M'.startKey M.fileMapTreeRoot :=
    h.startSorted.congr fun z hz => by rw [startKey, hother z hz]
  have hsorted' : Sorted M'.nameKey M.fileMapNameTreeRoot :=
    h.nameSorted.congr fun z hz => by rw [nameKey, hother z ((h.same z).1 hz)]
  have hnew : ∀ z ∈ inorder M.fileMapTreeRoot, M'.startKey z ≠ M'.startKey x := by
    intro z hz
    rw [startKey, startKey, hother z hz, hself]
    exact hstart z hz
  have hnew' : ∀ z ∈ inorder M.fileMapNameTreeRoot, M'.nameKey z ≠ M'.nameKey x := by
    intro z hz
    rw [nameKey, nameKey, hother z ((h.same z).1 hz), hself]
    exact hname z hz
  have hperm := L.search.perm_tsearch hsorted hnew
  have hperm' := L.search.perm_tsearch hsorted' hnew'
  refine ⟨?_, ?_, ?_, (pop_slabs hpop).trans h.oneSlab, fun z => ?_⟩
  · rw [hroot]
    exact L.search.sorted_tsearch hsorted x
  · rw [hroot']
    exact L.search.sorted_tsearch hsorted' x
  · rw [hroot]
    exact (h.owns.pop hpop).perm hperm.symm
  · rw [hroot, hroot', hperm.mem_iff, hperm'.mem_iff, List.mem_cons, List.mem_cons, h.same]

/-- Giving back what was just taken restores the pool. -/
theorem push_of_pop {q q' q'' : Pool} {x : ℕ} (hpop : q.pop = some (x, q'))
    (hpush : q'.push x = some q'') : q'' = q := by
  obtain ⟨ptr, size, slabs, room⟩ := q
  cases ptr with
  | nil => cases hpop
  | cons y ptr =>
    cases hpop
    unfold Pool.push at hpush
    split at hpush <;> cases hpush
    rfl

/-! ## Taking a mapping out -/

/-- A node goes when both deletions meet it. -/
theorem mapInv_delete (h : MapInv S M) {c c' : ℕ → Ordering} {x : ℕ}
    (hfind : tfind c M.fileMapTreeRoot = some x) (hfind' : tfind c' M.fileMapNameTreeRoot = some x)
    {pool : Pool} (hpush : M.fileMapTreeNodePool.push x = some pool)
    (hstart : M'.fileMapTreeRoot = L.search.tdelete c M.fileMapTreeRoot)
    (hname : M'.fileMapNameTreeRoot = L.search.tdelete c' M.fileMapNameTreeRoot)
    (hnodes : M'.fileMapTreeNodes = M.fileMapTreeNodes) (hpool : M'.fileMapTreeNodePool = pool) :
    MapInv S M' where
  startSorted := by
    show Sorted (fun z => (M'.fileMapTreeNodes z).start) _
    rw [hstart, hnodes]
    exact L.search.sorted_tdelete h.startSorted c
  nameSorted := by
    show Sorted (fun z => (M'.fileMapTreeNodes z).fileName) _
    rw [hname, hnodes]
    exact L.search.sorted_tdelete h.nameSorted c'
  owns := by
    rw [hstart, hpool]
    exact (h.owns.perm (L.search.perm_tdelete hfind)).push hpush
  oneSlab := by rw [hpool, push_slabs hpush, h.oneSlab]
  same z := by
    rw [hstart, hname, L.search.mem_tdelete hfind h.startSorted.nodup,
      L.search.mem_tdelete hfind' h.nameSorted.nodup, h.same]

/-! ## The four calls -/

theorem mapInv_tsOpen (h : MapInv S M) {a : OpenAnswer} (hM : M.tsOpen a = some M') :
    MapInv S M' := by
  unfold tsOpen at hM
  split at hM
  · cases hM
    exact h
  · dsimp only at hM
    split at hM
    · split at hM <;> cases hM
      exact h.congr rfl rfl rfl fun _ _ => ⟨rfl, rfl⟩
    · split at hM <;> cases hM
      exact h.congr rfl rfl rfl fun _ _ => ⟨rfl, rfl⟩

/-- `ts_close` searches both trees by path. -/
theorem mapInv_tsClose (h : MapInv S M) {result fd : ℤ} (hM : M.tsClose L result fd = some M') :
    MapInv S M' := by
  unfold tsClose at hM
  split at hM
  · cases hM
    exact h
  · dsimp only at hM
    split at hM
    · cases hM
      exact h.congr rfl rfl rfl fun _ _ => ⟨rfl, rfl⟩
    · split at hM
      · cases hM
        exact h.congr rfl rfl rfl fun _ _ => ⟨rfl, rfl⟩
      · rename_i x hfind
        obtain ⟨pool, hpush, rfl⟩ := Option.map_eq_some_iff.1 hM
        obtain ⟨hmem, hkey⟩ := tfind_eq_some hfind
        have hfind' := (tfind_byKey h.nameSorted _ x).2
          ⟨(h.same x).2 hmem, (compare_eq_iff_eq.1 hkey).symm⟩
        exact mapInv_delete h hfind hfind' hpush rfl rfl rfl rfl

/-- `ts_munmap` searches the second tree by start address too. -/
theorem mapInv_tsMunmap (h : MapInv S M) {addr : ℕ}
    (hsame : ∀ x, tfind (byKey M.startKey addr) M.fileMapTreeRoot = some x →
      tfind (byKey M.startKey addr) M.fileMapNameTreeRoot = some x)
    (hM : M.tsMunmap L addr = some M') : MapInv S M' := by
  unfold tsMunmap at hM
  split at hM
  · cases hM
    exact h
  · rename_i x hfind
    simp only [withdrawFileMapTreeNode, Option.bind_eq_bind, Option.bind_eq_some_iff,
      Option.map_eq_some_iff] at hM
    obtain ⟨M₁, hM₁, pool, hpush, rfl⟩ := hM
    obtain ⟨live, caller, rfl⟩ := freePath_eq_some hM₁
    exact mapInv_delete h hfind (hsame x hfind) hpush rfl rfl rfl rfl

/-! ## The lookups of the other calls -/

theorem mapInv_countUse (h : MapInv S M) (x : ℕ) : MapInv S (M.countUse x) := by
  refine h.congr rfl rfl rfl fun z _ => ?_
  by_cases hz : z = x
  · subst hz
    simp [startKey, nameKey, countUse, setMapNode]
  · simp [startKey, nameKey, countUse, setMapNode, Function.update_of_ne hz]

/-- What the lookup of `ts_read` does: it writes the path into a node that it
takes from the pool and gives back. -/
theorem findByFd_eq_some {fd : ℤ} {x : ℕ} (hM : M.findByFd fd = some (x, M')) :
    ∃ y pool, M.fileMapTreeNodePool.pop = some (y, pool) ∧
      pool.push y = some M'.fileMapTreeNodePool ∧
      tfind (byKey M'.nameKey (M.getPath fd)) M.fileMapNameTreeRoot = some x ∧
      M' = { M with
        fileMapTreeNodes := Function.update M.fileMapTreeNodes y
          { M.fileMapTreeNodes y with fileName := M.getPath fd }
        fileMapTreeNodePool := M'.fileMapTreeNodePool } := by
  simp only [findByFd, allocateFileMapTreeNode, withdrawFileMapTreeNode, Option.bind_eq_bind,
    Option.bind_eq_some_iff, Option.map_eq_some_iff, Option.some.injEq, Prod.mk.injEq] at hM
  obtain ⟨r, ⟨⟨y, pool⟩, hpop, rfl⟩, M₁, ⟨pool', hpush, rfl⟩, found, hfound, rfl, rfl⟩ := hM
  refine ⟨y, pool, hpop, hpush, ?_, rfl⟩
  simp only [nameKey, setMapNode, Function.update_self] at hfound
  exact hfound

/-- The node that `ts_read` borrows as a search key is in no tree. -/
theorem mapInv_findByFd (h : MapInv S M) {fd : ℤ} {x : ℕ} (hM : M.findByFd fd = some (x, M')) :
    MapInv S M' := by
  obtain ⟨y, pool, hpop, hpush, -, heq⟩ := findByFd_eq_some hM
  have hfresh : y ∉ inorder M.fileMapTreeRoot := (List.nodup_cons.1 (h.owns.pop hpop).nodup_used).1
  have hsame : M'.fileMapTreeNodePool = M.fileMapTreeNodePool := push_of_pop hpop hpush
  rw [heq]
  refine h.congr rfl rfl hsame fun z hz => ?_
  have hne : z ≠ y := fun heq => hfresh (heq ▸ hz)
  simp [startKey, nameKey, Function.update_of_ne hne]

end FileMaps

/-! ## Runs -/

variable {E : Env} {s s' : State}

/-- `ts_mmap` registers the mapping. -/
def FileMaps.Tracked (M : FileMaps) (prot : ℕ) (file : ℤ) : Prop :=
  prot &&& mapAnonymous = 0 ∧ -1 < file ∧ M.isMktmp (M.getPath file) = false

instance (M : FileMaps) (prot : ℕ) (file : ℤ) : Decidable (M.Tracked prot file) :=
  inferInstanceAs (Decidable (_ ∧ _ ∧ _))

/-- When a call keeps the trees in agreement: a mapping that is registered has a
new start address and a new path, and the search of `ts_munmap` for a start
address leads to the same node in both trees. -/
def MapCallOk : Call → State → Prop
  | .mmap ret _ prot file _, s => s.maps.Tracked prot file →
      (∀ x ∈ inorder s.maps.fileMapTreeRoot, s.maps.startKey x ≠ ret) ∧
        ∀ x ∈ inorder s.maps.fileMapNameTreeRoot, s.maps.nameKey x ≠ s.maps.getPath file
  | .munmap addr, s => ∀ x ∈ tfind (byKey s.maps.startKey addr) s.maps.fileMapTreeRoot,
      tfind (byKey s.maps.startKey addr) s.maps.fileMapNameTreeRoot = some x
  | _, _ => True

instance : (c : Call) → (s : State) → Decidable (MapCallOk c s)
  | .mmap .., _ | .munmap _, _ => by dsimp only [MapCallOk]; infer_instance
  | .open _, _ | .close .., _ | .memcpy .., _ | .memcpyTraced .., _ | .realloc .., _
  | .read .., _ | .write .., _ | .fwrite .., _ | .store .., _ => instDecidableTrue

/-- What a call of the library can do to the mappings. -/
inductive MapsStep (L : Libc) (M : FileMaps) : Call → FileMaps → Prop
  | same (c : Call) : MapsStep L M c M
  | opened {a : OpenAnswer} {M' : FileMaps} (h : M.tsOpen a = some M') :
      MapsStep L M (.open a) M'
  | closed {result fd : ℤ} {M' : FileMaps} (h : M.tsClose L result fd = some M') :
      MapsStep L M (.close result fd) M'
  | registered {ret len prot : ℕ} {file : ℤ} {off : ℕ} {M' : FileMaps}
      (ht : M.Tracked prot file) (h : M.register L ret len file off = some M') :
      MapsStep L M (.mmap ret len prot file off) M'
  | unmapped {addr : ℕ} {M' : FileMaps} (h : M.tsMunmap L addr = some M') :
      MapsStep L M (.munmap addr) M'
  | used (c : Call) (x : ℕ) : MapsStep L M c (M.countUse x)
  | borrowed {fd : ℤ} {buf nbytes pos x : ℕ} {M₁ M' : FileMaps}
      (h : M.findByFd fd = some (x, M₁)) (h' : M' = M₁ ∨ ∃ y, M' = M₁.countUse y) :
      MapsStep L M (.read fd buf nbytes pos) M'

theorem maps_copyRecorded {insert : Insert} {dest src n : ℕ} {x : Option ℕ}
    (h : copyRecorded insert dest src n x s = some s') :
    s'.maps = s.maps ∨ ∃ y, s'.maps = s.maps.countUse y := by
  cases x with
  | none =>
    cases h
    exact Or.inl rfl
  | some y =>
    obtain ⟨T, -, rfl⟩ := Option.map_eq_some_iff.1 h
    exact Or.inr ⟨y, rfl⟩

theorem mapsStep_of_step {c : Call} (h : step E c s = some s') :
    MapsStep E.libc s.maps c s'.maps := by
  cases c with
  | «open» a =>
    obtain ⟨M, hM, rfl⟩ := Option.map_eq_some_iff.1 h
    exact .opened hM
  | close result fd =>
    obtain ⟨M, hM, rfl⟩ := Option.map_eq_some_iff.1 h
    exact .closed hM
  | mmap ret len prot file off =>
    obtain ⟨M, hM, rfl⟩ := Option.map_eq_some_iff.1 h
    unfold FileMaps.tsMmap at hM
    split at hM
    · rename_i htracked
      split at hM
      · cases hM
      · split at hM
        · cases hM
          exact .same _
        · rename_i hmk
          exact .registered ⟨htracked.1, htracked.2, by simpa using hmk⟩ hM
    · cases hM
      exact .same _
  | munmap addr =>
    obtain ⟨M, hM, rfl⟩ := Option.map_eq_some_iff.1 h
    exact .unmapped hM
  | memcpy dest src n =>
    rcases maps_copyRecorded h with heq | ⟨y, heq⟩
    · exact heq ▸ .same _
    · exact heq ▸ .used _ y
  | memcpyTraced dest src n =>
    obtain ⟨T, -, rfl⟩ := Option.map_eq_some_iff.1 h
    exact .same _
  | realloc ret ptr tail =>
    obtain ⟨T, -, rfl⟩ := Option.map_eq_some_iff.1 h
    exact .same _
  | read fd buf nbytes pos =>
    obtain ⟨⟨x, M⟩, hM, h⟩ := Option.bind_eq_some_iff.1 h
    exact .borrowed hM (maps_copyRecorded h)
  | write buf length =>
    cases h
    exact .same _
  | fwrite buf size n =>
    cases h
    exact .same _
  | store addr b =>
    cases h
    exact .same _

theorem mapInv_step {S : Slabs 1 fileMapTreeNodePoolSize} {c : Call}
    (h : FileMaps.MapInv S s.maps) (hok : MapCallOk c s) (hstep : step E c s = some s') :
    FileMaps.MapInv S s'.maps := by
  have hmaps := mapsStep_of_step hstep
  generalize s'.maps = M' at hmaps ⊢
  cases hmaps with
  | same => exact h
  | opened hM => exact FileMaps.mapInv_tsOpen h hM
  | closed hM => exact FileMaps.mapInv_tsClose h hM
  | registered ht hM =>
    obtain ⟨hstart, hname⟩ := hok ht
    exact FileMaps.mapInv_register h hstart hname hM
  | unmapped hM => exact FileMaps.mapInv_tsMunmap h hok hM
  | used _ x => exact FileMaps.mapInv_countUse h x
  | borrowed hM h' =>
    have hM := FileMaps.mapInv_findByFd h hM
    rcases h' with rfl | ⟨y, rfl⟩
    · exact hM
    · exact FileMaps.mapInv_countUse hM y

/-- What a run of such calls preserves. -/
theorem mapInv_run {recMem : ℤ → MemRec} {recBlockEntries : ℕ → RecBlockEntry}
    {recTreeNodes : ℕ → RecTreeNode} {fileMapTreeNodes : ℕ → FileMapTreeNode} {mem : ℕ → UInt8}
    {cs : List Call}
    (hok : Meets MapCallOk (step E) cs
      (initState E recMem recBlockEntries recTreeNodes fileMapTreeNodes mem))
    (h : runAll (step E) cs
      (initState E recMem recBlockEntries recTreeNodes fileMapTreeNodes mem) = some s) :
    FileMaps.MapInv E.fileMapSlabs s.maps :=
  runAll_guarded (P := fun s => FileMaps.MapInv E.fileMapSlabs s.maps)
    (fun _ _ _ h hok hstep => mapInv_step h hok hstep) (FileMaps.mapInv_init _) hok h

/-- In every state that a run of such calls reaches, both trees hold exactly the
nodes that have been taken from the pool and not given back. -/
theorem reachable_agree {recMem : ℤ → MemRec} {recBlockEntries : ℕ → RecBlockEntry}
    {recTreeNodes : ℕ → RecTreeNode} {fileMapTreeNodes : ℕ → FileMapTreeNode} {mem : ℕ → UInt8}
    {cs : List Call}
    (hok : Meets MapCallOk (step E) cs
      (initState E recMem recBlockEntries recTreeNodes fileMapTreeNodes mem))
    (h : runAll (step E) cs
      (initState E recMem recBlockEntries recTreeNodes fileMapTreeNodes mem) = some s) :
    FileMaps.Agree E.fileMapSlabs s.maps :=
  (mapInv_run hok h).agree

/-- Two files are opened, the second one with a path string at a lower address,
and both are mapped. -/
def twoMappings : List Call :=
  [.open ⟨3, 1, some (200, ['/', 'a']), true⟩, .open ⟨4, 2, some (100, ['/', 'b']), true⟩,
    .mmap 0x1000 0x1000 1 3 0, .mmap 0x2000 0x1000 1 4 0]

/-- Unmapping the first of them and closing the second. -/
theorem reachable_agree_twoMappings :
    ∃ s, plainRun (twoMappings ++ [.munmap 0x1000, .close 0 4]) = some s ∧
      FileMaps.Agree plainEnv.fileMapSlabs s.maps := by
  have hrun : (runAll (guarded MapCallOk (step plainEnv))
      (twoMappings ++ [.munmap 0x1000, .close 0 4]) plainInit).isSome := by
    decide +kernel
  obtain ⟨s, hs⟩ := Option.isSome_iff_exists.1 hrun
  obtain ⟨hok, hrun⟩ := meets_of_checked (fun _ _ _ => guarded_eq_some) hs
  exact ⟨s, hrun, reachable_agree hok hrun⟩

/-- Unmapping the second one gives back its node, which stays in the tree by path. -/
theorem twoMappings_disagree : ∃ s, plainRun (twoMappings ++ [.munmap 0x2000]) = some s ∧
    Reachable plainEnv s ∧ (∃ x ∈ inorder s.maps.fileMapNameTreeRoot,
      x ∉ inorder s.maps.fileMapTreeRoot ∧ x ∈ s.maps.fileMapTreeNodePool.ptr) ∧
    ¬ FileMaps.Agree plainEnv.fileMapSlabs s.maps := by
  have hrun : (plainRun (twoMappings ++ [.munmap 0x2000])).any fun s =>
      decide (∃ x ∈ inorder s.maps.fileMapNameTreeRoot,
        x ∉ inorder s.maps.fileMapTreeRoot ∧ x ∈ s.maps.fileMapTreeNodePool.ptr) := by
    decide +kernel
  obtain ⟨s, hs, hx⟩ := (Option.any_eq_true _ _).1 hrun
  obtain ⟨x, hname, hstart, hfree⟩ := of_decide_eq_true hx
  refine ⟨s, hs, reachable_plainRun hs, ⟨x, hname, hstart, hfree⟩, fun hagree => ?_⟩
  exact hstart ((hagree.start x).2 ((hagree.name x).1 hname))

end Cidl
