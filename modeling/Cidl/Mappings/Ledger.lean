import Cidl.Mappings.Effects

/-!
# Mapping nodes and path strings over whole runs

The pool of mapping nodes does not grow.  A tracked `ts_mmap` comes to its end as
long as the mappings in the tree, and the addresses that were registered although
they were registered already, are fewer than 2048 (`mapping_capacity`).

A path string that `realpath` has handed out is freed by `ts_munmap` only, so the
books on it balance in every run, and they tell whether the next `ts_munmap` frees
it or frees it twice (`strings_balance`).  A string that no mapping and no
descriptor holds any more, or that is the path of a temporary file and of no
mapping, is lost (`freed_iff_held`).
-/

namespace Cidl

open SearchTree FileMaps

variable {E : Env} {s s' s₀ : State}

/-! ## The books -/

/-- The addresses that `realpath` hands out in a run. -/
def handedLog (E : Env) : List ApiCall → State → List ℕ :=
  runLog (fun c _ => handedOut c) (apiStep E)

/-- The addresses of the strings that are freed in a run. -/
def freedLog (E : Env) : List ApiCall → State → List ℕ :=
  runLog (fun c s => s.maps.freed c) (apiStep E)

/-- The addresses that are mapped again in a run. -/
def remappedLog (E : Env) : List ApiCall → State → List ℕ :=
  runLog (fun c s => s.maps.remapped c) (apiStep E)

/-- What every run preserves. -/
theorem treeInv_run {S : Slabs 1 fileMapTreeNodePoolSize} {cs : List ApiCall}
    (hs : TreeInv S 0 s₀.maps) (h : runAll (apiStep E) cs s₀ = some s) :
    TreeInv S (remappedLog E cs s₀).length s.maps := by
  refine @runAll_history _ _ (apiStep E) s₀ s
    (fun cs s => TreeInv S (remappedLog E cs s₀).length s.maps) cs hs
    (fun pre c t t' ht hinv hc => ?_) h
  rw [remappedLog, runLog_concat c ht, List.length_append]
  exact treeInv_effect hinv (effect_of_apiStep hinv hc)

/-! ## The pool -/

theorem isSome_register (M : FileMaps) (L : Libc) (ret len : ℕ) (file : ℤ) (off : ℕ) :
    (M.register L ret len file off).isSome ↔ M.fileMapTreeNodePool.pop.isSome := by
  simp only [register, allocateFileMapTreeNode]
  cases M.fileMapTreeNodePool.pop <;> simp

theorem tsMmap_tracked {M : FileMaps} {L : Libc} {ret len prot off : ℕ} {file : ℤ}
    (ht : M.Tracked prot file) (hpath : M.getPath file ≠ 0) :
    M.tsMmap L ret len prot file off = M.register L ret len file off := by
  obtain ⟨hprot, hfile, hmk⟩ := ht
  simp only [tsMmap, hprot, hfile, hpath, hmk, true_and, if_true, if_false, Bool.false_eq_true]

/-- In every run a tracked `ts_mmap` comes to its end if and only if the mappings
in the tree and the addresses mapped again are fewer than 2048; once they are
not, `ts_read` ends the program as well. -/
theorem mapping_capacity {recMem : ℤ → MemRec} {recBlockEntries : ℕ → RecBlockEntry}
    {recTreeNodes : ℕ → RecTreeNode} {fileMapTreeNodes : ℕ → FileMapTreeNode} {mem : ℕ → UInt8}
    {cs : List ApiCall}
    (hs₀ : s₀ = initState E recMem recBlockEntries recTreeNodes fileMapTreeNodes mem)
    (h : runAll (apiStep E) cs s₀ = some s) :
    (∀ ret len prot file off, s.maps.Tracked prot file → s.maps.getPath file ≠ 0 →
      ((s.maps.tsMmap E.libc ret len prot file off).isSome ↔
        (inorder s.maps.fileMapTreeRoot).length + (remappedLog E cs s₀).length < 2048)) ∧
    (2048 ≤ (inorder s.maps.fileMapTreeRoot).length + (remappedLog E cs s₀).length →
      ∀ fd buf nbytes pos, step E (.read fd buf nbytes pos) s = none) := by
  have hinv := treeInv_run (S := E.fileMapSlabs) (by rw [hs₀]; exact treeInv_init _) h
  have hpop := hinv.pop_isSome_iff
  refine ⟨fun ret len prot file off ht hpath => ?_, fun hfull fd buf nbytes pos => ?_⟩
  · rw [tsMmap_tracked ht hpath, isSome_register]
    exact hpop
  · have hnone : s.maps.fileMapTreeNodePool.pop = none := by
      rw [← Option.not_isSome_iff_eq_none, hpop]
      exact Nat.not_lt_of_le hfull
    have hfind : s.maps.findByFd fd = none := by
      simp only [findByFd, allocateFileMapTreeNode, hnone, Option.map_none, Option.bind_eq_bind,
        Option.bind_none]
    simp only [step, stepWith, tsRead, hfind, Option.bind_eq_bind, Option.bind_none]

/-- A file is mapped twice at one address. -/
def mappedTwice : List ApiCall :=
  (openAndMap 3 1 100 0x10000 0x1000 ++ [Call.mmap 0x10000 0x1000 1 3 0]).map .call

/-- Two nodes are in use for one mapping; there are enough left. -/
theorem mapping_capacity_mappedTwice : ∃ s,
    runAll (apiStep plainEnv) mappedTwice plainInit = some s ∧
    (inorder s.maps.fileMapTreeRoot).length = 1 ∧
    (remappedLog plainEnv mappedTwice plainInit).length = 1 ∧
    (s.maps.tsMmap plainLibc 0x20000 0x1000 1 3 0).isSome := by
  have hrun : (runAll (apiStep plainEnv) mappedTwice plainInit).any fun s =>
      decide ((inorder s.maps.fileMapTreeRoot).length = 1 ∧
        (remappedLog plainEnv mappedTwice plainInit).length = 1 ∧ s.maps.Tracked 1 3 ∧
        s.maps.getPath 3 ≠ 0) := by
    decide +kernel
  obtain ⟨s, hs, hall⟩ := (Option.any_eq_true _ _).1 hrun
  obtain ⟨htree, hlost, ht, hpath⟩ := of_decide_eq_true hall
  refine ⟨s, hs, htree, hlost, ((mapping_capacity rfl hs).1 0x20000 0x1000 1 3 0 ht hpath).2 ?_⟩
  show _ + (remappedLog plainEnv mappedTwice plainInit).length < 2048
  rw [htree, hlost]
  decide

/-! ## The strings -/

/-- One call: what it hands out or frees is what changes. -/
theorem count_effect {L : Libc} {M M' : FileMaps} {out fr re : List ℕ}
    (he : Effect L M out fr re M') (p : ℕ) :
    out.count p + (if M.pathLive p then 1 else 0) =
      fr.count p + if M'.pathLive p then 1 else 0 := by
  cases he with
  | handed path _ hnew _ hlive =>
    rw [hlive, Function.update_apply]
    by_cases hp : p = path
    · subst hp
      simp [hnew]
    · simp [hp, Ne.symm hp]
  | stored path _ _ hlive => rw [hlive]
  | registered _ _ hM => rw [(register_strings hM).2.2]
  | unmapped x _ hwas hlive =>
    rw [hlive, Function.update_apply]
    by_cases hp : p = M.nameKey x
    · subst hp
      simp [hwas]
    · simp [hp, Ne.symm hp]
  | closed x _ hlive => rw [hlive]

/-- `ts_munmap` of a mapping comes to its end exactly when its string can be freed. -/
theorem isSome_tsMunmap {S : Slabs 1 fileMapTreeNodePoolSize} {L : Libc} {M : FileMaps} {n : ℕ}
    (h : TreeInv S n M) {addr x : ℕ}
    (hf : tfind (byKey M.startKey addr) M.fileMapTreeRoot = some x) :
    (M.tsMunmap L addr).isSome ↔
      M.pathLive (M.nameKey x) = true ∨ M.callerLive (M.nameKey x) = true := by
  obtain ⟨q, hq⟩ := Option.isSome_iff_exists.1 (h.push_isSome L hf)
  cases hlive : M.pathLive (M.nameKey x) <;> cases hcaller : M.callerLive (M.nameKey x) <;>
    simp [tsMunmap, hf, freePath, withdrawFileMapTreeNode, setOpenFile, hlive, hcaller, hq]

theorem count_run {S : Slabs 1 fileMapTreeNodePoolSize} {cs : List ApiCall}
    (hs : TreeInv S 0 s₀.maps) (hfree : ∀ p, s₀.maps.pathLive p = false)
    (h : runAll (apiStep E) cs s₀ = some s) (p : ℕ) :
    (handedLog E cs s₀).count p =
      (freedLog E cs s₀).count p + if s.maps.pathLive p then 1 else 0 := by
  refine @runAll_history _ _ (apiStep E) s₀ s
    (fun cs s => (handedLog E cs s₀).count p =
      (freedLog E cs s₀).count p + if s.maps.pathLive p then 1 else 0) cs ?_
    (fun pre c t t' ht hbalance hc => ?_) h
  · simp [handedLog, freedLog, runLog, hfree]
  · have hcount := count_effect (effect_of_apiStep (treeInv_run hs ht) hc) p
    rw [handedLog, freedLog, runLog_concat c ht, runLog_concat c ht, List.count_append,
      List.count_append]
    simp only [handedLog, freedLog] at hbalance
    omega

/-- In every run each string from `realpath` is freed as often as it was handed out,
or once less, as long as it is live; and the `ts_munmap` of a mapping comes to its
end if and only if its string was handed out more often than it was freed, or is one
that a caller of `ts_openat` has allocated and nobody has freed. -/
theorem strings_balance {recMem : ℤ → MemRec} {recBlockEntries : ℕ → RecBlockEntry}
    {recTreeNodes : ℕ → RecTreeNode} {fileMapTreeNodes : ℕ → FileMapTreeNode} {mem : ℕ → UInt8}
    {cs : List ApiCall}
    (hs₀ : s₀ = initState E recMem recBlockEntries recTreeNodes fileMapTreeNodes mem)
    (h : runAll (apiStep E) cs s₀ = some s) :
    (∀ p, (handedLog E cs s₀).count p =
      (freedLog E cs s₀).count p + if s.maps.pathLive p then 1 else 0) ∧
    ∀ addr x, tfind (byKey s.maps.startKey addr) s.maps.fileMapTreeRoot = some x →
      ((apiStep E (.call (.munmap addr)) s).isSome ↔
        (freedLog E cs s₀).count (s.maps.nameKey x) <
            (handedLog E cs s₀).count (s.maps.nameKey x) ∨
          s.maps.callerLive (s.maps.nameKey x) = true) := by
  have hinit : TreeInv E.fileMapSlabs 0 s₀.maps := by
    rw [hs₀]
    exact treeInv_init _
  have hbalance := count_run hinit (fun p => by rw [hs₀]; rfl) h
  refine ⟨hbalance, fun addr x hf => ?_⟩
  have hsome : (apiStep E (.call (.munmap addr)) s).isSome = (s.maps.tsMunmap E.libc addr).isSome :=
    Option.isSome_map
  rw [hsome, isSome_tsMunmap (treeInv_run hinit h) hf, hbalance]
  refine or_congr_left ?_
  split
  · rename_i hlive
    exact iff_of_true hlive (Nat.lt_succ_self _)
  · rename_i hlive
    exact iff_of_false hlive (Nat.lt_irrefl _)

/-- A file is opened by `ts_openat`, with a string that is allocated or not, and
mapped. -/
def mappedOpenat (heap : Bool) : List ApiCall :=
  [.openat ⟨3, 1, 100, ['/', 'a'], heap, true⟩, .call (.mmap 0x10000 0x1000 1 3 0)]

/-- Unmapping the file ends the program if the string is not allocated. -/
theorem strings_balance_mappedOpenat :
    (∃ s, runAll (apiStep plainEnv) (mappedOpenat false) plainInit = some s ∧
      ¬ (apiStep plainEnv (.call (.munmap 0x10000)) s).isSome) ∧
    ∃ s, runAll (apiStep plainEnv) (mappedOpenat true) plainInit = some s ∧
      (apiStep plainEnv (.call (.munmap 0x10000)) s).isSome := by
  have hrun : ∀ heap, (runAll (apiStep plainEnv) (mappedOpenat heap) plainInit).any fun s =>
      decide (∃ x ∈ tfind (byKey s.maps.startKey 0x10000) s.maps.fileMapTreeRoot,
        (handedLog plainEnv (mappedOpenat heap) plainInit).count (s.maps.nameKey x) = 0 ∧
        s.maps.callerLive (s.maps.nameKey x) = heap) := by
    decide +kernel
  have hmunmap : ∀ heap, ∃ s, runAll (apiStep plainEnv) (mappedOpenat heap) plainInit = some s ∧
      ((apiStep plainEnv (.call (.munmap 0x10000)) s).isSome ↔ heap = true) := by
    intro heap
    obtain ⟨s, hs, hall⟩ := (Option.any_eq_true _ _).1 (hrun heap)
    obtain ⟨x, hx, hcount, hheap⟩ := of_decide_eq_true hall
    have hnone : ¬ (freedLog plainEnv (mappedOpenat heap) plainInit).count (s.maps.nameKey x) <
        (handedLog plainEnv (mappedOpenat heap) plainInit).count (s.maps.nameKey x) := by
      rw [hcount]
      exact Nat.not_lt_zero _
    refine ⟨s, hs, ((strings_balance rfl hs).2 0x10000 x hx).trans ((or_iff_right hnone).trans ?_)⟩
    rw [hheap]
  obtain ⟨s, hs, hstatic⟩ := hmunmap false
  obtain ⟨t, ht, hheap⟩ := hmunmap true
  exact ⟨⟨s, hs, fun hsome => by cases hstatic.1 hsome⟩, t, ht, hheap.2 rfl⟩

/-! ## Lost strings -/

/-- A mapping holds the string, or `ts_mmap` of some descriptor registers it. -/
def FileMaps.Held (M : FileMaps) (p : ℕ) : Prop :=
  (∃ x ∈ inorder M.fileMapTreeRoot, M.nameKey x = p) ∨
    ∃ fd : ℤ, -1 < fd ∧ M.getPath fd = p ∧ M.isMktmp p = false

/-- No call makes a live string held again. -/
theorem held_of_effect {L : Libc} {M M' : FileMaps} {out fr re : List ℕ}
    (he : Effect L M out fr re M') {p : ℕ}
    (hlive : M.pathLive p = true) (hheld : M'.Held p) : M.Held p := by
  have hstored : ∀ {path}, M.pathLive path = false → KeepsTree M M' →
      (∀ q ≠ path, M'.pathStr q = M.pathStr q) →
      (∀ i, M'.fd2Path i = M.fd2Path i ∨ M'.fd2Path i = path) → M.Held p := by
    intro path hnew ht hstr hpaths
    have hne : p ≠ path := by
      rintro rfl
      rw [hnew] at hlive
      cases hlive
    rcases hheld with ⟨x, hx, hname⟩ | ⟨fd, hfd, hpath, hmk⟩
    · rw [ht.root] at hx
      exact Or.inl ⟨x, hx, (ht.keys x hx).2.symm.trans hname⟩
    · refine Or.inr ⟨fd, hfd, ?_, ?_⟩
      · rcases hpaths (fd.tmod fileMapTreeNodePoolSize) with heq | heq
        · exact heq.symm.trans hpath
        · exact absurd (hpath.symm.trans heq) hne
      · rw [isMktmp, ← hstr p hne]
        exact hmk
  have hremoved : ∀ {x}, Removes L M M' x → M.Held p := by
    intro x hr
    obtain ⟨c, -, hroot⟩ := hr.root
    rcases hheld with ⟨z, hz, hname⟩ | ⟨fd, hfd, hpath, hmk⟩
    · rw [hroot] at hz
      refine Or.inl ⟨z, L.search.mem_of_mem_tdelete hz, ?_⟩
      rw [nameKey, ← hr.nodes]
      exact hname
    · refine Or.inr ⟨fd, hfd, ?_, ?_⟩
      · rw [getPath, ← hr.paths]
        exact hpath
      · rw [isMktmp, ← hr.str]
        exact hmk
  cases he with
  | handed path _ hnew ht _ hstr hpaths => exact hstored hnew ht hstr hpaths
  | stored path hnew ht _ hstr hpaths => exact hstored hnew ht hstr hpaths
  | @registered _ ret len off file hfile hmk hM =>
    obtain ⟨x, hpop, hnodes, hroot, -⟩ := register_eq_some hM
    obtain ⟨hpaths, hstr, -⟩ := register_strings hM
    rcases hheld with ⟨z, hz, hname⟩ | ⟨fd, hfd, hpath, hmk'⟩
    · by_cases hzx : z = x
      · -- the new mapping has the path of its descriptor
        rw [nameKey, hnodes, hzx, Function.update_self] at hname
        refine Or.inr ⟨file, hfile, hname, ?_⟩
        rw [← hname]
        exact hmk
      · rw [nameKey, hnodes, Function.update_of_ne hzx] at hname
        rw [hroot] at hz
        exact Or.inl ⟨z, (L.search.tsearch_mem hz).resolve_left hzx, hname⟩
    · rw [getPath, hpaths] at hpath
      rw [isMktmp, hstr] at hmk'
      exact Or.inr ⟨fd, hfd, hpath, hmk'⟩
  | unmapped x hr => exact hremoved hr
  | closed x hr => exact hremoved hr

/-- A string that is freed is the one of a mapping. -/
theorem held_of_freed {M : FileMaps} {c : ApiCall} {p : ℕ} (hp : p ∈ M.freed c) : M.Held p := by
  unfold freed at hp
  split at hp
  · obtain ⟨x, hx, rfl⟩ :=
      Option.map_eq_some_iff.1 (Option.mem_toList.1 (List.mem_filter.1 hp).1)
    exact Or.inl ⟨x, (tfind_eq_some hx).1, rfl⟩
  · cases hp

/-- A live string that nothing holds is never freed. -/
theorem held_of_freedLog {S : Slabs 1 fileMapTreeNodePoolSize} {n : ℕ} {cs : List ApiCall} {p : ℕ}
    (h : TreeInv S n s.maps) (hlive : s.maps.pathLive p = true) (hp : p ∈ freedLog E cs s) :
    s.maps.Held p := by
  by_contra hlost
  refine runLog_invariant (Q := fun q => q ≠ p)
    (P := fun s => (∃ n, TreeInv S n s.maps) ∧ s.maps.pathLive p = true ∧ ¬ s.maps.Held p)
    (fun c _ s s' hs hc => ?_) (fun c _ s hs q hq hqp => hs.2.2 (held_of_freed (hqp ▸ hq)))
    ⟨⟨n, h⟩, hlive, hlost⟩ p hp rfl
  obtain ⟨⟨n, hinv⟩, hlive, hlost⟩ := hs
  have he := effect_of_apiStep hinv hc
  refine ⟨⟨_, treeInv_effect hinv he⟩, ?_, fun hheld => hlost (held_of_effect he hlive hheld)⟩
  have hnot : (s.maps.freed c).count p = 0 :=
    List.count_eq_zero.2 fun hp => hlost (held_of_freed hp)
  have hcount := count_effect he p
  rw [hlive, hnot] at hcount
  by_contra hdead
  simp [hdead] at hcount

/-- The mapping of a live string can be unmapped. -/
theorem munmap_frees {S : Slabs 1 fileMapTreeNodePoolSize} {n : ℕ} {x : ℕ}
    (h : TreeInv S n s.maps) (hx : x ∈ inorder s.maps.fileMapTreeRoot)
    (hlive : s.maps.pathLive (s.maps.nameKey x) = true) :
    ∃ t, runAll (apiStep E) [.call (.munmap (s.maps.startKey x))] s = some t ∧
      s.maps.nameKey x ∈ freedLog E [.call (.munmap (s.maps.startKey x))] s := by
  have hf : tfind (byKey s.maps.startKey (s.maps.startKey x)) s.maps.fileMapTreeRoot = some x :=
    (tfind_byKey h.startSorted _ x).2 ⟨hx, rfl⟩
  obtain ⟨M, hM⟩ := Option.isSome_iff_exists.1
    ((isSome_tsMunmap (L := E.libc) h hf).2 (Or.inl hlive))
  refine ⟨{ s with maps := M }, ?_, ?_⟩
  · rw [runAll_cons_eq_some]
    exact ⟨_, by simp only [apiStep, step, stepWith, hM, Option.map_some], rfl⟩
  · refine List.mem_append_left _ ?_
    show s.maps.nameKey x ∈ (((tfind _ _).map s.maps.nameKey).toList).filter s.maps.pathLive
    rw [hf]
    exact List.mem_filter.2 ⟨List.mem_singleton_self _, hlive⟩

/-- Some page begins at an address that is not registered. -/
theorem exists_unregistered (M : FileMaps)
    (hroom : (inorder M.fileMapTreeRoot).length < fileMapTreeNodePoolSize) :
    ∃ k < fileMapTreeNodePoolSize, ∀ x ∈ inorder M.fileMapTreeRoot,
      M.startKey x ≠ (k + 1) * pageSize := by
  have hcard : ((inorder M.fileMapTreeRoot).map M.startKey).toFinset.card <
      ((Finset.range fileMapTreeNodePoolSize).image fun k => (k + 1) * pageSize).card := by
    rw [Finset.card_image_of_injective _ fun i j hij => by simpa using hij, Finset.card_range]
    refine (List.toFinset_card_le _).trans_lt ?_
    rwa [List.length_map]
  obtain ⟨a, ha, hnot⟩ := Finset.exists_mem_notMem_of_card_lt_card hcard
  obtain ⟨k, hk, rfl⟩ := Finset.mem_image.1 ha
  refine ⟨k, Finset.mem_range.1 hk, fun x hx heq => hnot ?_⟩
  rw [List.mem_toFinset, ← heq]
  exact List.mem_map_of_mem hx

/-- In every run a live path string that neither a mapping holds nor `ts_mmap` would
register is never freed by what follows; and one that is held is freed by two calls
at most, if the pool has a node. -/
theorem freed_iff_held {recMem : ℤ → MemRec} {recBlockEntries : ℕ → RecBlockEntry}
    {recTreeNodes : ℕ → RecTreeNode} {fileMapTreeNodes : ℕ → FileMapTreeNode} {mem : ℕ → UInt8}
    {cs : List ApiCall}
    (hs₀ : s₀ = initState E recMem recBlockEntries recTreeNodes fileMapTreeNodes mem)
    (h : runAll (apiStep E) cs s₀ = some s) {p : ℕ} (hlive : s.maps.pathLive p = true) :
    (∀ ds, p ∈ freedLog E ds s → s.maps.Held p) ∧
    (s.maps.Held p →
      (inorder s.maps.fileMapTreeRoot).length + (remappedLog E cs s₀).length < 2048 →
      ∃ ds t, ds.length ≤ 2 ∧ runAll (apiStep E) ds s = some t ∧ p ∈ freedLog E ds s) := by
  have hinv := treeInv_run (S := E.fileMapSlabs) (by rw [hs₀]; exact treeInv_init _) h
  refine ⟨fun ds => held_of_freedLog hinv hlive, fun hheld hroom => ?_⟩
  rcases hheld with ⟨x, hx, rfl⟩ | ⟨fd, hfd, rfl, hmk⟩
  · obtain ⟨t, ht, hp⟩ := munmap_frees hinv hx hlive
    exact ⟨[_], t, Nat.le_succ 1, ht, hp⟩
  -- the file is mapped where nothing is mapped yet, and unmapped again
  obtain ⟨k, -, hk⟩ := exists_unregistered s.maps (Nat.lt_of_le_of_lt (Nat.le_add_right _ _) hroom)
  have hnull : s.maps.getPath fd ≠ 0 := by
    intro hnull
    rw [hnull, hinv.null] at hlive
    cases hlive
  have ht : s.maps.Tracked 1 fd := ⟨by decide, hfd, hmk⟩
  obtain ⟨M, hM⟩ := Option.isSome_iff_exists.1
    ((isSome_register s.maps E.libc ((k + 1) * pageSize) pageSize fd 0).2
      (hinv.pop_isSome_iff.2 hroom))
  have hmap : apiStep E (.call (.mmap ((k + 1) * pageSize) pageSize 1 fd 0)) s =
      some { s with maps := M } := by
    simp only [apiStep, step, stepWith, tsMmap_tracked ht hnull, hM, Option.map_some]
  have hinv' := treeInv_effect hinv (effect_of_apiStep hinv hmap)
  obtain ⟨x, -, hself, hroot, hother⟩ := register_fresh hinv hM
  have hkeys : ∀ z ∈ inorder s.maps.fileMapTreeRoot, M.startKey z = s.maps.startKey z :=
    fun z hz => by rw [startKey, hother z hz]
  have hname : M.nameKey x = s.maps.getPath fd := by rw [nameKey, hself, mapNode]
  have hx : x ∈ inorder M.fileMapTreeRoot := by
    rw [hroot]
    refine (E.libc.search.perm_tsearch (hinv.startSorted.congr hkeys) fun z hz heq => ?_).mem_iff.2
      (List.mem_cons_self ..)
    rw [hkeys z hz, startKey, startKey, hself] at heq
    exact hk z hz heq
  obtain ⟨t, ht, hp⟩ := munmap_frees (E := E) (s := { s with maps := M }) hinv' hx
    (by rw [hname, (register_strings hM).2.2]; exact hlive)
  refine ⟨[_, _], t, le_rfl, runAll_cons_eq_some.2 ⟨_, hmap, ht⟩, ?_⟩
  rw [freedLog, runLog_cons, hmap]
  exact List.mem_append_right _ (hname ▸ hp)

/-- An empty file is opened by `ts_fopen`. -/
def openedEmpty : List ApiCall := [.fopen ⟨some (3, 1), some (100, ['/', 'a']), some 0⟩]

/-- Its path is never freed. -/
theorem freed_iff_held_openedEmpty : ∃ s,
    runAll (apiStep plainEnv) openedEmpty plainInit = some s ∧ s.maps.pathLive 100 = true ∧
      ∀ ds, 100 ∉ freedLog plainEnv ds s := by
  obtain ⟨s, hs, hlive, hroot, hpaths⟩ : ∃ s,
      runAll (apiStep plainEnv) openedEmpty plainInit = some s ∧ s.maps.pathLive 100 = true ∧
        s.maps.fileMapTreeRoot = .nil ∧ s.maps.fd2Path = fun _ => 0 :=
    ⟨_, rfl, rfl, rfl, rfl⟩
  refine ⟨s, hs, hlive, fun ds hp => ?_⟩
  rcases (freed_iff_held rfl hs hlive).1 ds hp with ⟨x, hx, -⟩ | ⟨fd, -, hpath, -⟩
  · rw [hroot] at hx
    cases hx
  · rw [getPath, hpaths] at hpath
    cases hpath

end Cidl
