import Cidl.Mappings.Agreement

/-!
# The table of live files

`openFileArray` has one slot for all descriptors with the same remainder modulo
1024.  `ts_mmap` stores its new node there, `ts_munmap` and `ts_close` clear the
slot of the node they take out, and none of them looks at what else the slot
stands for.  The reclaimer takes the records of a descriptor for dead when the
slot is empty.

So a slot is right as long as all mappings that share it are mappings of one
descriptor, and none of them is left when one of them goes (`TableCallOk`).
-/

namespace Cidl

open SearchTree

namespace FileMaps

variable {S : Slabs 1 fileMapTreeNodePoolSize} {L : Libc} {M M' : FileMaps}

/-- The slot of a descriptor. -/
def slotOf (fd : ℤ) : ℤ := fd.tmod maxFileNum

/-- For every mapping the slot of its descriptor holds a mapping of that descriptor. -/
def LiveTable (M : FileMaps) : Prop :=
  ∀ m ∈ inorder M.fileMapTreeRoot, ∃ y ∈ inorder M.fileMapTreeRoot,
    M.openFileArray (slotOf (M.fileMapTreeNodes m).fd) = some y ∧
      (M.fileMapTreeNodes y).fd = (M.fileMapTreeNodes m).fd

/-- The reclaimer keeps the records of the files that are mapped.  A record holds
the descriptor of its mapping as a `short`. -/
def RecordsLive (M : FileMaps) : Prop :=
  ∀ m ∈ inorder M.fileMapTreeRoot, ∀ r : MemRec, r.fd = toShort (M.fileMapTreeNodes m).fd →
    RecTree.isLive M.openFileArray r = true

/-! ## The invariant -/

/-- What is preserved.  Nodes that were registered under an address that was
mapped already are in use as well, but in no tree. -/
structure TableInv (S : Slabs 1 fileMapTreeNodePoolSize) (M : FileMaps) : Prop where
  startSorted : Sorted M.startKey M.fileMapTreeRoot
  owns : ∃ lost, M.fileMapTreeNodePool.Owns S (inorder M.fileMapTreeRoot ++ lost)
  live : M.LiveTable
  short : ∀ m ∈ inorder M.fileMapTreeRoot,
    slotOf (toShort (M.fileMapTreeNodes m).fd) = slotOf (M.fileMapTreeNodes m).fd

theorem TableInv.recordsLive (h : TableInv S M) : M.RecordsLive := by
  intro m hm r hr
  obtain ⟨y, -, hslot, -⟩ := h.live m hm
  rw [RecTree.isLive, hr]
  show (M.openFileArray (slotOf (toShort (M.fileMapTreeNodes m).fd))).isSome = true
  rw [h.short m hm, hslot]
  rfl

theorem tableInv_init (nodes : ℕ → FileMapTreeNode) : TableInv S (init S nodes) where
  startSorted := List.Pairwise.nil
  owns := ⟨[], Pool.owns_start⟩
  live _ hm := absurd hm List.not_mem_nil
  short _ hm := absurd hm List.not_mem_nil

/-- The invariant depends on the first tree, the pool, the table and two fields
of the nodes. -/
theorem TableInv.congr (h : TableInv S M) (hroot : M'.fileMapTreeRoot = M.fileMapTreeRoot)
    (hpool : M'.fileMapTreeNodePool = M.fileMapTreeNodePool)
    (htable : M'.openFileArray = M.openFileArray)
    (hnodes : ∀ x ∈ inorder M.fileMapTreeRoot, M'.startKey x = M.startKey x ∧
      (M'.fileMapTreeNodes x).fd = (M.fileMapTreeNodes x).fd) : TableInv S M' where
  startSorted := by
    rw [hroot]
    exact h.startSorted.congr fun x hx => (hnodes x hx).1
  owns := by
    rw [hroot, hpool]
    exact h.owns
  live m hm := by
    rw [hroot] at hm ⊢
    obtain ⟨y, hy, hslot, hfd⟩ := h.live m hm
    rw [htable, (hnodes m hm).2]
    exact ⟨y, hy, hslot, (hnodes y hy).2.trans hfd⟩
  short m hm := by
    rw [hroot] at hm
    rw [(hnodes m hm).2]
    exact h.short m hm

/-! ## Taking a mapping out -/

/-- A mapping goes, and no other one has its slot. -/
theorem tableInv_delete (h : TableInv S M) {c : ℕ → Ordering} {x : ℕ}
    (hfind : tfind c M.fileMapTreeRoot = some x) {pool : Pool}
    (hpush : M.fileMapTreeNodePool.push x = some pool)
    (halone : ∀ y ∈ inorder M.fileMapTreeRoot,
      slotOf (M.fileMapTreeNodes y).fd = slotOf (M.fileMapTreeNodes x).fd → y = x)
    (hroot : M'.fileMapTreeRoot = L.search.tdelete c M.fileMapTreeRoot)
    (hnodes : M'.fileMapTreeNodes = M.fileMapTreeNodes) (hpool : M'.fileMapTreeNodePool = pool)
    (htable : M'.openFileArray =
      Function.update M.openFileArray (slotOf (M.fileMapTreeNodes x).fd) none) :
    TableInv S M' := by
  have hmem := L.search.mem_tdelete hfind h.startSorted.nodup
  refine ⟨?_, ?_, fun m hm => ?_, fun m hm => ?_⟩
  · show Sorted (fun z => (M'.fileMapTreeNodes z).start) _
    rw [hroot, hnodes]
    exact L.search.sorted_tdelete h.startSorted c
  · obtain ⟨lost, howns⟩ := h.owns
    refine ⟨lost, ?_⟩
    rw [hroot, hpool]
    exact (howns.perm ((L.search.perm_tdelete hfind).append_right lost)).push hpush
  · rw [hroot, hmem] at hm
    obtain ⟨hm, hne⟩ := hm
    obtain ⟨y, hy, hslot, hfd⟩ := h.live m hm
    have hother : slotOf (M.fileMapTreeNodes m).fd ≠ slotOf (M.fileMapTreeNodes x).fd :=
      fun heq => hne (halone m hm heq)
    refine ⟨y, ?_, ?_, by rw [hnodes]; exact hfd⟩
    · rw [hroot, hmem]
      refine ⟨hy, fun hyx => hother ?_⟩
      rw [← hfd, hyx]
    · rw [htable, hnodes, Function.update_of_ne hother]
      exact hslot
  · rw [hroot, hmem] at hm
    rw [hnodes]
    exact h.short m hm.1

/-! ## Registering a mapping -/

/-- A new address: the other mappings of the slot are of the same descriptor.  An
address that is mapped already: there is no mapping of the slot. -/
def RegisterOk (M : FileMaps) (ret : ℕ) (file : ℤ) : Prop :=
  if ∃ x ∈ inorder M.fileMapTreeRoot, M.startKey x = ret then
    ∀ x ∈ inorder M.fileMapTreeRoot, slotOf (M.fileMapTreeNodes x).fd ≠ slotOf file
  else
    slotOf (toShort file) = slotOf file ∧ ∀ x ∈ inorder M.fileMapTreeRoot,
      slotOf (M.fileMapTreeNodes x).fd = slotOf file → (M.fileMapTreeNodes x).fd = file

instance (M : FileMaps) (ret : ℕ) (file : ℤ) : Decidable (M.RegisterOk ret file) :=
  inferInstanceAs (Decidable (ite _ _ _))

theorem tableInv_register (h : TableInv S M) {ret len off : ℕ} {file : ℤ}
    (hok : M.RegisterOk ret file) (hM : M.register L ret len file off = some M') :
    TableInv S M' := by
  obtain ⟨x, hpop, hnodes, hroot, -, -, htable⟩ := register_eq_some hM
  obtain ⟨lost, howns⟩ := h.owns
  have hfresh : x ∉ inorder M.fileMapTreeRoot := fun hx =>
    (List.nodup_cons.1 (howns.pop hpop).nodup_used).1 (List.mem_append_left _ hx)
  have hself : M'.fileMapTreeNodes x = M.mapNode ret len file off := by
    rw [hnodes, Function.update_self]
  have hother : ∀ z ∈ inorder M.fileMapTreeRoot, M'.fileMapTreeNodes z = M.fileMapTreeNodes z := by
    intro z hz
    rw [hnodes, Function.update_of_ne fun heq : z = x => hfresh (heq ▸ hz)]
  have hsorted : Sorted M'.startKey M.fileMapTreeRoot :=
    h.startSorted.congr fun z hz => by rw [startKey, hother z hz]
  have hkey : M'.startKey x = ret := by rw [startKey, hself, mapNode]
  have hkeys : ∀ z ∈ inorder M.fileMapTreeRoot, M'.startKey z = M.startKey z := by
    intro z hz
    rw [startKey, startKey, hother z hz]
  have hsorted' : Sorted M'.startKey M'.fileMapTreeRoot := by
    rw [hroot]
    exact L.search.sorted_tsearch hsorted x
  -- what the table holds for a mapping of another slot
  have hkept : ∀ z ∈ inorder M.fileMapTreeRoot,
      slotOf (M.fileMapTreeNodes z).fd ≠ slotOf file →
        M'.openFileArray (slotOf (M'.fileMapTreeNodes z).fd) =
          M.openFileArray (slotOf (M.fileMapTreeNodes z).fd) := by
    intro z hz hne
    rw [hother z hz, htable, Function.update_of_ne]
    exact hne
  unfold RegisterOk at hok
  split at hok
  · rename_i hmapped
    obtain ⟨y, hy, hyret⟩ := hmapped
    have hin : inorder M'.fileMapTreeRoot = inorder M.fileMapTreeRoot := by
      rw [hroot]
      exact L.search.inorder_tsearch_of_mem hsorted hy ((hkeys y hy).trans (hyret.trans hkey.symm))
    refine ⟨hsorted', ⟨x :: lost, ?_⟩, fun m hm => ?_, fun m hm => ?_⟩
    · rw [hin]
      exact (howns.pop hpop).perm List.perm_middle.symm
    · rw [hin] at hm ⊢
      obtain ⟨z, hz, hslot, hfd⟩ := h.live m hm
      rw [hkept m hm (hok m hm), hother m hm]
      exact ⟨z, hz, hslot, by rw [hother z hz]; exact hfd⟩
    · rw [hin] at hm
      rw [hother m hm]
      exact h.short m hm
  · rename_i hnew
    obtain ⟨hshort, hsame⟩ := hok
    have hperm : (inorder M'.fileMapTreeRoot).Perm (x :: inorder M.fileMapTreeRoot) := by
      rw [hroot]
      refine L.search.perm_tsearch hsorted fun z hz heq => hnew ⟨z, hz, ?_⟩
      rw [← hkeys z hz, heq, hkey]
    have hfile : (M'.fileMapTreeNodes x).fd = file := by rw [hself, mapNode]
    have hslotx : M'.openFileArray (slotOf file) = some x := by
      rw [htable]
      exact Function.update_self ..
    refine ⟨hsorted', ⟨lost, ?_⟩, fun m hm => ?_, fun m hm => ?_⟩
    · exact (howns.pop hpop).perm (hperm.symm.append_right lost)
    · rcases List.mem_cons.1 (hperm.mem_iff.1 hm) with rfl | hm
      · exact ⟨m, hm, by rw [hfile]; exact hslotx, rfl⟩
      · by_cases hslot : slotOf (M.fileMapTreeNodes m).fd = slotOf file
        · refine ⟨x, hperm.mem_iff.2 (List.mem_cons_self ..), ?_, ?_⟩
          · rw [hother m hm, hslot]
            exact hslotx
          · rw [hfile, hother m hm]
            exact (hsame m hm hslot).symm
        · obtain ⟨z, hz, hz', hfd⟩ := h.live m hm
          refine ⟨z, hperm.mem_iff.2 (List.mem_cons_of_mem _ hz), ?_, ?_⟩
          · rw [hkept m hm hslot]
            exact hz'
          · rw [hother z hz, hother m hm]
            exact hfd
    · rcases List.mem_cons.1 (hperm.mem_iff.1 hm) with rfl | hm
      · rw [hfile]
        exact hshort
      · rw [hother m hm]
        exact h.short m hm

/-! ## The other calls -/

theorem tableInv_tsOpen (h : TableInv S M) {a : OpenAnswer} (hM : M.tsOpen a = some M') :
    TableInv S M' := by
  unfold tsOpen at hM
  split at hM
  · cases hM
    exact h
  · dsimp only at hM
    split at hM
    · split at hM <;> cases hM
      exact h.congr rfl rfl rfl fun _ _ => ⟨rfl, rfl⟩
    · split at hM <;> cases hM
      exact h.congr rfl rfl rfl fun _ _ => ⟨rfl, rfl⟩

/-- No mapping but the one that `c` leads to has its slot. -/
def AloneOk (M : FileMaps) (c : ℕ → Ordering) : Prop :=
  ∀ x ∈ tfind c M.fileMapTreeRoot, ∀ y ∈ inorder M.fileMapTreeRoot,
    slotOf (M.fileMapTreeNodes y).fd = slotOf (M.fileMapTreeNodes x).fd → y = x

instance (M : FileMaps) (c : ℕ → Ordering) : Decidable (M.AloneOk c) :=
  inferInstanceAs (Decidable (∀ x ∈ _, ∀ y ∈ _, _ → _))

theorem tableInv_tsClose (h : TableInv S M) {result fd : ℤ}
    (hok : result ≠ -1 → M.getPath fd ≠ 0 → M.AloneOk (byKey M.nameKey (M.getPath fd)))
    (hM : M.tsClose L result fd = some M') : TableInv S M' := by
  unfold tsClose at hM
  split at hM
  · cases hM
    exact h
  · rename_i hresult
    dsimp only at hM
    split at hM
    · cases hM
      exact h.congr rfl rfl rfl fun _ _ => ⟨rfl, rfl⟩
    · rename_i hpath
      split at hM
      · cases hM
        exact h.congr rfl rfl rfl fun _ _ => ⟨rfl, rfl⟩
      · rename_i x hfind
        obtain ⟨pool, hpush, rfl⟩ := Option.map_eq_some_iff.1 hM
        exact tableInv_delete h hfind hpush (hok hresult hpath x hfind) rfl rfl rfl rfl

theorem tableInv_tsMunmap (h : TableInv S M) {addr : ℕ}
    (hok : M.AloneOk (byKey M.startKey addr)) (hM : M.tsMunmap L addr = some M') :
    TableInv S M' := by
  unfold tsMunmap at hM
  split at hM
  · cases hM
    exact h
  · rename_i x hfind
    simp only [withdrawFileMapTreeNode, Option.bind_eq_bind, Option.bind_eq_some_iff,
      Option.map_eq_some_iff] at hM
    obtain ⟨M₁, hM₁, pool, hpush, rfl⟩ := hM
    obtain ⟨live, caller, rfl⟩ := freePath_eq_some hM₁
    exact tableInv_delete h hfind hpush (hok x hfind) rfl rfl rfl rfl

theorem tableInv_countUse (h : TableInv S M) (x : ℕ) : TableInv S (M.countUse x) := by
  refine h.congr rfl rfl rfl fun z _ => ?_
  by_cases hz : z = x
  · subst hz
    simp [startKey, countUse, setMapNode]
  · simp [startKey, countUse, setMapNode, Function.update_of_ne hz]

theorem tableInv_findByFd (h : TableInv S M) {fd : ℤ} {x : ℕ}
    (hM : M.findByFd fd = some (x, M')) : TableInv S M' := by
  simp only [findByFd, allocateFileMapTreeNode, withdrawFileMapTreeNode, Option.bind_eq_bind,
    Option.bind_eq_some_iff, Option.map_eq_some_iff, Option.some.injEq, Prod.mk.injEq] at hM
  obtain ⟨r, ⟨⟨y, pool⟩, hpop, rfl⟩, M₁, ⟨pool', hpush, rfl⟩, found, -, -, rfl⟩ := hM
  obtain ⟨lost, howns⟩ := h.owns
  have hfresh : y ∉ inorder M.fileMapTreeRoot := fun hy =>
    (List.nodup_cons.1 (howns.pop hpop).nodup_used).1 (List.mem_append_left _ hy)
  have hsame : pool' = M.fileMapTreeNodePool := push_of_pop hpop hpush
  refine h.congr rfl hsame rfl fun z hz => ?_
  have hne : z ≠ y := fun heq => hfresh (heq ▸ hz)
  simp [startKey, setMapNode, Function.update_of_ne hne]

end FileMaps

/-! ## Runs -/

variable {E : Env} {s s' : State}

/-- When a call keeps the table right: a mapping that is registered meets only
mappings of its own descriptor in its slot, and a mapping that is taken out is
the last one of its slot. -/
def TableCallOk : Call → State → Prop
  | .mmap ret _ prot file _, s => s.maps.Tracked prot file → s.maps.RegisterOk ret file
  | .munmap addr, s => s.maps.AloneOk (byKey s.maps.startKey addr)
  | .close result fd, s => result ≠ -1 → s.maps.getPath fd ≠ 0 →
      s.maps.AloneOk (byKey s.maps.nameKey (s.maps.getPath fd))
  | _, _ => True

instance : (c : Call) → (s : State) → Decidable (TableCallOk c s)
  | .mmap .., _ | .munmap _, _ | .close .., _ => by dsimp only [TableCallOk]; infer_instance
  | .open _, _ | .memcpy .., _ | .memcpyTraced .., _ | .realloc .., _
  | .read .., _ | .write .., _ | .fwrite .., _ | .store .., _ => instDecidableTrue

theorem tableInv_step {S : Slabs 1 fileMapTreeNodePoolSize} {c : Call}
    (h : FileMaps.TableInv S s.maps) (hok : TableCallOk c s) (hstep : step E c s = some s') :
    FileMaps.TableInv S s'.maps := by
  have hmaps := mapsStep_of_step hstep
  generalize s'.maps = M' at hmaps ⊢
  cases hmaps with
  | same => exact h
  | opened hM => exact FileMaps.tableInv_tsOpen h hM
  | closed hM => exact FileMaps.tableInv_tsClose h hok hM
  | registered ht hM => exact FileMaps.tableInv_register h (hok ht) hM
  | unmapped hM => exact FileMaps.tableInv_tsMunmap h hok hM
  | used _ x => exact FileMaps.tableInv_countUse h x
  | borrowed hM h' =>
    have hM := FileMaps.tableInv_findByFd h hM
    rcases h' with rfl | ⟨y, rfl⟩
    · exact hM
    · exact FileMaps.tableInv_countUse hM y

/-- In every state that a run of such calls reaches, every mapping has a mapping of
its descriptor in the table, and the reclaimer keeps the records of its file. -/
theorem reachable_liveTable {recMem : ℤ → MemRec} {recBlockEntries : ℕ → RecBlockEntry}
    {recTreeNodes : ℕ → RecTreeNode} {fileMapTreeNodes : ℕ → FileMapTreeNode} {mem : ℕ → UInt8}
    {cs : List Call}
    (hok : Meets TableCallOk (step E) cs
      (initState E recMem recBlockEntries recTreeNodes fileMapTreeNodes mem))
    (h : runAll (step E) cs
      (initState E recMem recBlockEntries recTreeNodes fileMapTreeNodes mem) = some s) :
    s.maps.LiveTable ∧ s.maps.RecordsLive := by
  have hinv : FileMaps.TableInv E.fileMapSlabs s.maps :=
    runAll_guarded (P := fun s => FileMaps.TableInv E.fileMapSlabs s.maps)
      (fun _ _ _ h hok hstep => tableInv_step h hok hstep) (FileMaps.tableInv_init _) hok h
  exact ⟨hinv.live, hinv.recordsLive⟩

/-- Two mappings of one file are still there when another one goes. -/
def threeMappings : List Call :=
  [.open ⟨3, 1, some (200, ['/', 'a']), true⟩, .open ⟨4, 2, some (100, ['/', 'b']), true⟩,
    .mmap 0x1000 0x1000 1 3 0, .mmap 0x3000 0x1000 1 3 0x1000, .mmap 0x5000 0x1000 1 4 0]

theorem reachable_liveTable_threeMappings : ∃ s,
    plainRun (threeMappings ++ [.munmap 0x5000]) = some s ∧
      (inorder s.maps.fileMapTreeRoot).length = 2 ∧ s.maps.LiveTable ∧ s.maps.RecordsLive := by
  have hrun : (runAll (guarded TableCallOk (step plainEnv))
      (threeMappings ++ [.munmap 0x5000]) plainInit).any fun s =>
        decide ((inorder s.maps.fileMapTreeRoot).length = 2) := by
    decide +kernel
  obtain ⟨s, hs, hlen⟩ := (Option.any_eq_true _ _).1 hrun
  obtain ⟨hok, hrun⟩ := meets_of_checked (fun _ _ _ => guarded_eq_some) hs
  exact ⟨s, hrun, of_decide_eq_true hlen, reachable_liveTable hok hrun⟩

/-- When one of the two is unmapped, the slot is empty and the other one is not. -/
theorem threeMappings_emptySlot : ∃ s, plainRun (threeMappings ++ [.munmap 0x3000]) = some s ∧
    Reachable plainEnv s ∧ ¬ s.maps.LiveTable := by
  have hrun : (plainRun (threeMappings ++ [.munmap 0x3000])).any fun s =>
      decide (∃ m ∈ inorder s.maps.fileMapTreeRoot,
        s.maps.openFileArray (FileMaps.slotOf (s.maps.fileMapTreeNodes m).fd) = none) := by
    decide +kernel
  obtain ⟨s, hs, hm⟩ := (Option.any_eq_true _ _).1 hrun
  obtain ⟨m, hm, hslot⟩ := of_decide_eq_true hm
  refine ⟨s, hs, reachable_plainRun hs, fun hlive => ?_⟩
  obtain ⟨y, -, hsome, -⟩ := hlive m hm
  rw [hslot] at hsome
  cases hsome

end Cidl
