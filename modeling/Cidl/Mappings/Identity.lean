import Cidl.Mappings.Agreement
import Cidl.Records.Counts
import Cidl.Records.Frame
import Cidl.Records.Order

/-!
# Records and the files they came from

A record names its file by the address of a path string, and so does a mapping.
`ts_munmap` frees the string while records still hold its address, and a later
`ts_open` may be given the same address for the path of another file; from then
on those records are compared with that file.

`SameFile` says that this has not happened: a record and the mapping that
`cmpWrite` finds for it are of one file.  It follows from an invariant that
mentions no pair of objects (`Identity`): what a record or a mapping is of is
the file whose path was last stored at the address it holds.  `IdentityOk` is
what keeps that true.
-/

namespace Cidl

open SearchTree

/-! ## The invariant -/

/-- A record is never compared with another file. -/
def SameFile (s : State) : Prop :=
  ∀ p ∈ s.tree.nodes, ∀ r ∈ s.tree.records p, ∀ f, r.origin = some f →
    ∀ m, tfind (byKey s.maps.nameKey r.fileName) s.maps.fileMapNameTreeRoot = some m →
      (s.maps.fileMapTreeNodes m).file = some f

/-- A mapping is of the file whose path is at the address it holds. -/
def FileMaps.NodeOk (M : FileMaps) (x : ℕ) : Prop :=
  ∃ f, (M.fileMapTreeNodes x).file = some f ∧
    M.pathFile (M.fileMapTreeNodes x).fileName = some f

/-- A record that was made is of the file whose path is at the address it holds. -/
def FileMaps.RecOk (M : FileMaps) (r : MemRec) : Prop :=
  ∀ f, r.origin = some f → M.pathFile r.fileName = some f

/-- All slots and all mappings in the trees are in order. -/
structure Identity (s : State) : Prop where
  slots : ∀ a, s.maps.RecOk (s.tree.recMem a)
  start : ∀ x ∈ inorder s.maps.fileMapTreeRoot, s.maps.NodeOk x
  name : ∀ x ∈ inorder s.maps.fileMapNameTreeRoot, s.maps.NodeOk x

theorem mem_recMem_of_mem_records {T : RecTree} {p : ℕ} {r : MemRec} (h : r ∈ T.records p) :
    ∃ a, T.recMem a = r := by
  have hblock : ∀ e k, r ∈ T.blockRecs e k → ∃ a, T.recMem a = r := by
    intro e k hr
    obtain ⟨i, -, hi⟩ := List.mem_map.1 hr
    exact ⟨_, hi⟩
  unfold RecTree.records at h
  cases hb : T.blocks p with
  | nil =>
    rw [hb] at h
    cases h
  | cons e older =>
    rw [hb, RecTree.recordsOf] at h
    rcases List.mem_append.1 h with h | h
    · obtain ⟨f, -, hf⟩ := List.mem_flatMap.1 h
      exact hblock f _ hf
    · exact hblock e _ h

theorem Identity.sameFile {s : State} (h : Identity s) : SameFile s := by
  intro p _ r hr f hf m hm
  obtain ⟨a, rfl⟩ := mem_recMem_of_mem_records hr
  obtain ⟨hmem, hkey⟩ := tfind_eq_some hm
  obtain ⟨g, hfile, hpath⟩ := h.name m hmem
  have hname : (s.tree.recMem a).fileName = (s.maps.fileMapTreeNodes m).fileName :=
    compare_eq_iff_eq.1 hkey
  rw [← hname, h.slots a f hf] at hpath
  rw [hfile, hpath]

/-! ## What keeps it -/

/-- When a call keeps records and files together.  `ts_open` stores the path at
an address that no record and no mapping of another file still holds; `ts_mmap`
maps a file whose path is at the address that `GETPATH` yields.  `ts_read` is
not considered here. -/
def IdentityOk : Call → State → Prop
  | .open a, s => a.fd ≠ -1 → ∀ path ∈ a.abpath,
      (∀ i, (s.tree.recMem i).fileName = path.1 →
        ∀ f ∈ (s.tree.recMem i).origin, f = a.file) ∧
      ∀ x ∈ inorder s.maps.fileMapTreeRoot ++ inorder s.maps.fileMapNameTreeRoot,
        (s.maps.fileMapTreeNodes x).fileName = path.1 →
          (s.maps.fileMapTreeNodes x).file = some a.file
  | .mmap ret _ prot file _, s => prot &&& mapAnonymous = 0 → -1 < file →
      ret ≠ mapFailed ∧ (s.maps.fdFile file).isSome ∧
        s.maps.pathFile (s.maps.getPath file) = s.maps.fdFile file
  | .read .., _ => False
  | _, _ => True

namespace FileMaps

variable {L : Libc} {M M' : FileMaps}

/-- The mappings in both trees are in order. -/
def NodesOk (M : FileMaps) : Prop :=
  ∀ x ∈ inorder M.fileMapTreeRoot ++ inorder M.fileMapNameTreeRoot, M.NodeOk x

/-- Trees that have lost nodes, over the same nodes and paths. -/
theorem NodesOk.congr (h : M.NodesOk)
    (hmem : ∀ x ∈ inorder M'.fileMapTreeRoot ++ inorder M'.fileMapNameTreeRoot,
      x ∈ inorder M.fileMapTreeRoot ++ inorder M.fileMapNameTreeRoot)
    (hnodes : ∀ x, (M'.fileMapTreeNodes x).fileName = (M.fileMapTreeNodes x).fileName ∧
      (M'.fileMapTreeNodes x).file = (M.fileMapTreeNodes x).file)
    (hpath : M'.pathFile = M.pathFile) : M'.NodesOk := by
  intro x hx
  obtain ⟨f, hfile, hname⟩ := h x (hmem x hx)
  refine ⟨f, (hnodes x).2.trans hfile, ?_⟩
  rw [(hnodes x).1, hpath, hname]

theorem tdelete_append_subset (c c' : ℕ → Ordering) (t t' : BinaryTree ℕ) :
    ∀ x ∈ inorder (L.search.tdelete c t) ++ inorder (L.search.tdelete c' t'),
      x ∈ inorder t ++ inorder t' := by
  intro x hx
  rcases List.mem_append.1 hx with hx | hx
  · exact List.mem_append_left _ (L.search.mem_of_mem_tdelete hx)
  · exact List.mem_append_right _ (L.search.mem_of_mem_tdelete hx)

theorem nodesOk_tsClose (h : M.NodesOk) {result fd : ℤ} (hM : M.tsClose L result fd = some M') :
    M'.NodesOk ∧ M'.pathFile = M.pathFile := by
  unfold tsClose at hM
  split at hM
  · cases hM
    exact ⟨h, rfl⟩
  · dsimp only at hM
    split at hM
    · cases hM
      exact ⟨h, rfl⟩
    · split at hM
      · cases hM
        exact ⟨h, rfl⟩
      · obtain ⟨pool, -, rfl⟩ := Option.map_eq_some_iff.1 hM
        exact ⟨h.congr (tdelete_append_subset _ _ _ _) (fun _ => ⟨rfl, rfl⟩) rfl, rfl⟩

theorem nodesOk_tsMunmap (h : M.NodesOk) {addr : ℕ} (hM : M.tsMunmap L addr = some M') :
    M'.NodesOk ∧ M'.pathFile = M.pathFile := by
  unfold tsMunmap at hM
  split at hM
  · cases hM
    exact ⟨h, rfl⟩
  · simp only [withdrawFileMapTreeNode, Option.bind_eq_bind, Option.bind_eq_some_iff,
      Option.map_eq_some_iff] at hM
    obtain ⟨M₁, hM₁, pool, -, rfl⟩ := hM
    obtain ⟨live, caller, rfl⟩ := freePath_eq_some hM₁
    exact ⟨h.congr (tdelete_append_subset _ _ _ _) (fun _ => ⟨rfl, rfl⟩) rfl, rfl⟩

/-- The new mapping is of the file behind the descriptor. -/
theorem nodesOk_register (h : M.NodesOk) {ret len off : ℕ} {file : ℤ} (hret : ret ≠ mapFailed)
    {f : FileId} (hfile : M.fdFile file = some f) (hpath : M.pathFile (M.getPath file) = some f)
    (hM : M.register L ret len file off = some M') :
    M'.NodesOk ∧ M'.pathFile = M.pathFile := by
  obtain ⟨x, -, hnodes, hroot, hroot', hpath', -⟩ := register_eq_some hM
  refine ⟨fun z hz => ?_, hpath'⟩
  rw [NodeOk, hnodes, hpath']
  by_cases hzx : z = x
  · subst hzx
    rw [Function.update_self]
    exact ⟨f, (if_neg hret).trans hfile, hpath⟩
  · rw [Function.update_of_ne hzx]
    rw [hroot, hroot'] at hz
    refine h z ?_
    rcases List.mem_append.1 hz with hz | hz
    · exact List.mem_append_left _ ((L.search.tsearch_mem hz).resolve_left hzx)
    · exact List.mem_append_right _ ((L.search.tsearch_mem hz).resolve_left hzx)

theorem nodesOk_tsMmap (h : M.NodesOk) {ret len prot off : ℕ} {file : ℤ}
    (hok : prot &&& mapAnonymous = 0 → -1 < file → ret ≠ mapFailed ∧ (M.fdFile file).isSome ∧
      M.pathFile (M.getPath file) = M.fdFile file)
    (hM : M.tsMmap L ret len prot file off = some M') :
    M'.NodesOk ∧ M'.pathFile = M.pathFile := by
  unfold tsMmap at hM
  split at hM
  · rename_i htracked
    split at hM
    · cases hM
    · split at hM
      · cases hM
        exact ⟨h, rfl⟩
      · obtain ⟨hret, hsome, hfile⟩ := hok htracked.1 htracked.2
        obtain ⟨f, hf⟩ := Option.isSome_iff_exists.1 hsome
        exact nodesOk_register h hret hf (hfile.trans hf) hM
  · cases hM
    exact ⟨h, rfl⟩

theorem nodesOk_countUse (h : M.NodesOk) (x : ℕ) : (M.countUse x).NodesOk := by
  refine h.congr (fun _ hz => hz) (fun z => ?_) rfl
  by_cases hz : z = x
  · subst hz
    simp [countUse, setMapNode]
  · simp [countUse, setMapNode, Function.update_of_ne hz]

end FileMaps

/-! ## Insertions -/

section

variable {L : Libc} {T T' : RecTree} {ofa : ℤ → Option ℕ} {Q : MemRec → Prop}

/-- A property of all slots that the inserted record has too. -/
theorem slots_insertRec (h : ∀ a, Q (T.recMem a)) {c : InsertCall}
    (hc : Q (RecTree.recordOf c (addr2PageNum c.dest)))
    (hT : RecTree.insertRec L ofa c T = some T') : ∀ a, Q (T'.recMem a) := by
  intro a
  rcases RecTree.insertRec_slots hT a with heq | ⟨b, heq⟩
  · rw [heq]
    exact hc
  · rw [heq]
    exact h b

/-- A copied record has the file and the path of the one it was copied from. -/
theorem recOk_of_copies {M : FileMaps} (h : ∀ a, M.RecOk (T.recMem a)) {c : InsertCall}
    (hc : RecTree.Copies c T) : M.RecOk (RecTree.recordOf c (addr2PageNum c.dest)) := by
  obtain ⟨a, -, hname, -, horigin⟩ := hc
  intro f hf
  show M.pathFile c.fileName = some f
  rw [hname]
  exact h a f (horigin ▸ hf)

end

/-! ## Runs -/

variable {E : Env} {s s' : State}

theorem identity_of_nodesOk (hslots : ∀ a, s.maps.RecOk (s.tree.recMem a))
    (hnodes : s.maps.NodesOk) : Identity s where
  slots := hslots
  start x hx := hnodes x (List.mem_append_left _ hx)
  name x hx := hnodes x (List.mem_append_right _ hx)

theorem Identity.nodesOk (h : Identity s) : s.maps.NodesOk := fun x hx =>
  (List.mem_append.1 hx).elim (h.start x) (h.name x)

theorem Identity.of_maps (h : Identity s) {M : FileMaps}
    (hM : M.NodesOk ∧ M.pathFile = s.maps.pathFile) : Identity { s with maps := M } := by
  refine identity_of_nodesOk (fun a => ?_) hM.1
  rw [FileMaps.RecOk, hM.2]
  exact h.slots a

/-- A path is stored over one that nothing of another file still holds. -/
theorem identity_open (h : Identity s) {a : OpenAnswer} (hok : IdentityOk (.open a) s)
    {M : FileMaps} (hM : s.maps.tsOpen a = some M) : Identity { s with maps := M } := by
  unfold FileMaps.tsOpen at hM
  split at hM
  · cases hM
    exact h
  · rename_i hfd
    dsimp only at hM
    split at hM
    · split at hM <;> cases hM
      exact identity_of_nodesOk h.slots h.nodesOk
    · rename_i path str habpath
      split at hM <;> cases hM
      obtain ⟨hrecs, hmaps⟩ := hok hfd _ habpath
      refine identity_of_nodesOk (fun i f hf => ?_) fun x hx => ?_
      · show Function.update s.maps.pathFile path _ (s.tree.recMem i).fileName = some f
        by_cases hpath : (s.tree.recMem i).fileName = path
        · rw [hpath, Function.update_self, hrecs i hpath f hf]
        · rw [Function.update_of_ne hpath]
          exact h.slots i f hf
      · obtain ⟨f, hfile, hname⟩ := h.nodesOk x hx
        refine ⟨f, hfile, ?_⟩
        show Function.update s.maps.pathFile path _ (s.maps.fileMapTreeNodes x).fileName = some f
        by_cases hpath : (s.maps.fileMapTreeNodes x).fileName = path
        · rw [hpath, Function.update_self, ← hfile, hmaps x hx hpath]
        · rw [Function.update_of_ne hpath]
          exact hname

/-- A copy out of a mapping makes a record of the file that the mapping shows. -/
theorem identity_copyRecorded (h : Identity s) {dest src n : ℕ} {fmNode : Option ℕ}
    (hmem : ∀ x ∈ fmNode, x ∈ inorder s.maps.fileMapTreeRoot)
    (hs' : copyRecorded (RecTree.insertRec E.libc) dest src n fmNode s = some s') :
    Identity s' := by
  unfold copyRecorded at hs'
  split at hs'
  · cases hs'
    exact identity_of_nodesOk h.slots h.nodesOk
  · rename_i x
    obtain ⟨T, hT, rfl⟩ := Option.map_eq_some_iff.1 hs'
    refine identity_of_nodesOk (slots_insertRec h.slots ?_ hT)
      (FileMaps.nodesOk_countUse h.nodesOk x)
    obtain ⟨f, hfile, hname⟩ := h.start x (hmem x rfl)
    intro g hg
    have hgf : (s.maps.fileMapTreeNodes x).file = some g := hg
    rw [hfile] at hgf
    exact hname.trans hgf

theorem identity_step {c : Call} (h : Identity s) (hok : IdentityOk c s)
    (hstep : step E c s = some s') : Identity s' := by
  have hins : ∀ {ofa c T T'}, RecTree.Copies c T → (∀ a, s.maps.RecOk (T.recMem a)) →
      RecTree.insertRec E.libc ofa c T = some T' → ∀ a, s.maps.RecOk (T'.recMem a) :=
    fun hc hT hT' => slots_insertRec hT (recOk_of_copies hT hc) hT'
  cases c with
  | «open» a =>
    obtain ⟨M, hM, rfl⟩ := Option.map_eq_some_iff.1 hstep
    exact identity_open h hok hM
  | close result fd =>
    obtain ⟨M, hM, rfl⟩ := Option.map_eq_some_iff.1 hstep
    exact h.of_maps (FileMaps.nodesOk_tsClose h.nodesOk hM)
  | mmap ret len prot file off =>
    obtain ⟨M, hM, rfl⟩ := Option.map_eq_some_iff.1 hstep
    exact h.of_maps (FileMaps.nodesOk_tsMmap h.nodesOk hok hM)
  | munmap addr =>
    obtain ⟨M, hM, rfl⟩ := Option.map_eq_some_iff.1 hstep
    exact h.of_maps (FileMaps.nodesOk_tsMunmap h.nodesOk hM)
  | memcpy dest src n =>
    exact identity_copyRecorded h (fun x hx => (tfind_eq_some hx).1) hstep
  | memcpyTraced dest src n =>
    obtain ⟨T, hT, rfl⟩ := Option.map_eq_some_iff.1 hstep
    refine identity_of_nodesOk ?_ h.nodesOk
    exact RecTree.tsMemcpyTraced_invariant (P := fun T => ∀ a, s.maps.RecOk (T.recMem a))
      (fun _ _ _ => hins) h.slots (fun _ _ _ _ _ _ => h.slots) hT
  | realloc ret ptr tail =>
    obtain ⟨T, hT, rfl⟩ := Option.map_eq_some_iff.1 hstep
    refine identity_of_nodesOk ?_ h.nodesOk
    exact RecTree.tsRealloc_invariant (P := fun T => ∀ a, s.maps.RecOk (T.recMem a))
      (fun _ _ _ => hins) h.slots hT
  | read fd buf nbytes pos => exact hok.elim
  | write buf length =>
    cases hstep
    exact identity_of_nodesOk h.slots h.nodesOk
  | fwrite buf size n =>
    cases hstep
    exact identity_of_nodesOk h.slots h.nodesOk
  | store addr b =>
    cases hstep
    exact identity_of_nodesOk h.slots h.nodesOk

/-- In every state that a run of such calls reaches, the mapping that is found
for a record is of the file the record was made from. -/
theorem reachable_sameFile {recMem : ℤ → MemRec} {recBlockEntries : ℕ → RecBlockEntry}
    {recTreeNodes : ℕ → RecTreeNode} {fileMapTreeNodes : ℕ → FileMapTreeNode} {mem : ℕ → UInt8}
    {cs : List Call}
    (hok : Meets IdentityOk (step E) cs
      (initState E recMem recBlockEntries recTreeNodes fileMapTreeNodes mem))
    (h : runAll (step E) cs
      (initState E recMem recBlockEntries recTreeNodes fileMapTreeNodes mem) = some s) :
    SameFile s := by
  have hinit : Identity (initState E recMem recBlockEntries recTreeNodes fileMapTreeNodes mem) :=
    identity_of_nodesOk (fun _ _ hf => nomatch hf) fun _ hx => nomatch hx
  have hs : Identity s :=
    runAll_guarded (fun _ _ _ h hok hstep => identity_step h hok hstep) hinit hok h
  exact hs.sameFile

/-- Before the first insertion no slot has an origin. -/
def Unrecorded (s : State) : Prop := s.tree.calls = [] → ∀ a, (s.tree.recMem a).origin = none

theorem unrecorded_step {c : Call} (h : Unrecorded s) (hstep : step E c s = some s') :
    Unrecorded s' := by
  have hins : ∀ {ofa c T T'}, RecTree.insertRec E.libc ofa c T = some T' →
      (T'.calls = [] → ∀ a, (T'.recMem a).origin = none) := by
    intro ofa c T T' hT hcalls
    rw [RecTree.insertRec_calls hT] at hcalls
    simp at hcalls
  unfold Unrecorded
  rcases stepWith_tree hstep with heq | ⟨ofa, call, hT⟩ | ⟨ofa, dest, src, n, -, hT⟩ |
    ⟨ofa, ret, ptr, tail, hT⟩
  · rw [heq]
    exact h
  · exact hins hT
  · exact RecTree.tsMemcpyTraced_invariant (P := fun T : RecTree => T.calls = [] →
      ∀ a, (T.recMem a).origin = none) (fun _ _ _ _ _ => hins) h (fun _ _ _ _ _ _ => h) hT
  · exact RecTree.tsRealloc_invariant (P := fun T : RecTree => T.calls = [] →
      ∀ a, (T.recMem a).origin = none) (fun _ _ _ _ _ => hins) h hT

/-- A condition that can be decided: files are opened before the first insertion. -/
def OpensFirst : Call → State → Prop
  | .open a, s => s.tree.calls = [] ∧ ∀ path ∈ a.abpath,
      ∀ x ∈ inorder s.maps.fileMapTreeRoot ++ inorder s.maps.fileMapNameTreeRoot,
        (s.maps.fileMapTreeNodes x).fileName = path.1 →
          (s.maps.fileMapTreeNodes x).file = some a.file
  | .mmap ret _ prot file _, s => prot &&& mapAnonymous = 0 → -1 < file →
      ret ≠ mapFailed ∧ (s.maps.fdFile file).isSome ∧
        s.maps.pathFile (s.maps.getPath file) = s.maps.fdFile file
  | .read .., _ => False
  | _, _ => True

instance : (c : Call) → (s : State) → Decidable (OpensFirst c s)
  | .open _, _ | .mmap .., _ => by dsimp only [OpensFirst]; infer_instance
  | .read .., _ => instDecidableFalse
  | .close .., _ | .munmap _, _ | .memcpy .., _ | .memcpyTraced .., _ | .realloc .., _
  | .write .., _ | .fwrite .., _ | .store .., _ => instDecidableTrue

theorem identityOk_of_opensFirst {c : Call} (h : Unrecorded s) (hok : OpensFirst c s) :
    IdentityOk c s := by
  cases c with
  | «open» a =>
    intro _ path hpath
    refine ⟨fun i _ f hf => ?_, hok.2 path hpath⟩
    rw [h hok.1 i] at hf
    cases hf
  | mmap ret len prot file off => exact hok
  | read fd buf nbytes pos => exact hok
  | _ => trivial

/-- Two files are mapped, bytes of the first are copied, and the copy is moved
and written out; then the first file is unmapped. -/
def copyAndMove : List Call := openAndMap 3 1 100 0x10000 0x1000 ++
  openAndMap 4 2 200 0x20000 0x1000 ++
  [.memcpy 0x500000 0x10000 8, .memcpyTraced 0x600000 0x500000 8, .write 0x600000 8,
    .munmap 0x10000]

theorem reachable_sameFile_copyAndMove : ∃ s, plainRun copyAndMove = some s ∧
    s.tree.calls.length = 2 ∧ SameFile s := by
  have hrun : (runAll (guarded OpensFirst (step plainEnv)) copyAndMove plainInit).any fun s =>
      decide (s.tree.calls.length = 2) := by
    decide +kernel
  obtain ⟨s, hs, hlen⟩ := (Option.any_eq_true _ _).1 hrun
  obtain ⟨hok, hrun⟩ := meets_of_checked (fun _ _ _ => guarded_eq_some) hs
  have hok' : Meets IdentityOk (step plainEnv) copyAndMove plainInit :=
    Meets.imp (fun _ _ _ => unrecorded_step) (fun _ _ => identityOk_of_opensFirst)
      (fun _ _ => rfl) hok
  exact ⟨s, hrun, of_decide_eq_true hlen, reachable_sameFile hok' hrun⟩

/-- A file is mapped, copied from and unmapped; the next file that is opened gets
the address of its path, and is mapped. -/
def reusedPath : List Call := openAndMap 3 1 100 0x10000 0x1000 ++
  [.memcpy 0x500000 0x10000 8, .munmap 0x10000] ++ openAndMap 4 2 100 0x20000 0x1000

/-- The record of the first file is found to belong to the second. -/
theorem reusedPath_confuses : ∃ s, plainRun reusedPath = some s ∧ Reachable plainEnv s ∧
    ∃ p ∈ s.tree.nodes, ∃ r ∈ s.tree.records p, r.origin = some 1 ∧
      ∃ m, tfind (byKey s.maps.nameKey r.fileName) s.maps.fileMapNameTreeRoot = some m ∧
        (s.maps.fileMapTreeNodes m).file = some 2 ∧ ¬ SameFile s := by
  have hrun : (plainRun reusedPath).any fun s => decide (∃ p ∈ s.tree.nodes,
      ∃ r ∈ s.tree.records p, r.origin = some 1 ∧
        ∃ m ∈ tfind (byKey s.maps.nameKey r.fileName) s.maps.fileMapNameTreeRoot,
          (s.maps.fileMapTreeNodes m).file = some 2) := by
    decide +kernel
  obtain ⟨s, hs, hex⟩ := (Option.any_eq_true _ _).1 hrun
  obtain ⟨p, hp, r, hr, horigin, m, hm, hfile⟩ := of_decide_eq_true hex
  refine ⟨s, hs, reachable_plainRun hs, p, hp, r, hr, horigin, m, hm, hfile, fun hsame => ?_⟩
  have hfile' := hsame p hp r hr 1 horigin m hm
  rw [hfile] at hfile'
  cases hfile'

end Cidl
