import Cidl.Mappings.Agreement
import Cidl.Model.Opens

/-!
# What every call does to the mappings

The tree by start address stays in order in every run, though the tree by path
does not: a node is put in, or taken out, by one search (`TreeInv`).  The only
nodes of the pool that are in use and not in this tree are those of mappings at
an address that was registered already; they never come back.

`Effect` lists what a call of the library can do to this tree, its pool and the
path strings, together with what is reported of it: the strings that `realpath`
hands out, the ones that are freed, and the addresses that are mapped again.
-/

namespace Cidl

open SearchTree

namespace FileMaps

variable {S : Slabs 1 fileMapTreeNodePoolSize} {L : Libc} {M M' : FileMaps} {n : ℕ}

/-! ## Reports -/

/-- The addresses that `realpath` hands out in a call. -/
def handedOut : ApiCall → List ℕ
  | .call (.open a) => if a.fd = -1 then [] else (a.abpath.map Prod.fst).toList
  | .fopen a => if a.stream.isSome then (a.abpath.map Prod.fst).toList else []
  | _ => []

/-- The addresses of the strings from `realpath` that a call frees. -/
def freed (M : FileMaps) : ApiCall → List ℕ
  | .call (.munmap addr) =>
    ((tfind (byKey M.startKey addr) M.fileMapTreeRoot).map M.nameKey).toList.filter M.pathLive
  | _ => []

/-- A start address, if it is registered already. -/
def registeredAt (M : FileMaps) (ret : ℕ) : List ℕ :=
  if ∃ x ∈ inorder M.fileMapTreeRoot, M.startKey x = ret then [ret] else []

/-- The start addresses that a call registers a second time. -/
def remapped (M : FileMaps) : ApiCall → List ℕ
  | .call (.mmap ret _ prot file _) => if M.Tracked prot file then M.registeredAt ret else []
  | _ => []

/-! ## The invariant -/

/-- The tree by start address is in order, and the nodes in use are those of this
tree and `lost` others. -/
structure TreeInv (S : Slabs 1 fileMapTreeNodePoolSize) (lost : ℕ) (M : FileMaps) : Prop where
  startSorted : Sorted M.startKey M.fileMapTreeRoot
  owns : ∃ l : List ℕ, l.length = lost ∧
    M.fileMapTreeNodePool.Owns S (inorder M.fileMapTreeRoot ++ l)
  size : M.fileMapTreeNodePool.size = fileMapTreeNodePoolSize
  null : M.pathLive 0 = false

theorem treeInv_init (nodes : ℕ → FileMapTreeNode) : TreeInv S 0 (init S nodes) where
  startSorted := List.Pairwise.nil
  owns := ⟨[], rfl, Pool.owns_start⟩
  size := rfl
  null := rfl

/-- A node that the pool hands out is not in the tree. -/
theorem TreeInv.fresh (h : TreeInv S n M) {x : ℕ} {q : Pool}
    (hpop : M.fileMapTreeNodePool.pop = some (x, q)) : x ∉ inorder M.fileMapTreeRoot := by
  obtain ⟨l, -, howns⟩ := h.owns
  intro hx
  exact (List.nodup_cons.1 (howns.pop hpop).nodup_used).1 (List.mem_append_left _ hx)

/-- The pool has a node as long as not all of them are in the tree or lost. -/
theorem TreeInv.pop_isSome_iff (h : TreeInv S n M) : M.fileMapTreeNodePool.pop.isSome ↔
    (inorder M.fileMapTreeRoot).length + n < fileMapTreeNodePoolSize := by
  obtain ⟨l, hl, howns⟩ := h.owns
  rw [← h.size, ← hl, ← List.length_append]
  constructor
  · intro hsome
    by_contra hfull
    rw [howns.pop_eq_none (Nat.le_of_not_lt hfull)] at hsome
    cases hsome
  · intro hroom
    obtain ⟨x, q, hpop⟩ := howns.pop_isSome hroom
    rw [hpop]
    rfl

/-- A node of the tree can be given back. -/
theorem TreeInv.push_isSome (L : Libc) (h : TreeInv S n M) {c : ℕ → Ordering} {x : ℕ}
    (hf : tfind c M.fileMapTreeRoot = some x) : (M.fileMapTreeNodePool.push x).isSome := by
  obtain ⟨l, -, howns⟩ := h.owns
  exact (howns.perm ((L.search.perm_tdelete hf).append_right l)).push_isSome

/-! ## Effects -/

/-- The tree, its keys and the pool are as before. -/
structure KeepsTree (M M' : FileMaps) : Prop where
  root : M'.fileMapTreeRoot = M.fileMapTreeRoot
  pool : M'.fileMapTreeNodePool = M.fileMapTreeNodePool
  keys : ∀ x ∈ inorder M.fileMapTreeRoot,
    M'.startKey x = M.startKey x ∧ M'.nameKey x = M.nameKey x

/-- The node `x` leaves the tree for the pool. -/
structure Removes (L : Libc) (M M' : FileMaps) (x : ℕ) : Prop where
  root : ∃ c, tfind c M.fileMapTreeRoot = some x ∧
    M'.fileMapTreeRoot = L.search.tdelete c M.fileMapTreeRoot
  pool : M.fileMapTreeNodePool.push x = some M'.fileMapTreeNodePool
  nodes : M'.fileMapTreeNodes = M.fileMapTreeNodes
  paths : M'.fd2Path = M.fd2Path
  str : M'.pathStr = M.pathStr

/-- What a call can do: the strings it hands out, the strings it frees, the
addresses it maps again, and the mappings that it leaves. -/
inductive Effect (L : Libc) (M : FileMaps) : List ℕ → List ℕ → List ℕ → FileMaps → Prop
  /-- `realpath` hands out an address, which may then be stored for a descriptor. -/
  | handed {M' : FileMaps} (path : ℕ) (hnull : path ≠ 0) (hnew : M.pathLive path = false)
      (ht : KeepsTree M M') (hlive : M'.pathLive = Function.update M.pathLive path true)
      (hstr : ∀ p ≠ path, M'.pathStr p = M.pathStr p)
      (hpaths : ∀ i, M'.fd2Path i = M.fd2Path i ∨ M'.fd2Path i = path) :
      Effect L M [path] [] [] M'
  /-- At most a string that `realpath` has not handed out is stored. -/
  | stored {M' : FileMaps} (path : ℕ) (hnew : M.pathLive path = false)
      (ht : KeepsTree M M') (hlive : M'.pathLive = M.pathLive)
      (hstr : ∀ p ≠ path, M'.pathStr p = M.pathStr p)
      (hpaths : ∀ i, M'.fd2Path i = M.fd2Path i ∨ M'.fd2Path i = path) :
      Effect L M [] [] [] M'
  | registered {M' : FileMaps} {ret len off : ℕ} {file : ℤ} (hfile : -1 < file)
      (hmk : M.isMktmp (M.getPath file) = false)
      (h : M.register L ret len file off = some M') :
      Effect L M [] [] (M.registeredAt ret) M'
  /-- A mapping is taken out, and its string from `realpath` is freed. -/
  | unmapped {M' : FileMaps} (x : ℕ) (h : Removes L M M' x)
      (hwas : M.pathLive (M.nameKey x) = true)
      (hlive : M'.pathLive = Function.update M.pathLive (M.nameKey x) false) :
      Effect L M [] [M.nameKey x] [] M'
  /-- A mapping is taken out, and its string stays, or is one of the caller. -/
  | closed {M' : FileMaps} (x : ℕ) (h : Removes L M M' x) (hlive : M'.pathLive = M.pathLive) :
      Effect L M [] [] [] M'

theorem KeepsTree.refl (M : FileMaps) : KeepsTree M M := ⟨rfl, rfl, fun _ _ => ⟨rfl, rfl⟩⟩

/-- Nothing but descriptors' files and fields of nodes changes. -/
theorem Effect.kept (h : TreeInv S n M) (ht : KeepsTree M M') (hlive : M'.pathLive = M.pathLive)
    (hstr : M'.pathStr = M.pathStr) (hpaths : M'.fd2Path = M.fd2Path) :
    Effect L M [] [] [] M' :=
  .stored 0 h.null ht hlive (fun p _ => congrFun hstr p) fun i => Or.inl (congrFun hpaths i)

theorem KeepsTree.treeInv (ht : KeepsTree M M') (h : TreeInv S n M)
    (hnull : M'.pathLive 0 = false) : TreeInv S n M' where
  startSorted := by
    rw [ht.root]
    exact h.startSorted.congr fun x hx => (ht.keys x hx).1
  owns := by rw [ht.root, ht.pool]; exact h.owns
  size := by rw [ht.pool, h.size]
  null := hnull

theorem Removes.treeInv {x : ℕ} (hr : Removes L M M' x) (h : TreeInv S n M)
    (hnull : M'.pathLive 0 = false) : TreeInv S n M' := by
  obtain ⟨c, hf, hroot⟩ := hr.root
  refine ⟨?_, ?_, (Pool.size_push hr.pool).trans h.size, hnull⟩
  · show Sorted (fun z => (M'.fileMapTreeNodes z).start) _
    rw [hroot, hr.nodes]
    exact L.search.sorted_tdelete h.startSorted c
  · obtain ⟨l, hl, howns⟩ := h.owns
    refine ⟨l, hl, ?_⟩
    rw [hroot]
    exact (howns.perm ((L.search.perm_tdelete hf).append_right l)).push hr.pool

/-- Registering fills in a node that is not in the tree yet. -/
theorem register_fresh (h : TreeInv S n M) {ret len off : ℕ} {file : ℤ}
    (hM : M.register L ret len file off = some M') :
    ∃ x, M.fileMapTreeNodePool.pop = some (x, M'.fileMapTreeNodePool) ∧
      M'.fileMapTreeNodes x = M.mapNode ret len file off ∧
      M'.fileMapTreeRoot =
        L.search.tsearch (byKey M'.startKey (M'.startKey x)) x M.fileMapTreeRoot ∧
      ∀ z ∈ inorder M.fileMapTreeRoot, M'.fileMapTreeNodes z = M.fileMapTreeNodes z := by
  obtain ⟨x, hpop, hnodes, hroot, -⟩ := register_eq_some hM
  have hfresh := h.fresh hpop
  refine ⟨x, hpop, by rw [hnodes, Function.update_self], hroot, fun z hz => ?_⟩
  rw [hnodes, Function.update_of_ne fun heq : z = x => hfresh (heq ▸ hz)]

/-- Registering an address again costs a node. -/
theorem treeInv_register (h : TreeInv S n M) {ret len off : ℕ} {file : ℤ}
    (hM : M.register L ret len file off = some M') (hnull : M'.pathLive 0 = false) :
    TreeInv S (n + (M.registeredAt ret).length) M' := by
  obtain ⟨x, hpop, hself, hroot, hother⟩ := register_fresh h hM
  obtain ⟨l, hl, howns⟩ := h.owns
  have hkeys : ∀ z ∈ inorder M.fileMapTreeRoot, M'.startKey z = M.startKey z :=
    fun z hz => by rw [startKey, hother z hz]
  have hkey : M'.startKey x = ret := by rw [startKey, hself, mapNode]
  have hsorted : Sorted M'.startKey M.fileMapTreeRoot := h.startSorted.congr hkeys
  refine ⟨?_, ?_, (Pool.size_pop hpop).trans h.size, hnull⟩
  · rw [hroot]
    exact L.search.sorted_tsearch hsorted x
  · unfold registeredAt
    split
    · rename_i hmapped
      obtain ⟨y, hy, hyret⟩ := hmapped
      refine ⟨x :: l, by rw [List.length_cons, hl, List.length_singleton], ?_⟩
      rw [hroot, L.search.inorder_tsearch_of_mem hsorted hy
        ((hkeys y hy).trans (hyret.trans hkey.symm))]
      exact (howns.pop hpop).perm List.perm_middle.symm
    · rename_i hnew
      refine ⟨l, hl, ?_⟩
      have hperm := L.search.perm_tsearch (x := x) hsorted fun z hz heq =>
        hnew ⟨z, hz, by rw [← hkeys z hz, heq, hkey]⟩
      rw [hroot]
      exact (howns.pop hpop).perm (hperm.symm.append_right l)

/-- What registering leaves alone. -/
theorem register_strings {ret len off : ℕ} {file : ℤ}
    (hM : M.register L ret len file off = some M') :
    M'.fd2Path = M.fd2Path ∧ M'.pathStr = M.pathStr ∧ M'.pathLive = M.pathLive := by
  obtain ⟨⟨x, M₁⟩, hx, h⟩ := Option.bind_eq_some_iff.1 hM
  obtain ⟨r, -, heq⟩ := Option.map_eq_some_iff.1 hx
  cases heq
  cases h
  exact ⟨rfl, rfl, rfl⟩

/-- What each call preserves. -/
theorem treeInv_effect (h : TreeInv S n M) {out fr re : List ℕ} (he : Effect L M out fr re M') :
    TreeInv S (n + re.length) M' := by
  cases he with
  | handed path hnull _ ht hlive =>
    refine ht.treeInv h ?_
    rw [hlive, Function.update_of_ne hnull.symm]
    exact h.null
  | stored path _ ht hlive => exact ht.treeInv h (hlive ▸ h.null)
  | registered _ _ hM =>
    refine treeInv_register h hM ?_
    rw [(register_strings hM).2.2]
    exact h.null
  | unmapped x hr _ hlive =>
    refine hr.treeInv h ?_
    rw [hlive, Function.update_apply]
    split
    · rfl
    · exact h.null
  | closed x hr hlive => exact hr.treeInv h (hlive ▸ h.null)

/-! ## The calls -/

/-- `ts_open` in terms of `realpath`. -/
theorem tsOpen_eq (a : OpenAnswer) : M.tsOpen a = if a.fd = -1 then some M else
    (realpath { M with fdFile := Function.update M.fdFile a.fd (some a.file) } a.file
      a.abpath).bind fun r => if a.statOk then
        some (if r.1 = 0 then r.2 else r.2.storePath a.fd r.1) else none := by
  unfold tsOpen
  split
  · rfl
  · cases habpath : a.abpath with
    | none => cases a.statOk <;> rfl
    | some r =>
      obtain ⟨path, str⟩ := r
      by_cases hnull : path = 0
      · simp [realpath, hnull]
      · cases a.statOk <;> cases hlive : M.pathLive path <;> cases hcaller : M.callerLive path <;>
          simp [realpath, storePath, hnull, hlive, hcaller]

theorem storePath_fd2Path (M : FileMaps) (fd : ℤ) (path : ℕ) (i : ℤ) :
    (M.storePath fd path).fd2Path i = M.fd2Path i ∨ (M.storePath fd path).fd2Path i = path := by
  simp only [storePath, Function.update_apply]
  split
  · exact Or.inr rfl
  · exact Or.inl rfl

/-- A call of `realpath` whose result may be stored for a descriptor. -/
theorem effect_realpath (h : TreeInv S n M) {file : FileId} {a : Option (ℕ × List Char)}
    {r : ℕ × FileMaps} {fdFile : ℤ → Option FileId}
    (hr : realpath { M with fdFile := fdFile } file a = some r)
    (hM : M' = r.2 ∨ ∃ fd, M' = r.2.storePath fd r.1) :
    Effect L M (a.map Prod.fst).toList [] [] M' := by
  have hpaths : ∀ i, M'.fd2Path i = r.2.fd2Path i ∨ M'.fd2Path i = r.1 := by
    rcases hM with rfl | ⟨fd, rfl⟩
    · exact fun i => Or.inl rfl
    · exact r.2.storePath_fd2Path fd r.1
  have htree : KeepsTree r.2 M' := by
    rcases hM with rfl | ⟨fd, rfl⟩ <;> exact ⟨rfl, rfl, fun _ _ => ⟨rfl, rfl⟩⟩
  have hkept : M'.pathLive = r.2.pathLive ∧ M'.pathStr = r.2.pathStr := by
    rcases hM with rfl | ⟨fd, rfl⟩ <;> exact ⟨rfl, rfl⟩
  cases a with
  | none =>
    cases hr
    exact .stored 0 h.null ⟨htree.root, htree.pool, htree.keys⟩ hkept.1
      (fun p _ => congrFun hkept.2 p) hpaths
  | some a =>
    obtain ⟨path, str⟩ := a
    have hfree : ¬ (path = 0 ∨ M.pathLive path = true ∨ M.callerLive path = true) := by
      intro hbusy
      cases (if_pos hbusy).symm.trans hr
    cases (if_neg hfree).symm.trans hr
    rw [not_or, not_or, Bool.not_eq_true] at hfree
    refine .handed path hfree.1 hfree.2.1 ⟨htree.root, htree.pool, htree.keys⟩ hkept.1
      (fun p hp => ?_) hpaths
    rw [hkept.2]
    exact Function.update_of_ne hp ..

theorem effect_tsOpen (h : TreeInv S n M) {a : OpenAnswer} (hM : M.tsOpen a = some M') :
    Effect L M (handedOut (.call (.open a))) [] [] M' := by
  rw [tsOpen_eq] at hM
  rw [handedOut]
  split at hM
  · rename_i hfd
    cases hM
    rw [if_pos hfd]
    exact .kept h (.refl M) rfl rfl rfl
  · rename_i hfd
    rw [if_neg hfd]
    obtain ⟨r, hr, hM⟩ := Option.bind_eq_some_iff.1 hM
    refine effect_realpath h hr ?_
    split at hM <;> cases hM
    split
    · exact Or.inl rfl
    · exact Or.inr ⟨_, rfl⟩

theorem effect_tsFopen (h : TreeInv S n M) {a : FopenAnswer} (hM : M.tsFopen a = some M') :
    Effect L M (handedOut (.fopen a)) [] [] M' := by
  obtain ⟨stream, abpath, size⟩ := a
  cases stream with
  | none =>
    cases hM
    exact .kept h (.refl M) rfl rfl rfl
  | some stream =>
    obtain ⟨r, hr, hM⟩ := Option.bind_eq_some_iff.1 hM
    obtain ⟨bytes, -, hM⟩ := Option.bind_eq_some_iff.1 hM
    refine effect_realpath h hr ?_
    cases hM
    split
    · exact Or.inl rfl
    · exact Or.inr ⟨_, rfl⟩

theorem effect_tsOpenat (h : TreeInv S n M) {a : OpenatAnswer} (hM : M.tsOpenat a = some M') :
    Effect L M [] [] [] M' := by
  unfold tsOpenat at hM
  split at hM
  · cases hM
    exact .kept h (.refl M) rfl rfl rfl
  · dsimp only at hM
    split at hM
    · split at hM <;> cases hM
      exact .kept h ⟨rfl, rfl, fun _ _ => ⟨rfl, rfl⟩⟩ rfl rfl rfl
    · split at hM <;> cases hM
      rename_i hfree
      rw [not_or, Bool.not_eq_true] at hfree
      exact .stored a.path hfree.1 ⟨rfl, rfl, fun _ _ => ⟨rfl, rfl⟩⟩ rfl
        (fun p hp => Function.update_of_ne hp ..) (M.storePath_fd2Path a.fd a.path)

theorem effect_tsMmap (h : TreeInv S n M) {ret len prot off : ℕ} {file : ℤ}
    (hM : M.tsMmap L ret len prot file off = some M') :
    Effect L M [] [] (M.remapped (.call (.mmap ret len prot file off))) M' := by
  unfold tsMmap at hM
  rw [remapped]
  split at hM
  · rename_i htest
    split at hM
    · cases hM
    · split at hM
      · rename_i hmk
        cases hM
        rw [if_neg fun ht : M.Tracked prot file => by simp [ht.2.2] at hmk]
        exact .kept h (.refl M) rfl rfl rfl
      · rename_i hmk
        have hmk : M.isMktmp (M.getPath file) = false := by simpa using hmk
        rw [if_pos (show M.Tracked prot file from ⟨htest.1, htest.2, hmk⟩)]
        exact .registered htest.2 hmk hM
  · rename_i htest
    cases hM
    rw [if_neg fun ht : M.Tracked prot file => htest ⟨ht.1, ht.2.1⟩]
    exact .kept h (.refl M) rfl rfl rfl

theorem effect_tsMunmap (h : TreeInv S n M) {addr : ℕ} (hM : M.tsMunmap L addr = some M') :
    Effect L M [] (M.freed (.call (.munmap addr))) [] M' := by
  unfold tsMunmap at hM
  rw [freed]
  split at hM
  · rename_i hf
    cases hM
    rw [hf]
    exact .kept h (.refl M) rfl rfl rfl
  · rename_i x hf
    rw [hf]
    simp only [withdrawFileMapTreeNode, Option.bind_eq_bind, Option.bind_eq_some_iff,
      Option.map_eq_some_iff] at hM
    obtain ⟨M₁, hM₁, pool, hpush, rfl⟩ := hM
    show Effect L M [] ([M.nameKey x].filter M.pathLive) [] _
    rcases freePath_cases hM₁ with ⟨hlive, rfl⟩ | ⟨hdead, rfl⟩
    · have hlive : M.pathLive (M.nameKey x) = true := hlive
      rw [List.filter_cons_of_pos hlive, List.filter_nil]
      exact .unmapped x ⟨⟨_, hf, rfl⟩, hpush, rfl, rfl, rfl⟩ hlive rfl
    · have hdead : ¬ M.pathLive (M.nameKey x) = true := Bool.eq_false_iff.1 hdead
      rw [List.filter_cons_of_neg hdead, List.filter_nil]
      exact .closed x ⟨⟨_, hf, rfl⟩, hpush, rfl, rfl, rfl⟩ rfl

theorem effect_tsClose (h : TreeInv S n M) {result fd : ℤ} (hM : M.tsClose L result fd = some M') :
    Effect L M [] [] [] M' := by
  unfold tsClose at hM
  split at hM
  · cases hM
    exact .kept h (.refl M) rfl rfl rfl
  · dsimp only at hM
    split at hM
    · cases hM
      exact .kept h ⟨rfl, rfl, fun _ _ => ⟨rfl, rfl⟩⟩ rfl rfl rfl
    · split at hM
      · cases hM
        exact .kept h ⟨rfl, rfl, fun _ _ => ⟨rfl, rfl⟩⟩ rfl rfl rfl
      · rename_i x hf
        obtain ⟨pool, hpush, rfl⟩ := Option.map_eq_some_iff.1 hM
        exact .closed x ⟨⟨_, hf, rfl⟩, hpush, rfl, rfl, rfl⟩ rfl

theorem keepsTree_countUse (M : FileMaps) (x : ℕ) : KeepsTree M (M.countUse x) := by
  refine ⟨rfl, rfl, fun z _ => ?_⟩
  by_cases hz : z = x
  · subst hz
    simp [startKey, nameKey, countUse, setMapNode]
  · simp [startKey, nameKey, countUse, setMapNode, Function.update_of_ne hz]

/-- The node that `ts_read` borrows is not in the tree. -/
theorem keepsTree_findByFd (h : TreeInv S n M) {fd : ℤ} {x : ℕ}
    (hM : M.findByFd fd = some (x, M')) : KeepsTree M M' := by
  obtain ⟨y, pool, hpop, hpush, -, heq⟩ := findByFd_eq_some hM
  have hfresh := h.fresh hpop
  refine ⟨by rw [heq], push_of_pop hpop hpush, fun z hz => ?_⟩
  have hne : z ≠ y := fun hzy => hfresh (hzy ▸ hz)
  rw [heq]
  simp [startKey, nameKey, Function.update_of_ne hne]

end FileMaps

variable {E : Env} {s s' : State}

open FileMaps

/-- A copy counts a use of its mapping. -/
theorem effect_copyRecorded {S : Slabs 1 fileMapTreeNodePoolSize} {n : ℕ} {M : FileMaps}
    (h : TreeInv S n M) {insert : Insert} {dest src len : ℕ} {x : Option ℕ}
    (ht : KeepsTree M s.maps) (hlive : s.maps.pathLive = M.pathLive)
    (hstr : s.maps.pathStr = M.pathStr) (hpaths : s.maps.fd2Path = M.fd2Path)
    (hs : copyRecorded insert dest src len x s = some s') :
    Effect E.libc M [] [] [] s'.maps := by
  rcases maps_copyRecorded hs with heq | ⟨y, heq⟩
  · rw [heq]
    exact .kept h ht hlive hstr hpaths
  · rw [heq]
    refine .kept h ⟨ht.root, ht.pool, fun z hz => ?_⟩ hlive hstr hpaths
    obtain ⟨h₁, h₂⟩ := (keepsTree_countUse s.maps y).keys z (ht.root.symm ▸ hz)
    obtain ⟨h₃, h₄⟩ := ht.keys z hz
    exact ⟨h₁.trans h₃, h₂.trans h₄⟩

/-- What a call of the library does, and what is reported of it. -/
theorem effect_of_apiStep {S : Slabs 1 fileMapTreeNodePoolSize} {n : ℕ} {c : ApiCall}
    (h : TreeInv S n s.maps) (hstep : apiStep E c s = some s') :
    Effect E.libc s.maps (handedOut c) (s.maps.freed c) (s.maps.remapped c) s'.maps := by
  have hsame : Effect E.libc s.maps [] [] [] s.maps := .kept h (.refl _) rfl rfl rfl
  cases c with
  | openat a =>
    obtain ⟨M, hM, rfl⟩ := Option.map_eq_some_iff.1 hstep
    exact effect_tsOpenat h hM
  | fopen a =>
    obtain ⟨M, hM, rfl⟩ := Option.map_eq_some_iff.1 hstep
    exact effect_tsFopen h hM
  | call c =>
    cases c with
    | «open» a =>
      obtain ⟨M, hM, rfl⟩ := Option.map_eq_some_iff.1 hstep
      exact effect_tsOpen h hM
    | close result fd =>
      obtain ⟨M, hM, rfl⟩ := Option.map_eq_some_iff.1 hstep
      exact effect_tsClose h hM
    | mmap ret len prot file off =>
      obtain ⟨M, hM, rfl⟩ := Option.map_eq_some_iff.1 hstep
      exact effect_tsMmap h hM
    | munmap addr =>
      obtain ⟨M, hM, rfl⟩ := Option.map_eq_some_iff.1 hstep
      exact effect_tsMunmap h hM
    | memcpy dest src len => exact effect_copyRecorded h (.refl _) rfl rfl rfl hstep
    | read fd buf nbytes pos =>
      obtain ⟨⟨x, M⟩, hM, hcopy⟩ := Option.bind_eq_some_iff.1 hstep
      obtain ⟨y, pool, -, -, -, heq⟩ := findByFd_eq_some hM
      refine effect_copyRecorded h (keepsTree_findByFd h hM) ?_ ?_ ?_ hcopy <;> rw [heq]
    | memcpyTraced dest src len =>
      obtain ⟨T, -, rfl⟩ := Option.map_eq_some_iff.1 hstep
      exact hsame
    | realloc ret ptr tail =>
      obtain ⟨T, -, rfl⟩ := Option.map_eq_some_iff.1 hstep
      exact hsame
    | write buf length => cases hstep; exact hsame
    | fwrite buf size n => cases hstep; exact hsame
    | store addr b => cases hstep; exact hsame

end Cidl
