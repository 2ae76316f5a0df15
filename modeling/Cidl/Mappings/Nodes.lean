import Cidl.Mappings.Agreement

/-!
# What a call does to the mapping nodes

Whatever a call does to the mappings, a node keeps its range, its position in
the file and its descriptor, unless it is filled in for a new mapping
(`node_of_mapsStep`), and a node that is new in the tree of paths has just been
filled in (`mem_nameTree_of_mapsStep`).
-/

namespace Cidl

open SearchTree

variable {L : Libc} {M M' : FileMaps} {c : Call}

namespace FileMaps

/-- The nodes are as before, and none has been added to the tree of paths. -/
structure KeepsNodes (M M' : FileMaps) : Prop where
  nodes : M'.fileMapTreeNodes = M.fileMapTreeNodes
  nameTree : ∀ x ∈ inorder M'.fileMapNameTreeRoot, x ∈ inorder M.fileMapNameTreeRoot

theorem KeepsNodes.refl (M : FileMaps) : KeepsNodes M M := ⟨rfl, fun _ hx => hx⟩

theorem keepsNodes_tsOpen {a : OpenAnswer} (hM : M.tsOpen a = some M') : KeepsNodes M M' := by
  unfold tsOpen at hM
  split at hM
  · cases hM
    exact .refl M
  · dsimp only at hM
    split at hM
    · split at hM <;> cases hM
      exact ⟨rfl, fun _ hx => hx⟩
    · split at hM <;> cases hM
      exact ⟨rfl, fun _ hx => hx⟩

theorem keepsNodes_tsClose {result fd : ℤ} (hM : M.tsClose L result fd = some M') :
    KeepsNodes M M' := by
  unfold tsClose at hM
  split at hM
  · cases hM
    exact .refl M
  · dsimp only at hM
    split at hM
    · cases hM
      exact ⟨rfl, fun _ hx => hx⟩
    · split at hM
      · cases hM
        exact ⟨rfl, fun _ hx => hx⟩
      · obtain ⟨pool, -, rfl⟩ := Option.map_eq_some_iff.1 hM
        exact ⟨rfl, fun _ hx => L.search.mem_of_mem_tdelete hx⟩

theorem keepsNodes_tsMunmap {addr : ℕ} (hM : M.tsMunmap L addr = some M') : KeepsNodes M M' := by
  unfold tsMunmap at hM
  split at hM
  · cases hM
    exact .refl M
  · simp only [withdrawFileMapTreeNode, Option.bind_eq_bind, Option.bind_eq_some_iff,
      Option.map_eq_some_iff] at hM
    obtain ⟨M₁, hM₁, pool, -, rfl⟩ := hM
    obtain ⟨live, caller, rfl⟩ := freePath_eq_some hM₁
    exact ⟨rfl, fun _ hx => L.search.mem_of_mem_tdelete hx⟩

theorem countUse_node (M : FileMaps) (y x : ℕ) : ∃ used, (M.countUse y).fileMapTreeNodes x =
    { M.fileMapTreeNodes x with usedTime := used } := by
  by_cases hxy : x = y
  · subst hxy
    exact ⟨_, Function.update_self ..⟩
  · exact ⟨_, Function.update_of_ne hxy ..⟩

theorem findByFd_node {fd : ℤ} {x : ℕ} (hM : M.findByFd fd = some (x, M')) (z : ℕ) :
    ∃ name, M'.fileMapTreeNodes z = { M.fileMapTreeNodes z with fileName := name } := by
  obtain ⟨y, pool, -, -, -, heq⟩ := findByFd_eq_some hM
  rw [heq]
  by_cases hzy : z = y
  · subst hzy
    exact ⟨_, Function.update_self ..⟩
  · exact ⟨_, Function.update_of_ne hzy ..⟩

end FileMaps

open FileMaps

/-- A call fills a mapping node in, or writes its counter and its path. -/
theorem node_of_mapsStep (h : MapsStep L M c M') (x : ℕ) :
    (∃ ret len prot file off, c = .mmap ret len prot file off ∧
        M'.fileMapTreeNodes x = M.mapNode ret len file off) ∨
      ∃ used name, M'.fileMapTreeNodes x =
        { M.fileMapTreeNodes x with usedTime := used, fileName := name } := by
  have hkeeps : ∀ {M₁}, KeepsNodes M M₁ → ∃ used name, M₁.fileMapTreeNodes x =
      { M.fileMapTreeNodes x with usedTime := used, fileName := name } :=
    fun hk => ⟨_, _, congrFun hk.nodes x⟩
  cases h with
  | same => exact Or.inr ⟨_, _, rfl⟩
  | opened hM => exact Or.inr (hkeeps (keepsNodes_tsOpen hM))
  | closed hM => exact Or.inr (hkeeps (keepsNodes_tsClose hM))
  | registered ht hM =>
    obtain ⟨y, -, hnodes, -⟩ := register_eq_some hM
    rw [hnodes]
    by_cases hxy : x = y
    · subst hxy
      rw [Function.update_self]
      exact Or.inl ⟨_, _, _, _, _, rfl, rfl⟩
    · rw [Function.update_of_ne hxy]
      exact Or.inr ⟨_, _, rfl⟩
  | unmapped hM => exact Or.inr (hkeeps (keepsNodes_tsMunmap hM))
  | used _ y =>
    obtain ⟨used, heq⟩ := M.countUse_node y x
    exact Or.inr ⟨used, _, heq⟩
  | @borrowed _ _ _ _ _ M₁ _ hM h' =>
    obtain ⟨name, hname⟩ := findByFd_node hM x
    rcases h' with rfl | ⟨z, rfl⟩
    · exact Or.inr ⟨_, name, hname⟩
    · obtain ⟨used, hused⟩ := M₁.countUse_node z x
      refine Or.inr ⟨used, name, hused.trans ?_⟩
      exact congrArg (fun m : FileMapTreeNode => { m with usedTime := used }) hname

/-- A node of the tree of paths was there before, or it is the new mapping. -/
theorem mem_nameTree_of_mapsStep (h : MapsStep L M c M') {x : ℕ}
    (hx : x ∈ inorder M'.fileMapNameTreeRoot) :
    x ∈ inorder M.fileMapNameTreeRoot ∨ ∃ ret len prot file off,
      c = .mmap ret len prot file off ∧ M'.fileMapTreeNodes x = M.mapNode ret len file off := by
  cases h with
  | same => exact Or.inl hx
  | opened hM => exact Or.inl ((keepsNodes_tsOpen hM).nameTree x hx)
  | closed hM => exact Or.inl ((keepsNodes_tsClose hM).nameTree x hx)
  | registered ht hM =>
    obtain ⟨y, -, hnodes, -, hroot, -⟩ := register_eq_some hM
    rw [hroot] at hx
    rcases L.search.tsearch_mem hx with rfl | hx
    · exact Or.inr ⟨_, _, _, _, _, rfl, by rw [hnodes, Function.update_self]⟩
    · exact Or.inl hx
  | unmapped hM => exact Or.inl ((keepsNodes_tsMunmap hM).nameTree x hx)
  | used _ y => exact Or.inl hx
  | borrowed hM h' =>
    obtain ⟨y, pool, -, -, -, heq⟩ := findByFd_eq_some hM
    rw [heq] at h'
    rcases h' with rfl | ⟨z, rfl⟩
    · exact Or.inl hx
    · exact Or.inl hx

end Cidl
