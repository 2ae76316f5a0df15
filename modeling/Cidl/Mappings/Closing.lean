import Cidl.Mappings.Liveness

/-!
# Closing a mapped file

`ts_close` knows the path string of the file and searches the tree of the start
addresses for it, with the comparator of the other tree.  The way down is right
as long as the path strings of the mappings above the one that is looked for lie
on the same side of its path string as their start addresses lie of its start
address (`tsClose_untracks_iff`).  In the tree by path the node is always found.
-/

namespace Cidl

open SearchTree

namespace FileMaps

variable {S : Slabs 1 fileMapTreeNodePoolSize} {L : Libc} {M M' : FileMaps}

/-- The mapping `x`, and no other, has left both trees, its slot of the table is
empty, and its node is back in the pool. -/
structure Untracks (M M' : FileMaps) (x : ℕ) : Prop where
  start : ∀ z, z ∈ inorder M'.fileMapTreeRoot ↔ z ∈ inorder M.fileMapTreeRoot ∧ z ≠ x
  name : ∀ z, z ∈ inorder M'.fileMapNameTreeRoot ↔ z ∈ inorder M.fileMapNameTreeRoot ∧ z ≠ x
  slot : M'.openFileArray (slotOf (M.fileMapTreeNodes x).fd) = none
  returned : M.fileMapTreeNodePool.push x = some M'.fileMapTreeNodePool

section

variable {result fd : ℤ} {x : ℕ}

/-- `ts_close` of a descriptor with a path. -/
theorem tsClose_eq (hresult : result ≠ -1) (hnull : M.getPath fd ≠ 0) : M.tsClose L result fd =
    match tfind (byKey M.nameKey (M.getPath fd)) M.fileMapTreeRoot with
    | none => some { M with fdFile := Function.update M.fdFile fd none }
    | some freep => FileMaps.withdrawFileMapTreeNode
        { M with
          fdFile := Function.update M.fdFile fd none
          openFileArray :=
            Function.update M.openFileArray (slotOf (M.fileMapTreeNodes freep).fd) none
          fileMapTreeRoot :=
            L.search.tdelete (byKey M.nameKey (M.getPath fd)) M.fileMapTreeRoot
          fileMapNameTreeRoot :=
            L.search.tdelete (byKey M.nameKey (M.getPath fd)) M.fileMapNameTreeRoot } freep := by
  unfold tsClose
  rw [if_neg hresult]
  exact if_neg hnull

/-- If the search of the first tree finds the node, everything else follows. -/
theorem untracks_of_found (hs : Sorted M.startKey M.fileMapTreeRoot)
    (hn : Sorted M.nameKey M.fileMapNameTreeRoot) {lost : List ℕ}
    (howns : M.fileMapTreeNodePool.Owns S (inorder M.fileMapTreeRoot ++ lost))
    (hname : x ∈ inorder M.fileMapNameTreeRoot) (hpath : M.getPath fd = M.nameKey x)
    (hnull : M.getPath fd ≠ 0) (hresult : result ≠ -1)
    (hf : tfind (byKey M.nameKey (M.getPath fd)) M.fileMapTreeRoot = some x) :
    ∃ M', M.tsClose L result fd = some M' ∧ Untracks M M' x := by
  have hf' : tfind (byKey M.nameKey (M.getPath fd)) M.fileMapNameTreeRoot = some x :=
    (tfind_byKey hn _ x).2 ⟨hname, hpath.symm⟩
  obtain ⟨pool, hpush⟩ := Option.isSome_iff_exists.1
    (howns.perm ((L.search.perm_tdelete hf).append_right lost)).push_isSome
  rw [tsClose_eq hresult hnull, hf]
  refine ⟨_, Option.map_eq_some_iff.2 ⟨pool, hpush, rfl⟩, ?_, ?_, ?_, hpush⟩
  · exact L.search.mem_tdelete hf hs.nodup
  · exact L.search.mem_tdelete hf' hn.nodup
  · exact Function.update_self ..

/-- A mapped file is untracked by `ts_close` exactly when every mapping above it in
the tree of start addresses lies on the same side of it by address and by path. -/
theorem tsClose_untracks_iff (hs : Sorted M.startKey M.fileMapTreeRoot)
    (hn : Sorted M.nameKey M.fileMapNameTreeRoot) {lost : List ℕ}
    (howns : M.fileMapTreeNodePool.Owns S (inorder M.fileMapTreeRoot ++ lost))
    (honce : ∀ y ∈ inorder M.fileMapTreeRoot, ∀ z ∈ inorder M.fileMapTreeRoot,
      M.nameKey y = M.nameKey z → y = z)
    (hstart : x ∈ inorder M.fileMapTreeRoot) (hname : x ∈ inorder M.fileMapNameTreeRoot)
    (hpath : M.getPath fd = M.nameKey x) (hnull : M.getPath fd ≠ 0) (hresult : result ≠ -1) :
    (∃ M', M.tsClose L result fd = some M' ∧ Untracks M M' x) ↔
      ∀ y, Above x M.fileMapTreeRoot y →
        (M.startKey x < M.startKey y ↔ M.nameKey x < M.nameKey y) := by
  have honly : ∀ y ∈ inorder M.fileMapTreeRoot,
      byKey M.nameKey (M.getPath fd) y = .eq ↔ y = x := by
    intro y hy
    rw [byKey, compare_eq_iff_eq, hpath]
    exact ⟨fun heq => honce y hy x hstart heq.symm, fun heq => by rw [heq]⟩
  have hlt : ∀ y, byKey M.nameKey (M.getPath fd) y = .lt ↔ M.nameKey x < M.nameKey y := by
    intro y
    rw [byKey, compare_lt_iff_lt, hpath]
  have hfind := tfind_iff_above hs hstart honly
  simp only [hlt] at hfind
  rw [← hfind]
  constructor
  · rintro ⟨M', hM, huntracks⟩
    cases hf : tfind (byKey M.nameKey (M.getPath fd)) M.fileMapTreeRoot with
    | none =>
      rw [tsClose_eq hresult hnull, hf] at hM
      cases hM
      exact absurd rfl ((huntracks.start x).1 hstart).2
    | some y =>
      obtain ⟨hy, heq⟩ := tfind_eq_some hf
      rw [(honly y hy).1 heq]
  · exact untracks_of_found hs hn howns hname hpath hnull hresult

end

end FileMaps

/-- Two files, the one at the higher address with the path string at the higher address. -/
def alignedMappings : List Call :=
  openAndMap 3 1 100 0x1000 0x1000 ++ openAndMap 4 2 200 0x2000 0x1000

theorem tsClose_untracks_iff_aligned : ∃ s, plainRun alignedMappings = some s ∧
    ∃ x M', (s.maps.fileMapTreeNodes x).fd = 4 ∧ s.maps.tsClose plainLibc 0 4 = some M' ∧
      FileMaps.Untracks s.maps M' x := by
  have hrun : (runAll (guarded MapCallOk (step plainEnv)) alignedMappings plainInit).any fun s =>
      decide (s.maps.fileMapTreeRoot = .node 2047 .nil (.node 2046 .nil .nil) ∧
        2046 ∈ inorder s.maps.fileMapNameTreeRoot ∧ (s.maps.fileMapTreeNodes 2046).fd = 4 ∧
        s.maps.getPath 4 = s.maps.nameKey 2046 ∧ s.maps.getPath 4 ≠ 0 ∧
        s.maps.nameKey 2047 < s.maps.nameKey 2046 ∧
          s.maps.startKey 2047 < s.maps.startKey 2046) := by
    decide +kernel
  obtain ⟨s, hs, hall⟩ := (Option.any_eq_true _ _).1 hrun
  obtain ⟨hroot, hname, hfd, hpath, hnull, hlt, hlt'⟩ := of_decide_eq_true hall
  obtain ⟨hok, hrun⟩ := meets_of_checked (fun _ _ _ => guarded_eq_some) hs
  have hinv := mapInv_run hok hrun
  have howns : s.maps.fileMapTreeNodePool.Owns plainEnv.fileMapSlabs
      (inorder s.maps.fileMapTreeRoot ++ []) := by
    rw [List.append_nil]
    exact hinv.owns
  have honce : ∀ y ∈ inorder s.maps.fileMapTreeRoot, ∀ z ∈ inorder s.maps.fileMapTreeRoot,
      s.maps.nameKey y = s.maps.nameKey z → y = z := by
    rw [hroot]
    simp
    omega
  have halign : ∀ y, Above 2046 s.maps.fileMapTreeRoot y →
      (s.maps.startKey 2046 < s.maps.startKey y ↔ s.maps.nameKey 2046 < s.maps.nameKey y) := by
    rw [hroot]
    rintro y (⟨hy, -⟩ | ⟨-, rfl | hy⟩)
    · exact absurd hy List.not_mem_nil
    · exact iff_of_false (by omega) (by omega)
    · rcases hy with ⟨hy, -⟩ | ⟨hy, -⟩ <;> exact absurd hy List.not_mem_nil
  obtain ⟨M', hM⟩ := (FileMaps.tsClose_untracks_iff (L := plainLibc) hinv.startSorted
    hinv.nameSorted howns honce (by rw [hroot]; decide) hname hpath hnull
    (show (0 : ℤ) ≠ -1 by decide)).2 halign
  exact ⟨s, hrun, 2046, M', hfd, hM⟩

/-- When the second path string lies at the lower address, the search goes left at
the root and finds nothing. -/
theorem twoMappings_notClosed : ∃ s, plainRun twoMappings = some s ∧ Reachable plainEnv s ∧
    ∃ x ∈ inorder s.maps.fileMapTreeRoot, x ∈ inorder s.maps.fileMapNameTreeRoot ∧
      s.maps.getPath 4 = s.maps.nameKey x ∧
      ¬ ∃ M', s.maps.tsClose plainLibc 0 4 = some M' ∧ FileMaps.Untracks s.maps M' x := by
  have hrun : (plainRun twoMappings).any fun s =>
      decide (∃ x ∈ inorder s.maps.fileMapTreeRoot, x ∈ inorder s.maps.fileMapNameTreeRoot ∧
        s.maps.getPath 4 = s.maps.nameKey x ∧
        ∀ M' ∈ s.maps.tsClose plainLibc 0 4, x ∈ inorder M'.fileMapTreeRoot) := by
    decide +kernel
  obtain ⟨s, hs, hall⟩ := (Option.any_eq_true _ _).1 hrun
  obtain ⟨x, hx, hx', hpath, hstays⟩ := of_decide_eq_true hall
  refine ⟨s, hs, reachable_plainRun hs, x, hx, hx', hpath, ?_⟩
  rintro ⟨M', hM, huntracks⟩
  exact ((huntracks.start x).1 (hstays M' hM)).2 rfl

end Cidl
