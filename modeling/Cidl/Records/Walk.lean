import Cidl.Model.Transfer

/-!
# What the loops of `ts_memcpy_traced` and `ts_realloc` preserve

Both functions change the tree through the function that inserts a record, and
`ts_memcpy_traced` besides by one cut of the node of its first page.  So what
insertion preserves, and the cut does not destroy, they preserve
(`tsMemcpyTraced_invariant`, `tsRealloc_invariant`).  And when one insertion
function succeeds wherever another does and with the same result, so do the
loops that run it (`tsMemcpyTraced_mono`, `tsRealloc_mono`).
-/

namespace Cidl

theorem pagesFrom_eq (start last : ℕ) :
    pagesFrom start last = if start ≤ last then start :: pagesFrom (start + 1) last else [] := by
  unfold pagesFrom
  split
  · rename_i h
    obtain ⟨n, hn⟩ : ∃ n, last + 1 - start = n + 1 := ⟨last - start, by omega⟩
    rw [hn, show last + 1 - (start + 1) = n by omega, List.range'_succ]
  · rename_i h
    rw [show last + 1 - start = 0 by omega, List.range'_zero]

namespace RecTree

variable {insert : InsertCall → RecTree → Option RecTree} {T T' : RecTree} {L : Libc}
  {res : RecTree → ℕ} {P : RecTree → Prop}

/-! ## Invariants -/

/-- The call takes file, offset and descriptor from the record in some slot. -/
def Copies (c : InsertCall) (T : RecTree) : Prop :=
  ∃ a, c.fileOffset = (T.recMem a).fileOffset ∧ c.fileName = (T.recMem a).fileName ∧
    c.fd = (T.recMem a).fd ∧ c.origin = (T.recMem a).origin

section

variable (hins : ∀ c T T', Copies c T → P T → insert c T = some T' → P T')

include hins

theorem copyRecs_invariant {dest src start arr idx : ℕ} {uplimit : ℤ} (hP : P T)
    (h : copyRecs insert dest src start arr idx uplimit T = some T') : P T' :=
  runAll_invariant (fun _ _ _ _ hP h => hins _ _ _ ⟨_, rfl, rfl, rfl, rfl⟩ hP h) hP h

theorem copyBlocks_invariant {dest src start srcLastEntry fuel : ℕ} {blockEntry : Option ℕ}
    {uplimit : ℤ} (hP : P T)
    (h : copyBlocks insert dest src start res srcLastEntry fuel blockEntry uplimit T = some T') :
    P T' := by
  induction fuel generalizing blockEntry uplimit T with
  | zero =>
    cases blockEntry with
    | none => cases h; exact hP
    | some e => cases h
  | succ fuel ih =>
    cases blockEntry with
    | none => cases h; exact hP
    | some e =>
      obtain ⟨U, hU, h⟩ := Option.bind_eq_some_iff.1 h
      exact ih (copyRecs_invariant hins hP hU) h

theorem copyFrom_invariant {fuel dest src start blockEntry srcLastEntry idx : ℕ}
    {uplimit : ℤ} (hP : P T)
    (h : copyFrom insert fuel dest src start res blockEntry srcLastEntry idx uplimit T = some T') :
    P T' := by
  obtain ⟨U, hU, h⟩ := Option.bind_eq_some_iff.1 h
  exact copyBlocks_invariant hins (copyRecs_invariant hins hP hU) h

theorem copyNextPage_invariant {fuel dest src start node : ℕ} (hP : P T)
    (h : copyNextPage L insert fuel dest src start node T = some T') : P T' := by
  obtain ⟨e, -, h⟩ := Option.bind_eq_some_iff.1 h
  exact copyFrom_invariant hins hP h

/-- The first page: the cut at the slot that the two searches find has to
preserve the property by itself. -/
theorem copyFirstPage_invariant {fuel dest src start node : ℕ} (hP : P T)
    (hcut : ∀ blockEntry idx,
      T.findBlock (T.recTreeNodes node).memRecIdx (addr2PageOffset src)
        (T.tailheads (T.recTreeNodes node).listHead).reverse = some blockEntry →
      T.findSlot (T.recBlockEntries blockEntry).recArr (T.recTreeNodes node).memRecIdx
        (addr2PageOffset src) = some idx → P (T.setCursor node blockEntry idx))
    (h : copyFirstPage L insert fuel dest src start node T = some T') : P T' := by
  simp only [copyFirstPage] at h
  split at h
  · cases h
  · split at h
    · cases h
      exact hP
    · rename_i blockEntry hblock
      split at h
      · rename_i idx hslot
        exact copyFrom_invariant hins (hcut blockEntry idx hblock hslot) h
      · exact copyFrom_invariant hins hP h

theorem copyPage_invariant {fuel dest src start : ℕ} (hne : start ≠ addr2PageNum src) (hP : P T)
    (h : copyPage L insert fuel dest src start T = some T') : P T' := by
  simp only [copyPage, if_neg hne] at h
  split at h
  · cases h
    exact hP
  · exact copyNextPage_invariant hins hP h

/-- The body of the loop on any page: the cut, where there is one, has to preserve
the property by itself. -/
theorem copyPage_invariant_cut {fuel dest src start : ℕ} (hP : P T)
    (hcut : ∀ node blockEntry idx, T.findNode start = some node →
      T.findBlock (T.recTreeNodes node).memRecIdx (addr2PageOffset src)
        (T.tailheads (T.recTreeNodes node).listHead).reverse = some blockEntry →
      T.findSlot (T.recBlockEntries blockEntry).recArr (T.recTreeNodes node).memRecIdx
        (addr2PageOffset src) = some idx → P (T.setCursor node blockEntry idx))
    (h : copyPage L insert fuel dest src start T = some T') : P T' := by
  by_cases hfirst : start = addr2PageNum src
  · simp only [copyPage, if_pos hfirst] at h
    split at h
    · cases h
      exact hP
    · rename_i node hnode
      exact copyFirstPage_invariant hins hP (fun e idx => hcut node e idx hnode) h
  · exact copyPage_invariant hins hfirst hP h

/-- `ts_memcpy_traced` cuts the node of the first page in the state it is
called in, and then only inserts. -/
theorem tsMemcpyTraced_invariant {fuel dest src n : ℕ} (hP : P T)
    (hcut : ∀ node blockEntry idx, T.findNode (addr2PageNum src) = some node →
      T.findBlock (T.recTreeNodes node).memRecIdx (addr2PageOffset src)
        (T.tailheads (T.recTreeNodes node).listHead).reverse = some blockEntry →
      T.findSlot (T.recBlockEntries blockEntry).recArr (T.recTreeNodes node).memRecIdx
        (addr2PageOffset src) = some idx → P (T.setCursor node blockEntry idx))
    (h : tsMemcpyTraced L insert fuel dest src n T = some T') : P T' := by
  rw [tsMemcpyTraced, pagesFrom_eq] at h
  split at h
  · obtain ⟨U, hU, h⟩ := runAll_cons_eq_some.1 h
    have hPU : P U := copyPage_invariant_cut hins hP hcut hU
    refine runAll_invariant (fun start hstart T T' hP h => ?_) hPU h
    have hne : start ≠ addr2PageNum src := by
      have := (mem_pagesFrom.1 hstart).1
      omega
    exact copyPage_invariant hins hne hP h
  · cases h
    exact hP

theorem moveRecs_invariant {ret ptr tail start arr : ℕ} {is : List ℕ} (hP : P T)
    (h : moveRecs insert ret ptr tail start arr is T = some T') : P T' := by
  induction is generalizing T with
  | nil => cases h; exact hP
  | cons i is ih =>
    simp only [moveRecs] at h
    split at h
    · exact ih hP h
    · split at h
      · cases h
        exact hP
      · obtain ⟨U, hU, h⟩ := Option.bind_eq_some_iff.1 h
        exact ih (hins _ _ _ ⟨_, rfl, rfl, rfl, rfl⟩ hP hU) h

theorem moveBlocks_invariant {ret ptr tail start mostRecBlock fuel : ℕ}
    {blockEntry : Option ℕ} (hP : P T)
    (h : moveBlocks insert ret ptr tail start res mostRecBlock fuel blockEntry T = some T') :
    P T' := by
  induction fuel generalizing blockEntry T with
  | zero =>
    cases blockEntry with
    | none => cases h; exact hP
    | some e => cases h
  | succ fuel ih =>
    cases blockEntry with
    | none => cases h; exact hP
    | some e =>
      simp only [moveBlocks] at h
      generalize (if e = mostRecBlock then (T.recTreeNodes (res T)).memRecIdx
        else (memRecPerEntry : ℤ)) = uplimit at h
      split at h
      · exact ih hP h
      · obtain ⟨U, hU, h⟩ := Option.bind_eq_some_iff.1 h
        exact ih (moveRecs_invariant hins hP hU) h

theorem movePage_invariant {fuel ret ptr tail start : ℕ} (hP : P T)
    (h : movePage L insert fuel ret ptr tail start T = some T') : P T' := by
  simp only [movePage] at h
  split at h
  · cases h
    exact hP
  · obtain ⟨e, -, h⟩ := Option.bind_eq_some_iff.1 h
    exact moveBlocks_invariant hins hP h

theorem tsRealloc_invariant {fuel ret ptr tail : ℕ} (hP : P T)
    (h : tsRealloc L insert fuel ret ptr tail T = some T') : P T' :=
  runAll_invariant (fun _ _ _ _ hP h => movePage_invariant hins hP h) hP h

end

/-! ## Two insertion functions -/

section

variable {insert' : InsertCall → RecTree → Option RecTree}
  (hle : ∀ c T T', insert c T = some T' → insert' c T = some T')

include hle

theorem copyRecs_mono {dest src start arr idx : ℕ} {uplimit : ℤ}
    (h : copyRecs insert dest src start arr idx uplimit T = some T') :
    copyRecs insert' dest src start arr idx uplimit T = some T' :=
  runAll_mono (fun _ _ _ _ h => hle _ _ _ h) h

theorem copyBlocks_mono {dest src start srcLastEntry fuel : ℕ} {blockEntry : Option ℕ}
    {uplimit : ℤ}
    (h : copyBlocks insert dest src start res srcLastEntry fuel blockEntry uplimit T = some T') :
    copyBlocks insert' dest src start res srcLastEntry fuel blockEntry uplimit T = some T' := by
  induction fuel generalizing blockEntry uplimit T with
  | zero => cases blockEntry <;> exact h
  | succ fuel ih =>
    cases blockEntry with
    | none => exact h
    | some e =>
      obtain ⟨U, hU, h⟩ := Option.bind_eq_some_iff.1 h
      exact Option.bind_eq_some_iff.2 ⟨U, copyRecs_mono hle hU, ih h⟩

theorem copyFrom_mono {fuel dest src start blockEntry srcLastEntry idx : ℕ} {uplimit : ℤ}
    (h : copyFrom insert fuel dest src start res blockEntry srcLastEntry idx uplimit T = some T') :
    copyFrom insert' fuel dest src start res blockEntry srcLastEntry idx uplimit T = some T' := by
  obtain ⟨U, hU, h⟩ := Option.bind_eq_some_iff.1 h
  exact Option.bind_eq_some_iff.2 ⟨U, copyRecs_mono hle hU, copyBlocks_mono hle h⟩

theorem copyPage_mono {fuel dest src start : ℕ}
    (h : copyPage L insert fuel dest src start T = some T') :
    copyPage L insert' fuel dest src start T = some T' := by
  simp only [copyPage] at h ⊢
  split
  · rename_i hnode
    rwa [hnode] at h
  · rename_i node hnode
    simp only [hnode] at h
    split
    · rename_i hfirst
      rw [if_pos hfirst] at h
      simp only [copyFirstPage] at h ⊢
      split
      · rename_i hblocks
        rwa [hblocks] at h
      · split
        · rename_i hblock
          simpa only [hblock] using h
        · rename_i e hblock
          simp only [hblock] at h
          split
          · rename_i hslot
            simp only [hslot] at h
            exact copyFrom_mono hle h
          · rename_i hslot
            simp only [hslot] at h
            exact copyFrom_mono hle h
    · rename_i hfirst
      rw [if_neg hfirst] at h
      obtain ⟨e, he, h⟩ := Option.bind_eq_some_iff.1 h
      exact Option.bind_eq_some_iff.2 ⟨e, he, copyFrom_mono hle h⟩

theorem tsMemcpyTraced_mono {fuel dest src n : ℕ}
    (h : tsMemcpyTraced L insert fuel dest src n T = some T') :
    tsMemcpyTraced L insert' fuel dest src n T = some T' :=
  runAll_mono (fun _ _ _ _ h => copyPage_mono hle h) h

theorem moveRecs_mono {ret ptr tail start arr : ℕ} {is : List ℕ}
    (h : moveRecs insert ret ptr tail start arr is T = some T') :
    moveRecs insert' ret ptr tail start arr is T = some T' := by
  induction is generalizing T with
  | nil => exact h
  | cons i is ih =>
    simp only [moveRecs] at h ⊢
    split
    · rename_i hbelow
      rw [if_pos hbelow] at h
      exact ih h
    · rename_i hbelow
      rw [if_neg hbelow] at h
      split
      · rename_i hbehind
        rwa [if_pos hbehind] at h
      · rename_i hbehind
        rw [if_neg hbehind] at h
        obtain ⟨U, hU, h⟩ := Option.bind_eq_some_iff.1 h
        exact Option.bind_eq_some_iff.2 ⟨U, hle _ _ _ hU, ih h⟩

theorem moveBlocks_mono {ret ptr tail start mostRecBlock fuel : ℕ} {blockEntry : Option ℕ}
    (h : moveBlocks insert ret ptr tail start res mostRecBlock fuel blockEntry T = some T') :
    moveBlocks insert' ret ptr tail start res mostRecBlock fuel blockEntry T = some T' := by
  induction fuel generalizing blockEntry T with
  | zero => cases blockEntry <;> exact h
  | succ fuel ih =>
    cases blockEntry with
    | none => exact h
    | some e =>
      simp only [moveBlocks] at h ⊢
      generalize (if e = mostRecBlock then (T.recTreeNodes (res T)).memRecIdx
        else (memRecPerEntry : ℤ)) = uplimit at h ⊢
      split
      · rename_i hbehind
        rw [if_pos hbehind] at h
        exact ih h
      · rename_i hbehind
        rw [if_neg hbehind] at h
        obtain ⟨U, hU, h⟩ := Option.bind_eq_some_iff.1 h
        exact Option.bind_eq_some_iff.2 ⟨U, moveRecs_mono hle hU, ih h⟩

theorem tsRealloc_mono {fuel ret ptr tail : ℕ}
    (h : tsRealloc L insert fuel ret ptr tail T = some T') :
    tsRealloc L insert' fuel ret ptr tail T = some T' := by
  refine runAll_mono (fun start _ T T' h => ?_) h
  simp only [movePage] at h ⊢
  split
  · rename_i hnode
    simpa only [hnode] using h
  · rename_i node hnode
    simp only [hnode] at h
    obtain ⟨e, he, h⟩ := Option.bind_eq_some_iff.1 h
    exact Option.bind_eq_some_iff.2 ⟨e, he, moveBlocks_mono hle h⟩

end

end RecTree

end Cidl
