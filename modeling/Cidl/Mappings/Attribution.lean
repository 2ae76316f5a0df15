import Cidl.Model.Api
import Cidl.Records.Frame

/-!
# The mapping that a copy is attributed to

`ts_memcpy` looks up the range from `src` to `src + n` in the tree of mappings,
with a comparator that takes both ends of both ranges in.  It finds the mapping
nearest to the root that touches the range (`findSource_eq_topmost`), which need
not be one that contains `src`: the range may only reach a mapping, or end where
one begins, and of two adjacent mappings the wrong one may be nearer to the root.

`memcpy_attributed_iff` says when the record is nevertheless the right one.
-/

namespace Cidl

open SearchTree

namespace FileMaps

variable {M : FileMaps} {src n dest : ℕ}

/-! ## Which mapping is found -/

/-- The address lies in the mapping. -/
def Contains (M : FileMaps) (src x : ℕ) : Prop :=
  (M.fileMapTreeNodes x).start ≤ src ∧ src < (M.fileMapTreeNodes x).tail

/-- The range from `src` to `src + n` touches the mapping, all ends included. -/
def Touches (M : FileMaps) (src n x : ℕ) : Prop :=
  (M.fileMapTreeNodes x).start ≤ src + n ∧ src ≤ (M.fileMapTreeNodes x).tail

instance : DecidablePred (M.Contains src) := fun _ => inferInstanceAs (Decidable (_ ∧ _))

instance : DecidablePred (M.Touches src n) := fun _ => inferInstanceAs (Decidable (_ ∧ _))

/-- The mappings of a process: in the order of their start addresses, not empty,
disjoint, and with offsets that stay in their word up to the end. -/
structure Disjoint (M : FileMaps) : Prop where
  sorted : Sorted M.startKey M.fileMapTreeRoot
  start_lt : ∀ x ∈ inorder M.fileMapTreeRoot,
    (M.fileMapTreeNodes x).start < (M.fileMapTreeNodes x).tail
  tail_lt : ∀ x ∈ inorder M.fileMapTreeRoot, (M.fileMapTreeNodes x).tail < wordSize
  offset_le : ∀ x ∈ inorder M.fileMapTreeRoot, (M.fileMapTreeNodes x).offset +
    ((M.fileMapTreeNodes x).tail - (M.fileMapTreeNodes x).start) ≤ wordSize
  apart : ∀ x ∈ inorder M.fileMapTreeRoot, ∀ y ∈ inorder M.fileMapTreeRoot, x ≠ y →
    (M.fileMapTreeNodes x).tail ≤ (M.fileMapTreeNodes y).start ∨
      (M.fileMapTreeNodes y).tail ≤ (M.fileMapTreeNodes x).start

instance : Decidable M.Disjoint :=
  decidable_of_iff ((inorder M.fileMapTreeRoot).Pairwise (fun x y => M.startKey x < M.startKey y) ∧
      (∀ x ∈ inorder M.fileMapTreeRoot,
        (M.fileMapTreeNodes x).start < (M.fileMapTreeNodes x).tail ∧
          (M.fileMapTreeNodes x).tail < wordSize ∧ (M.fileMapTreeNodes x).offset +
            ((M.fileMapTreeNodes x).tail - (M.fileMapTreeNodes x).start) ≤ wordSize) ∧
      ∀ x ∈ inorder M.fileMapTreeRoot, ∀ y ∈ inorder M.fileMapTreeRoot, x ≠ y →
        (M.fileMapTreeNodes x).tail ≤ (M.fileMapTreeNodes y).start ∨
          (M.fileMapTreeNodes y).tail ≤ (M.fileMapTreeNodes x).start)
    ⟨fun ⟨h₁, h₂, h₃⟩ => ⟨h₁, fun x hx => (h₂ x hx).1, fun x hx => (h₂ x hx).2.1,
      fun x hx => (h₂ x hx).2.2, h₃⟩,
      fun h => ⟨h.sorted, fun x hx => ⟨h.start_lt x hx, h.tail_lt x hx, h.offset_le x hx⟩, h.apart⟩⟩

theorem searchCompare_eq_gt {x : ℕ}
    (hx : (M.fileMapTreeNodes x).start < (M.fileMapTreeNodes x).tail) :
    M.searchCompare src (src + n) x = .gt ↔ (M.fileMapTreeNodes x).tail < src := by
  simp only [searchCompare]
  grind

theorem searchCompare_eq_lt {x : ℕ}
    (hx : (M.fileMapTreeNodes x).start < (M.fileMapTreeNodes x).tail) :
    M.searchCompare src (src + n) x = .lt ↔ src + n < (M.fileMapTreeNodes x).start := by
  simp only [searchCompare]
  grind

theorem searchCompare_eq_eq {x : ℕ}
    (hx : (M.fileMapTreeNodes x).start < (M.fileMapTreeNodes x).tail) :
    M.searchCompare src (src + n) x = .eq ↔ M.Touches src n x := by
  simp only [searchCompare, Touches]
  grind

/-- Along disjoint mappings the comparator is monotone. -/
theorem Disjoint.monotone (h : M.Disjoint) (src n : ℕ) :
    Monotone (M.searchCompare src (src + n)) (inorder M.fileMapTreeRoot) := by
  refine List.Pairwise.imp_of_mem ?_ h.sorted
  intro x y hx hy hlt
  have hxs := h.start_lt x hx
  have hys := h.start_lt y hy
  have hne : x ≠ y := fun heq => absurd hlt (heq ▸ Nat.lt_irrefl _)
  have hapart := h.apart x hx y hy hne
  have hlt' : (M.fileMapTreeNodes x).start < (M.fileMapTreeNodes y).start := hlt
  rw [searchCompare_eq_gt hxs, searchCompare_eq_gt hys, searchCompare_eq_lt hxs,
    searchCompare_eq_lt hys]
  omega

theorem findSource_eq_topmost (h : M.Disjoint) (hn : src + n < wordSize) :
    M.findSource src n = topmost (M.Touches src n) M.fileMapTreeRoot := by
  rw [findSource, wadd_of_lt hn]
  exact tfind_eq_topmost (h.monotone src n) fun x hx => searchCompare_eq_eq (h.start_lt x hx)

/-- An address lies in one mapping at most. -/
theorem Disjoint.contains_unique (h : M.Disjoint) {x y : ℕ} (hx : x ∈ inorder M.fileMapTreeRoot)
    (hy : y ∈ inorder M.fileMapTreeRoot) (hcx : M.Contains src x) (hcy : M.Contains src y) :
    x = y := by
  by_contra hne
  have := h.apart x hx y hy hne
  unfold Contains at hcx hcy
  omega

/-! ## What is recorded -/

/-- The call of `insertRec` that `ts_memcpy` makes, if any. -/
def memcpyCall (M : FileMaps) (dest src n : ℕ) : Option InsertCall :=
  (M.findSource src n).map fun x => M.recordCall x dest src

/-- A record is made when some mapping contains `src`, and it is one for this
mapping and the position in it. -/
structure Attributed (M : FileMaps) (dest src : ℕ) (made : Option InsertCall) : Prop where
  made_iff : made.isSome ↔ ∃ m ∈ inorder M.fileMapTreeRoot, M.Contains src m
  fields : ∀ c ∈ made, ∀ m ∈ inorder M.fileMapTreeRoot, M.Contains src m →
    c.dest = dest ∧ c.fileName = (M.fileMapTreeNodes m).fileName ∧
      c.fd = (M.fileMapTreeNodes m).fd ∧
      c.fileOffset = (M.fileMapTreeNodes m).offset + (src - (M.fileMapTreeNodes m).start)

/-- Two mappings show one file, at the same distance from its beginning. -/
def SameView (M : FileMaps) (x m : ℕ) : Prop :=
  (M.fileMapTreeNodes x).fileName = (M.fileMapTreeNodes m).fileName ∧
    toShort (M.fileMapTreeNodes x).fd = (M.fileMapTreeNodes m).fd ∧
    wsub (M.fileMapTreeNodes x).offset (M.fileMapTreeNodes x).start =
      wsub (M.fileMapTreeNodes m).offset (M.fileMapTreeNodes m).start

/-- The mapping nearest to the root that touches the range is as good as one
that contains `src`. -/
def SourceOk (M : FileMaps) (src n : ℕ) : Prop :=
  ∀ x ∈ topmost (M.Touches src n) M.fileMapTreeRoot,
    ∃ m ∈ inorder M.fileMapTreeRoot, M.Contains src m ∧ M.SameView x m

instance (x m : ℕ) : Decidable (M.SameView x m) := inferInstanceAs (Decidable (_ ∧ _ ∧ _))

instance : Decidable (M.SourceOk src n) := by
  unfold SourceOk
  infer_instance

/-- The file position that is recorded, and the distance of a mapping. -/
theorem position_eq_iff (h : M.Disjoint) {x m : ℕ} (hx : x ∈ inorder M.fileMapTreeRoot)
    (hm : m ∈ inorder M.fileMapTreeRoot) (hc : M.Contains src m) :
    wadd (M.fileMapTreeNodes x).offset (wsub src (M.fileMapTreeNodes x).start) =
        (M.fileMapTreeNodes m).offset + (src - (M.fileMapTreeNodes m).start) ↔
      wsub (M.fileMapTreeNodes x).offset (M.fileMapTreeNodes x).start =
        wsub (M.fileMapTreeNodes m).offset (M.fileMapTreeNodes m).start := by
  have h₁ := h.start_lt x hx
  have h₂ := h.tail_lt x hx
  have h₃ := h.offset_le x hx
  have h₄ := h.tail_lt m hm
  have h₅ := h.offset_le m hm
  unfold Contains at hc
  simp only [wadd, wsub, wordSize] at *
  omega

theorem attributed_iff (h : M.Disjoint) (hn : src + n < wordSize) :
    Attributed M dest src (M.memcpyCall dest src n) ↔ M.SourceOk src n := by
  rw [memcpyCall, findSource_eq_topmost h hn]
  cases hx : topmost (M.Touches src n) M.fileMapTreeRoot with
  | none =>
    refine iff_of_true ⟨?_, fun c hc => nomatch hc⟩ fun x hx' => ?_
    · refine iff_of_false (by simp) ?_
      rintro ⟨m, hm, hc⟩
      refine topmost_eq_none.1 hx m hm ?_
      unfold Contains at hc
      unfold Touches
      omega
    · rw [hx] at hx'
      cases hx'
  | some x =>
    have hxt := (topmost_eq_some hx).1
    simp only [Option.map_some, SourceOk, hx, Option.mem_def, Option.some.injEq, forall_eq']
    constructor
    · rintro ⟨hmade, hfields⟩
      obtain ⟨m, hm, hc⟩ := hmade.1 rfl
      obtain ⟨-, hname, hfd, hoff⟩ := hfields _ rfl m hm hc
      exact ⟨m, hm, hc, hname, hfd, (position_eq_iff h hxt hm hc).1 hoff⟩
    · rintro ⟨m, hm, hc, hname, hfd, hview⟩
      refine ⟨iff_of_true rfl ⟨m, hm, hc⟩, ?_⟩
      rintro c hc' m' hm' hcm'
      cases hc'
      obtain rfl := h.contains_unique hm hm' hc hcm'
      exact ⟨rfl, hname, hfd, (position_eq_iff h hxt hm hc).2 hview⟩

end FileMaps

/-! ## The call -/

variable {E : Env} {s s' : State} {dest src n : ℕ}

/-- The calls of `insertRec` that a `ts_memcpy` makes. -/
theorem step_memcpy_calls (h : step E (.memcpy dest src n) s = some s') :
    s'.tree.calls = s.tree.calls ++ (s.maps.memcpyCall dest src n).toList := by
  simp only [step, stepWith, copyRecorded] at h
  split at h
  · rename_i hnone
    cases h
    simp [FileMaps.memcpyCall, hnone]
  · rename_i x hsome
    obtain ⟨T, hT, rfl⟩ := Option.map_eq_some_iff.1 h
    simp [FileMaps.memcpyCall, hsome, RecTree.insertRec_calls hT]

/-- `ts_memcpy` makes the right record, or rightly none, exactly when the mapping
nearest to the root that touches the range is as good as one that contains
`src`, or no mapping touches the range. -/
theorem memcpy_attributed_iff (h : step E (.memcpy dest src n) s = some s')
    (hmaps : s.maps.Disjoint) (hn : src + n < wordSize) :
    (∃ made : Option InsertCall, s'.tree.calls = s.tree.calls ++ made.toList ∧
      FileMaps.Attributed s.maps dest src made) ↔ s.maps.SourceOk src n := by
  rw [← FileMaps.attributed_iff hmaps hn]
  constructor
  · rintro ⟨made, hcalls, hmade⟩
    rw [step_memcpy_calls h, List.append_cancel_left_eq] at hcalls
    have hhead := congrArg List.head? hcalls
    rw [Option.head?_toList, Option.head?_toList] at hhead
    rwa [hhead]
  · exact fun hmade => ⟨_, step_memcpy_calls h, hmade⟩

/-- Two adjacent mappings of different files. -/
def adjacentMappings : List Call :=
  openAndMap 3 1 100 0x10000 0x1000 ++ openAndMap 4 2 200 0x11000 0x1000

/-- A copy from the middle of the first of them. -/
theorem memcpy_attributed_iff_adjacentMappings : ∃ s s', plainRun adjacentMappings = some s ∧
    step plainEnv (.memcpy 0x500000 0x10800 8) s = some s' ∧
    ∃ made : Option InsertCall, s'.tree.calls = s.tree.calls ++ made.toList ∧
      FileMaps.Attributed s.maps 0x500000 0x10800 made := by
  have hrun : (plainRun adjacentMappings).any fun s =>
      decide (s.maps.Disjoint ∧ s.maps.SourceOk 0x10800 8) &&
        (step plainEnv (.memcpy 0x500000 0x10800 8) s).isSome := by
    decide +kernel
  obtain ⟨s, hs, hall⟩ := (Option.any_eq_true _ _).1 hrun
  obtain ⟨hok, hstep⟩ := Bool.and_eq_true_iff.1 hall
  obtain ⟨hmaps, hsource⟩ := of_decide_eq_true hok
  obtain ⟨s', hs'⟩ := Option.isSome_iff_exists.1 hstep
  exact ⟨s, s', hs, hs', (memcpy_attributed_iff hs' hmaps (by decide)).2 hsource⟩

/-- A copy from the beginning of the second one is recorded for the first. -/
theorem adjacentMappings_misattributed : ∃ s s', plainRun adjacentMappings = some s ∧
    s.maps.Disjoint ∧ step plainEnv (.memcpy 0x500000 0x11000 8) s = some s' ∧
    ∃ c, s'.tree.calls = s.tree.calls ++ [c] ∧
      ∃ m ∈ inorder s.maps.fileMapTreeRoot, s.maps.Contains 0x11000 m ∧
        c.fileName ≠ (s.maps.fileMapTreeNodes m).fileName ∧
        ¬ FileMaps.Attributed s.maps 0x500000 0x11000 (some c) := by
  have hrun : (plainRun adjacentMappings).any fun s =>
      decide s.maps.Disjoint && (step plainEnv (.memcpy 0x500000 0x11000 8) s).any fun s' =>
        (s.maps.memcpyCall 0x500000 0x11000 8).any fun c => decide
          (s'.tree.calls = s.tree.calls ++ [c] ∧ ∃ m ∈ inorder s.maps.fileMapTreeRoot,
            s.maps.Contains 0x11000 m ∧ c.fileName ≠ (s.maps.fileMapTreeNodes m).fileName) := by
    decide +kernel
  obtain ⟨s, hs, hall⟩ := (Option.any_eq_true _ _).1 hrun
  obtain ⟨hmaps, hall⟩ := Bool.and_eq_true_iff.1 hall
  obtain ⟨s', hs', hall⟩ := (Option.any_eq_true _ _).1 hall
  obtain ⟨c, -, hc⟩ := (Option.any_eq_true _ _).1 hall
  obtain ⟨hcalls, m, hm, hcontains, hname⟩ := of_decide_eq_true hc
  exact ⟨s, s', hs, of_decide_eq_true hmaps, hs', c, hcalls, m, hm, hcontains, hname,
    fun hattr => hname (hattr.fields c rfl m hm hcontains).2.1⟩

end Cidl
