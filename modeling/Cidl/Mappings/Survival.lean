import Cidl.Mappings.Liveness
import Cidl.Mappings.Nodes
import Cidl.Records.Capacity

/-!
# How long tracing goes on

A program that maps files, copies out of them and never unmaps or closes one
needs a tree node for every page it copies to, for good.  The pool of tree nodes
is the one that does not grow, so its copies come to their end as long as their
destinations lie on no more pages than the pool has nodes, and the first copy
beyond that ends the program (`copies_complete_iff`).

`Surviving` is the invariant of such a run: the tree thrives, and its pages are
those of the calls of `insertRec` so far.
-/

namespace Cidl

open SearchTree FileMaps RecTree

variable {E : Env} {L : Libc} {M M' : FileMaps} {s s' : State}

/-! ## Copies out of mapped files -/

/-- The arguments of a call of `ts_memcpy`. -/
structure Copy where
  dest : ℕ
  src : ℕ
  n : ℕ

/-- The call. -/
def Copy.call (m : Copy) : Call := .memcpy m.dest m.src m.n

/-- The source lies in a mapping. -/
def Copy.Mapped (M : FileMaps) (m : Copy) : Prop := (M.findSource m.src m.n).isSome

instance Copy.decidableMapped (M : FileMaps) (m : Copy) : Decidable (m.Mapped M) :=
  inferInstanceAs (Decidable ((M.findSource m.src m.n).isSome = true))

/-- The pages of the destinations, those of the calls of `insertRec` so far and
those of the copies to come. -/
def destPages (calls : List InsertCall) (ms : List Copy) : Finset ℕ :=
  (calls.map fun c => addr2PageNum c.dest).toFinset ∪
    (ms.map fun m => addr2PageNum m.dest).toFinset

/-- A call of a program that never takes a mapping out and copies with `ts_memcpy`
only.  The descriptor of a mapping has the slot of the `short` that its records
keep of it. -/
def NeverUnmaps : Call → Prop
  | .open _ | .memcpy .. | .write .. | .fwrite .. | .store .. => True
  | .mmap _ _ _ file _ => slotOf (toShort file) = slotOf file
  | .close .. | .munmap _ | .memcpyTraced .. | .realloc .. | .read .. => False

instance : (c : Call) → Decidable (NeverUnmaps c)
  | .open _ | .memcpy .. | .write .. | .fwrite .. | .store .. => instDecidableTrue
  | .mmap _ _ _ file _ => inferInstanceAs (Decidable (slotOf (toShort file) = slotOf file))
  | .close .. | .munmap _ | .memcpyTraced .. | .realloc .. | .read .. => instDecidableFalse

/-! ## The mappings -/

/-- No mapping is lost and none dies. -/
structure Lasting (M M' : FileMaps) : Prop where
  table : ∀ i, (M.openFileArray i).isSome → (M'.openFileArray i).isSome
  live : M.RecordsLive → M'.RecordsLive

theorem Lasting.refl (M : FileMaps) : Lasting M M := ⟨fun _ h => h, fun h => h⟩

/-- When the tree, the table and the descriptors of its mappings stay. -/
theorem lasting_of_eq (hroot : M'.fileMapTreeRoot = M.fileMapTreeRoot)
    (htable : M'.openFileArray = M.openFileArray)
    (hfd : ∀ x, (M'.fileMapTreeNodes x).fd = (M.fileMapTreeNodes x).fd) : Lasting M M' where
  table i h := by rwa [htable]
  live h m hm r hr := by
    rw [hroot] at hm
    rw [hfd] at hr
    rw [htable]
    exact h m hm r hr

theorem lasting_countUse (M : FileMaps) (x : ℕ) : Lasting M (M.countUse x) := by
  refine lasting_of_eq rfl rfl fun z => ?_
  obtain ⟨used, h⟩ := countUse_node M x z
  rw [h]

theorem lasting_tsOpen {a : OpenAnswer} (h : M.tsOpen a = some M') : Lasting M M' := by
  unfold tsOpen at h
  split at h
  · cases h
    exact Lasting.refl M
  · dsimp only at h
    split at h
    · split at h <;> cases h
      exact lasting_of_eq rfl rfl fun _ => rfl
    · split at h <;> cases h
      exact lasting_of_eq rfl rfl fun _ => rfl

theorem lasting_register {ret len off : ℕ} {file : ℤ} (hslot : slotOf (toShort file) = slotOf file)
    (h : M.register L ret len file off = some M') : Lasting M M' := by
  obtain ⟨x, -, hnodes, hroot, -, -, htable⟩ := register_eq_some h
  have hkept : ∀ i, (M.openFileArray i).isSome → (M'.openFileArray i).isSome := by
    intro i hi
    rw [htable]
    by_cases hf : i = file.tmod maxFileNum
    · rw [hf, Function.update_self]
      rfl
    · rwa [Function.update_of_ne hf]
  refine ⟨hkept, fun hlive m hm r hr => ?_⟩
  by_cases hmx : m = x
  · subst hmx
    rw [hnodes, Function.update_self] at hr
    show (M'.openFileArray (slotOf r.fd)).isSome = true
    rw [hr, show (M.mapNode ret len file off).fd = file from rfl, hslot, htable, slotOf,
      Function.update_self]
    rfl
  · rw [hroot] at hm
    rw [hnodes, Function.update_of_ne hmx] at hr
    exact isLive_mono hkept (hlive m ((L.search.tsearch_mem hm).resolve_left hmx) r hr)

theorem lasting_tsMmap {ret len prot off : ℕ} {file : ℤ}
    (hslot : slotOf (toShort file) = slotOf file) (h : M.tsMmap L ret len prot file off = some M') :
    Lasting M M' := by
  unfold tsMmap at h
  split at h
  · split at h
    · cases h
    · split at h
      · cases h
        exact Lasting.refl M
      · exact lasting_register hslot h
  · cases h
    exact Lasting.refl M

/-- Counting a use does not change what the sources are found in. -/
theorem findSource_countUse (x src n : ℕ) :
    (M.countUse x).findSource src n = M.findSource src n := by
  have hcmp : (M.countUse x).searchCompare src (wadd src n) = M.searchCompare src (wadd src n) := by
    funext z
    obtain ⟨used, h⟩ := countUse_node M x z
    simp only [searchCompare, h]
  rw [findSource, hcmp]
  rfl

/-! ## The invariant -/

/-- The tree thrives, every mapping is taken for a mapped file, and the pages with
a node are those that records were inserted for. -/
structure Surviving (E : Env) (s : State) : Prop where
  thriving : Thriving E.libc s.maps.openFileArray s.tree
  live : s.maps.RecordsLive
  touched : s.tree.pages = (s.tree.calls.map fun c => addr2PageNum c.dest).toFinset

theorem surviving_initState (recMem : ℤ → MemRec) (recBlockEntries : ℕ → RecBlockEntry)
    (recTreeNodes : ℕ → RecTreeNode) (fileMapTreeNodes : ℕ → FileMapTreeNode) (mem : ℕ → UInt8) :
    Surviving E (initState E recMem recBlockEntries recTreeNodes fileMapTreeNodes mem) where
  thriving := ⟨owned_initMemory _ _ _, rfl, fun _ hp => absurd hp List.not_mem_nil⟩
  live _ hm := absurd hm List.not_mem_nil
  touched := rfl

theorem Surviving.maps (h : Surviving E s) (hM : Lasting s.maps M) :
    Surviving E { s with maps := M } :=
  ⟨h.thriving.mono hM.table, hM.live h.live, h.touched⟩

theorem Surviving.destPages_nil (h : Surviving E s) : destPages s.tree.calls [] = s.tree.pages := by
  rw [destPages, h.touched]
  exact Finset.union_empty _

/-- A copy out of a mapping, when the pool has a node for its page. -/
theorem copy_survives (h : Surviving E s) {m : Copy} (hm : m.Mapped s.maps)
    (hroom : (insert (addr2PageNum m.dest) s.tree.pages).card ≤ recTreeNodePoolSize) :
    ∃ s', step E m.call s = some s' ∧ Surviving E s' ∧
      s'.tree.calls.map (fun c => addr2PageNum c.dest) =
        s.tree.calls.map (fun c => addr2PageNum c.dest) ++ [addr2PageNum m.dest] ∧
      ∃ x, s'.maps = s.maps.countUse x := by
  obtain ⟨x, hx⟩ := Option.isSome_iff_exists.1 hm
  have hlive := h.live x (tfind_eq_some hx).1
    (recordOf (s.maps.recordCall x m.dest m.src) (addr2PageNum m.dest)) rfl
  obtain ⟨T, hT, hthrive, hpages⟩ := insertRec_thriving h.thriving hlive hroom
  have hcalls := insertRec_calls hT
  have hstep : step E m.call s = some { s with
      tree := T, maps := s.maps.countUse x, mem := copyBytes m.dest m.src m.n s.mem } := by
    simp only [step, stepWith, Copy.call, copyRecorded, hx, hT, Option.map_some]
  have hlist : T.calls.map (fun c => addr2PageNum c.dest) =
      s.tree.calls.map (fun c => addr2PageNum c.dest) ++ [addr2PageNum m.dest] := by
    rw [hcalls, List.map_append]
    rfl
  refine ⟨_, hstep, ⟨hthrive, (lasting_countUse s.maps x).live h.live, ?_⟩, hlist, x, rfl⟩
  show T.pages = (T.calls.map fun c => addr2PageNum c.dest).toFinset
  rw [hlist, hpages, List.toFinset_append, ← h.touched, Finset.union_comm]
  rfl

/-- The copy for which it has none. -/
theorem copy_fails (h : Surviving E s) {m : Copy} (hm : m.Mapped s.maps)
    (hfull : recTreeNodePoolSize < (insert (addr2PageNum m.dest) s.tree.pages).card) :
    step E m.call s = none := by
  obtain ⟨x, hx⟩ := Option.isSome_iff_exists.1 hm
  have hnone : insertRec E.libc s.maps.openFileArray (s.maps.recordCall x m.dest m.src) s.tree =
      none := (insertRec_full h.thriving hfull).2.2
  simp only [step, stepWith, Copy.call, copyRecorded, hx, hnone, Option.map_none]

theorem surviving_step {c : Call} (h : Surviving E s) (hc : NeverUnmaps c)
    (hstep : step E c s = some s') : Surviving E s' := by
  cases c with
  | «open» a =>
    obtain ⟨M, hM, rfl⟩ := Option.map_eq_some_iff.1 hstep
    exact h.maps (lasting_tsOpen hM)
  | mmap ret len prot file off =>
    obtain ⟨M, hM, rfl⟩ := Option.map_eq_some_iff.1 hstep
    exact h.maps (lasting_tsMmap hc hM)
  | memcpy dest src n =>
    set m : Copy := ⟨dest, src, n⟩ with hm
    by_cases hfound : m.Mapped s.maps
    · by_cases hroom : (insert (addr2PageNum dest) s.tree.pages).card ≤ recTreeNodePoolSize
      · obtain ⟨t, ht, hsurv, -⟩ := copy_survives h hfound hroom
        obtain rfl := Option.some.inj (ht.symm.trans hstep)
        exact hsurv
      · cases (copy_fails h hfound (Nat.lt_of_not_le hroom)).symm.trans hstep
    · have hnone : s.maps.findSource src n = none := Option.not_isSome_iff_eq_none.1 hfound
      simp only [step, stepWith, copyRecorded, hnone, Option.some.injEq] at hstep
      subst hstep
      exact ⟨h.thriving, h.live, h.touched⟩
  | write buf length =>
    cases hstep
    exact ⟨h.thriving, h.live, h.touched⟩
  | fwrite buf size n =>
    cases hstep
    exact ⟨h.thriving, h.live, h.touched⟩
  | store addr b =>
    cases hstep
    exact ⟨h.thriving, h.live, h.touched⟩
  | close | munmap | memcpyTraced | realloc | read => exact hc.elim

/-! ## Runs -/

theorem surviving_run {recMem : ℤ → MemRec} {recBlockEntries : ℕ → RecBlockEntry}
    {recTreeNodes : ℕ → RecTreeNode} {fileMapTreeNodes : ℕ → FileMapTreeNode} {mem : ℕ → UInt8}
    {cs : List Call} (hcs : ∀ c ∈ cs, NeverUnmaps c)
    (h : runAll (step E) cs
      (initState E recMem recBlockEntries recTreeNodes fileMapTreeNodes mem) = some s) :
    Surviving E s :=
  runAll_invariant (P := fun s => Surviving E s)
    (fun c hc _ _ hs hstep => surviving_step hs (hcs c hc) hstep)
    (surviving_initState recMem recBlockEntries recTreeNodes fileMapTreeNodes mem) h

theorem Surviving.insert_subset (h : Surviving E s) (m : Copy) (ms : List Copy) :
    insert (addr2PageNum m.dest) s.tree.pages ⊆ destPages s.tree.calls (m :: ms) := by
  rw [destPages, ← h.touched, List.map_cons, List.toFinset_cons]
  refine Finset.insert_subset ?_ Finset.subset_union_left
  exact Finset.mem_union_right _ (Finset.mem_insert_self ..)

/-- The pages to come after one copy. -/
theorem destPages_cons {calls calls' : List InsertCall} {m : Copy} (ms : List Copy)
    (h : calls'.map (fun c => addr2PageNum c.dest) =
      calls.map (fun c => addr2PageNum c.dest) ++ [addr2PageNum m.dest]) :
    destPages calls' ms = destPages calls (m :: ms) := by
  rw [destPages, destPages, h, List.toFinset_append, Finset.union_assoc, List.map_cons,
    ← List.toFinset_append]
  rfl

theorem mapped_countUse (x : ℕ) {m : Copy} (h : m.Mapped M) : m.Mapped (M.countUse x) := by
  rw [Copy.Mapped, findSource_countUse]
  exact h

/-- Copies to no more pages than the pool has nodes, those with a node included. -/
theorem copies_survive (h : Surviving E s) {ms : List Copy} (hms : ∀ m ∈ ms, m.Mapped s.maps)
    (hroom : (destPages s.tree.calls ms).card ≤ recTreeNodePoolSize) :
    ∃ t, runAll (step E) (ms.map Copy.call) s = some t ∧ Surviving E t ∧
      t.tree.pages = destPages s.tree.calls ms := by
  induction ms generalizing s with
  | nil => exact ⟨s, rfl, h, h.destPages_nil.symm⟩
  | cons m ms ih =>
    rw [List.forall_mem_cons] at hms
    have hfirst := (Finset.card_le_card (h.insert_subset m ms)).trans hroom
    obtain ⟨u, hu, hsurv, hcalls, x, hmaps⟩ := copy_survives h hms.1 hfirst
    have hdest := destPages_cons ms hcalls
    have hrest : ∀ m ∈ ms, m.Mapped u.maps := fun m' hm' =>
      hmaps ▸ mapped_countUse x (hms.2 m' hm')
    obtain ⟨t, ht, hsurv', hpages⟩ := ih hsurv hrest (hdest ▸ hroom)
    exact ⟨t, runAll_cons_eq_some.2 ⟨u, hu, ht⟩, hsurv', hpages.trans hdest⟩

/-- Copies to more pages than that. -/
theorem copies_fail (h : Surviving E s) {ms : List Copy} (hms : ∀ m ∈ ms, m.Mapped s.maps)
    (hfull : recTreeNodePoolSize < (destPages s.tree.calls ms).card) :
    runAll (step E) (ms.map Copy.call) s = none := by
  induction ms generalizing s with
  | nil =>
    rw [h.destPages_nil] at hfull
    have := h.thriving.card_pages_add
    omega
  | cons m ms ih =>
    rw [List.forall_mem_cons] at hms
    rw [List.map_cons, runAll_cons]
    by_cases hroom : (insert (addr2PageNum m.dest) s.tree.pages).card ≤ recTreeNodePoolSize
    · obtain ⟨u, hu, hsurv, hcalls, x, hmaps⟩ := copy_survives h hms.1 hroom
      have hrest : ∀ m ∈ ms, m.Mapped u.maps := fun m' hm' =>
        hmaps ▸ mapped_countUse x (hms.2 m' hm')
      rw [hu, Option.bind_some]
      exact ih hsurv hrest (destPages_cons ms hcalls ▸ hfull)
    · rw [copy_fails h hms.1 (Nat.lt_of_not_le hroom), Option.bind_none]

/-- In a program that never unmaps or closes a file, any sequence of copies out of
mapped files comes to its end if and only if the destinations of all copies made
from the beginning lie on at most 8000 pages. -/
theorem copies_complete_iff {recMem : ℤ → MemRec} {recBlockEntries : ℕ → RecBlockEntry}
    {recTreeNodes : ℕ → RecTreeNode} {fileMapTreeNodes : ℕ → FileMapTreeNode} {mem : ℕ → UInt8}
    {cs : List Call} (hcs : ∀ c ∈ cs, NeverUnmaps c)
    (h : runAll (step E) cs
      (initState E recMem recBlockEntries recTreeNodes fileMapTreeNodes mem) = some s)
    (ms : List Copy) (hms : ∀ m ∈ ms, m.Mapped s.maps) :
    (runAll (step E) (ms.map Copy.call) s).isSome ↔
      (destPages s.tree.calls ms).card ≤ 8000 := by
  have hsurv := surviving_run hcs h
  constructor
  · intro hsome
    by_contra hfull
    rw [copies_fail hsurv hms (Nat.lt_of_not_le hfull)] at hsome
    cases hsome
  · intro hroom
    obtain ⟨t, ht, -⟩ := copies_survive hsurv hms hroom
    rw [ht]
    rfl

/-! ## One page more than there are nodes -/

/-- Eight bytes of a mapped file, copied to `k` pages. -/
def manyPages (k : ℕ) : List Copy :=
  (List.range k).map fun i => ⟨0x500000 + 0x1000 * i, 0x10000, 8⟩

theorem card_destPages_manyPages (k : ℕ) : (destPages [] (manyPages k)).card = k := by
  have hpages : (manyPages k).map (fun m => addr2PageNum m.dest) =
      (List.range k).map fun i => 0x500 + i := by
    rw [manyPages, List.map_map]
    refine List.map_congr_left fun i _ => ?_
    simp only [Function.comp_apply, addr2PageNum, pageSize]
    omega
  have hnd : ((List.range k).map fun i => 0x500 + i).Nodup :=
    List.nodup_range.map fun i j h => Nat.add_left_cancel h
  rw [destPages, hpages, List.map_nil, List.toFinset_nil, Finset.empty_union,
    List.toFinset_card_of_nodup hnd, List.length_map, List.length_range]

/-- One file is mapped, and nothing has been copied yet. -/
theorem plainRun_openAndMap : ∃ s, plainRun (openAndMap 3 1 100 0x10000 0x1000) = some s ∧
    s.tree.calls = [] ∧ (s.maps.findSource 0x10000 8).isSome := by
  have hrun : (plainRun (openAndMap 3 1 100 0x10000 0x1000)).any fun s =>
      decide (s.tree.calls = [] ∧ (s.maps.findSource 0x10000 8).isSome) := by
    decide +kernel
  obtain ⟨s, hs, hstart⟩ := (Option.any_eq_true _ _).1 hrun
  exact ⟨s, hs, of_decide_eq_true hstart⟩

theorem mapped_manyPages (h : (s.maps.findSource 0x10000 8).isSome) {k : ℕ} :
    ∀ m ∈ manyPages k, m.Mapped s.maps := by
  intro m hm
  obtain ⟨i, -, rfl⟩ := List.mem_map.1 hm
  exact h

/-- All nodes of the pool are used. -/
theorem copies_complete_iff_manyPages : ∃ s,
    plainRun (openAndMap 3 1 100 0x10000 0x1000) = some s ∧
      (runAll (step plainEnv) ((manyPages 8000).map Copy.call) s).isSome := by
  obtain ⟨s, hs, hcalls, hfound⟩ := plainRun_openAndMap
  refine ⟨s, hs, (copies_complete_iff (by decide) hs _ (mapped_manyPages hfound)).2 ?_⟩
  rw [hcalls, card_destPages_manyPages]

/-- The copy to the next page ends the program: the reclaim finds nothing to give
back, and `allocateRecTreeNode` fails its assertion. -/
theorem manyPages_fails : ∃ s t, plainRun (openAndMap 3 1 100 0x10000 0x1000) = some s ∧
    Reachable plainEnv s ∧ (∀ m ∈ manyPages 8001, m.Mapped s.maps) ∧
    runAll (step plainEnv) ((manyPages 8001).map Copy.call) s = none ∧
    runAll (step plainEnv) ((manyPages 8000).map Copy.call) s = some t ∧
    ∃ U, reclaimIfNeeded plainLibc t.maps.openFileArray t.tree = some U ∧
      U.allocateRecTreeNode = none := by
  obtain ⟨s, hs, hcalls, hfound⟩ := plainRun_openAndMap
  have hsurv : Surviving plainEnv s := surviving_run (by decide) hs
  have hcard (k : ℕ) : (destPages s.tree.calls (manyPages k)).card = k := by
    rw [hcalls, card_destPages_manyPages]
  have hnone := copies_fail hsurv (mapped_manyPages hfound)
    (show recTreeNodePoolSize < (destPages s.tree.calls (manyPages 8001)).card by
      rw [hcard]; decide)
  obtain ⟨t, ht, hsurv', hpages⟩ := copies_survive hsurv (mapped_manyPages hfound)
    (hcard 8000).le
  obtain ⟨U, hU, hpool⟩ := addTreeNode_full hsurv'.thriving (by rw [hpages, hcard])
  exact ⟨s, t, hs, reachable_plainRun hs, mapped_manyPages hfound, hnone, ht, U, hU, hpool⟩

end Cidl
