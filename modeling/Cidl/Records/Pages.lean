import Cidl.Model.Opens
import Cidl.Records.Capacity

/-!
# Which pages are traced

`ts_isMemTraced` asks whether a page has a node in the record tree.  An insertion
adds the page that it writes to, and only a reclaim takes pages out; moving or
cutting records does neither.  So from any reachable state on, the pages that are
traced are those that were, and those that records were inserted to, as long as no
garbage is reclaimed, and never any others (`isMemTraced_iff`).
-/

namespace Cidl

open SearchTree Shape

namespace RecTree

variable {L : Libc} {T T' T₀ : RecTree} {ofa : ℤ → Option ℕ} {p page : ℕ} {c : InsertCall}

theorem isMemTraced_iff_mem (ho : Owned L T.shape) (ptr : ℕ) :
    T.isMemTraced ptr = true ↔ addr2PageNum ptr ∈ T.pages := by
  rw [mem_pages ho, isMemTraced, Option.isSome_iff_exists]

/-! ## The parts of an insertion -/

theorem pages_congr (hnodes : T'.nodes = T.nodes) (hpage : T'.shape.pageNum = T.shape.pageNum) :
    T'.pages = T.pages := by
  rw [pages, pages, hnodes]
  exact congrArg List.toFinset (List.map_congr_left fun q _ => congrFun hpage q)

theorem pages_setCursor (T : RecTree) (p e : ℕ) (idx : ℤ) : (T.setCursor p e idx).pages = T.pages :=
  pages_congr (by simp [RecTree.nodes]) (by simp)

theorem pages_clearPage (ho : Owned L T.shape) {dest : ℕ} (hp : p ∈ T.nodes)
    (h : clearPage p dest T = some T') : T'.pages = T.pages := by
  obtain ⟨-, hnodes, hpage, -⟩ := owned_clearPage ho hp h
  exact pages_congr hnodes hpage

theorem pages_writeRec (hp : T.findNode page = some p) (h : writeRec L c page p T = some T') :
    T'.pages = T.pages := by
  refine pages_congr (nodes_writeRec hp h) ?_
  rcases writeRec_eq_some hp h with ⟨-, rfl⟩ | ⟨-, e, arr, ep, ap, -, -, rfl⟩
  · simp
  · funext q
    by_cases hq : q = p <;> simp [shape, withBlock, hq]

theorem pages_newTreeNode (ho : Owned L T.shape) (hnew : T.findNode page = none)
    (h : newTreeNode L page T = some (p, T')) : T'.pages = insert page T.pages := by
  have hperm := (owned_newTreeNode ho hnew h).2
  obtain ⟨-, -, hsame⟩ := cleared_newTreeNode ho h
  have hmap := hperm.map T'.pageKey
  rw [List.map_cons, List.map_congr_left fun q hq =>
    show T'.pageKey q = T.pageKey q from congrArg RecTreeNode.pageNum (hsame q hq).node] at hmap
  have hkey : T'.pageKey p = page := by
    obtain ⟨head, e, arr, np, hp, ep, ap, -, -, -, -, rfl⟩ := newTreeNode_eq_some h
    simp [pageKey, withNode]
  rw [pages, List.toFinset_eq_of_perm _ _ hmap, List.toFinset_cons, hkey, pages]

/-- A reclaim adds no page. -/
theorem Shrunk.pages_subset (h : Shrunk T T') : T'.pages ⊆ T.pages := by
  intro page hpage
  rw [pages, List.mem_toFinset, List.mem_map] at hpage ⊢
  obtain ⟨q, hq, rfl⟩ := hpage
  exact ⟨q, (h q hq).1, (h q hq).2.symm⟩

/-- An insertion adds its page to those that a reclaim in front of it leaves. -/
theorem pages_insertRec (ho : Owned L T.shape) (h : insertRec L ofa c T = some T') :
    ∃ kept ⊆ T.pages, T'.pages = insert (addr2PageNum c.dest) kept ∧
      (¬ (T.findNode (addr2PageNum c.dest) = none ∧ T.needsReclaim) → kept = T.pages) := by
  show ∃ kept ⊆ (T.logCall c).pages, _ ∧
    (¬ ((T.logCall c).findNode _ = none ∧ (T.logCall c).needsReclaim) → kept = (T.logCall c).pages)
  have hoU : Owned L (T.logCall c).shape := ho
  simp only [insertRec] at h
  generalize T.logCall c = U at h hoU ⊢
  split at h
  · rename_i p hp
    obtain ⟨V, hV, hW⟩ := Option.bind_eq_some_iff.1 h
    refine ⟨U.pages, Finset.Subset.refl _, ?_, fun _ => rfl⟩
    rw [pages_writeRec (findNode_clearPage hoU hp hV) hW,
      pages_clearPage hoU (mem_nodes_of_findNode hp) hV,
      Finset.insert_eq_of_mem ((mem_pages hoU).2 ⟨p, hp⟩)]
  · rename_i hnew
    obtain ⟨⟨p, V⟩, hadd, hW⟩ := Option.bind_eq_some_iff.1 h
    obtain ⟨-, hp⟩ := owned_addTreeNode hoU hnew hadd
    obtain ⟨W, hreclaim, hV⟩ := Option.bind_eq_some_iff.1 hadd
    obtain ⟨hoW, hshrunk⟩ := owned_reclaimIfNeeded hoU hreclaim
    refine ⟨W.pages, hshrunk.pages_subset, ?_, fun hsteady => ?_⟩
    · rw [pages_writeRec hp hW, pages_newTreeNode hoW (hshrunk.findNode_none hoU hoW hnew) hV]
    · rw [reclaimIfNeeded, if_neg fun hneeds => hsteady ⟨hnew, hneeds⟩] at hreclaim
      cases hreclaim
      rfl

/-! ## Any number of insertions -/

/-- The pages of some insertions. -/
def pagesOf (l : List InsertCall) : Finset ℕ := (l.map fun c => addr2PageNum c.dest).toFinset

theorem pagesOf_concat (l : List InsertCall) (c : InsertCall) :
    pagesOf (l ++ [c]) = insert (addr2PageNum c.dest) (pagesOf l) := by
  rw [pagesOf, List.map_append, List.toFinset_append, Finset.union_comm]
  rfl

/-- From `T₀` to `T` the tree has got no pages but those of insertions. -/
structure Grown (L : Libc) (T₀ T : RecTree) : Prop where
  owned : Owned L T.shape
  within : ∃ l, T.calls = T₀.calls ++ l ∧ T.pages ⊆ T₀.pages ∪ pagesOf l

/-- From `T₀` to `T` the tree has got the pages of all insertions. -/
structure GrownSteady (L : Libc) (T₀ T : RecTree) : Prop where
  owned : Owned L T.shape
  exactly : ∃ l, T.calls = T₀.calls ++ l ∧ T.pages = T₀.pages ∪ pagesOf l

theorem Grown.setCursor (hg : Grown L T₀ T) (p e : ℕ) (idx : ℤ) :
    Grown L T₀ (T.setCursor p e idx) := by
  refine ⟨by simpa using hg.owned, ?_⟩
  rw [pages_setCursor]
  exact hg.within

theorem GrownSteady.setCursor (hg : GrownSteady L T₀ T) (p e : ℕ) (idx : ℤ) :
    GrownSteady L T₀ (T.setCursor p e idx) := by
  refine ⟨by simpa using hg.owned, ?_⟩
  rw [pages_setCursor]
  exact hg.exactly

theorem Grown.insert (hg : Grown L T₀ T) (h : insertRec L ofa c T = some T') : Grown L T₀ T' := by
  obtain ⟨l, hcalls, hpages⟩ := hg.within
  obtain ⟨kept, hkept, heq, -⟩ := pages_insertRec hg.owned h
  refine ⟨owned_insertRec hg.owned h, l ++ [c], ?_, ?_⟩
  · rw [insertRec_calls h, hcalls, List.append_assoc]
  · rw [heq, pagesOf_concat, Finset.union_insert]
    exact Finset.insert_subset_insert _ (hkept.trans hpages)

theorem GrownSteady.insert (hg : GrownSteady L T₀ T) (h : steadyInsert L ofa c T = some T') :
    GrownSteady L T₀ T' := by
  obtain ⟨hsteady, h⟩ := steadyInsert_eq_some h
  obtain ⟨l, hcalls, hpages⟩ := hg.exactly
  obtain ⟨kept, -, heq, hall⟩ := pages_insertRec hg.owned h
  refine ⟨owned_insertRec hg.owned h, l ++ [c], ?_, ?_⟩
  · rw [insertRec_calls h, hcalls, List.append_assoc]
  · rw [heq, hall hsteady, hpages, pagesOf_concat, Finset.union_insert]

end RecTree

/-! ## Runs -/

variable {E : Env} {s s' : State}

open RecTree

/-- What insertions and cuts preserve, every call preserves. -/
theorem tree_invariant {insert : Insert} {P : RecTree → Prop}
    (hins : ∀ ofa c T T', P T → insert ofa c T = some T' → P T')
    (hcut : ∀ T node e idx, P T → P (T.setCursor node e idx)) {c : Call}
    (hs : P s.tree) (h : stepWith E insert c s = some s') : P s'.tree := by
  rcases stepWith_tree h with heq | ⟨ofa, call, h⟩ | ⟨ofa, dest, src, n, -, h⟩ |
    ⟨ofa, ret, ptr, tail, h⟩
  · rwa [heq]
  · exact hins ofa call _ _ hs h
  · exact tsMemcpyTraced_invariant (fun c T T' _ => hins ofa c T T') hs
      (fun node e idx _ _ _ => hcut _ node e idx hs) h
  · exact tsRealloc_invariant (fun c T T' _ => hins ofa c T T') hs h

/-- In every run from a reachable state on, `ts_isMemTraced` reports no page but
those it reported at the beginning and those that records have been inserted to;
and if nothing is reclaimed, it reports all of them. -/
theorem isMemTraced_iff (hs : Reachable E s) (ptr : ℕ) :
    (∀ cs t, runAll (step E) cs s = some t → t.tree.isMemTraced ptr = true →
      s.tree.isMemTraced ptr = true ∨ ∃ c ∈ t.tree.calls.drop s.tree.calls.length,
        addr2PageNum c.dest = addr2PageNum ptr) ∧
    ∀ cs t, runAll (stepWith E (steadyInsert E.libc)) cs s = some t →
      (t.tree.isMemTraced ptr = true ↔
        s.tree.isMemTraced ptr = true ∨ ∃ c ∈ t.tree.calls.drop s.tree.calls.length,
          addr2PageNum c.dest = addr2PageNum ptr) := by
  have ho := reachable_owned hs
  have hdrop : ∀ {t : RecTree} {l}, t.calls = s.tree.calls ++ l →
      (addr2PageNum ptr ∈ s.tree.pages ∪ pagesOf l ↔
        s.tree.isMemTraced ptr = true ∨ ∃ c ∈ t.calls.drop s.tree.calls.length,
          addr2PageNum c.dest = addr2PageNum ptr) := by
    intro t l hcalls
    rw [hcalls, List.drop_left, Finset.mem_union, isMemTraced_iff_mem ho, pagesOf,
      List.mem_toFinset, List.mem_map]
  refine ⟨fun cs t h htraced => ?_, fun cs t h => ?_⟩
  · have hend : Grown E.libc s.tree t.tree :=
      runAll_invariant (P := fun t => Grown E.libc s.tree t.tree)
        (fun c _ u u' hu hstep => tree_invariant (fun _ _ _ _ hT h => hT.insert h)
          (fun _ p e idx hT => hT.setCursor p e idx) hu hstep)
        ⟨ho, [], (List.append_nil _).symm, by simp [pagesOf]⟩ h
    obtain ⟨l, hcalls, hpages⟩ := hend.within
    exact (hdrop hcalls).1 (hpages ((isMemTraced_iff_mem hend.owned ptr).1 htraced))
  · have hend : GrownSteady E.libc s.tree t.tree :=
      runAll_invariant (P := fun t => GrownSteady E.libc s.tree t.tree)
        (fun c _ u u' hu hstep => tree_invariant (fun _ _ _ _ hT h => hT.insert h)
          (fun _ p e idx hT => hT.setCursor p e idx) hu hstep)
        ⟨ho, [], (List.append_nil _).symm, by simp [pagesOf]⟩ h
    obtain ⟨l, hcalls, hpages⟩ := hend.exactly
    rw [isMemTraced_iff_mem hend.owned, hpages]
    exact hdrop hcalls

/-- Eight bytes of a mapped file. -/
def copiedOnce : List Call := openAndMap 3 1 100 0x10000 0x1000 ++ [.memcpy 0x500000 0x10000 8]

/-- When they are moved, both pages are traced. -/
theorem isMemTraced_iff_copiedOnce : ∃ s t, plainRun copiedOnce = some s ∧
    runAll (stepWith plainEnv (steadyInsert plainLibc))
      [.memcpyTraced 0x900000 0x500000 8] s = some t ∧
    t.tree.isMemTraced 0x500fff = true ∧ t.tree.isMemTraced 0x900fff = true := by
  have hrun : (plainRun copiedOnce).any fun s => decide (s.tree.isMemTraced 0x500fff = true) &&
      (runAll (stepWith plainEnv (steadyInsert plainLibc))
        [.memcpyTraced 0x900000 0x500000 8] s).any fun t =>
          decide (∃ c ∈ t.tree.calls.drop s.tree.calls.length,
            addr2PageNum c.dest = addr2PageNum 0x900fff) := by
    decide +kernel
  obtain ⟨s, hs, hall⟩ := (Option.any_eq_true _ _).1 hrun
  obtain ⟨hbefore, hmoved⟩ := Bool.and_eq_true_iff.1 hall
  obtain ⟨t, ht, hcall⟩ := (Option.any_eq_true _ _).1 hmoved
  have hreach := reachable_plainRun hs
  exact ⟨s, t, hs, ht, ((isMemTraced_iff hreach _).2 _ t ht).2 (Or.inl (of_decide_eq_true hbefore)),
    ((isMemTraced_iff hreach _).2 _ t ht).2 (Or.inr (of_decide_eq_true hcall))⟩

end Cidl
