import Cidl.Lib.Alarm
import Cidl.Mappings.Survival

/-!
# How often garbage is reclaimed

A walk over the whole record tree is expensive, and in a program that never unmaps
a file it finds nothing to give back.  The threshold for the next walk is set
anew after each one, to three fifths of the nodes that are free then.  So the
walks come at pages that are known in advance, the 3202nd that the program copies
to, the 5123rd and so on, and there are at most fourteen of them, however long
the program runs (`reclaims_counted`).

The pool of tree nodes with its threshold is a stack with an alarm, and the
alarm is the walk.
-/

namespace Cidl

open SearchTree Shape

namespace RecTree

variable {L : Libc} {T T' : RecTree} {ofa : ℤ → Option ℕ} {p page : ℕ} {c : InsertCall}

/-- What `addTreeNode` goes by, and the walks so far. -/
def alarm (T : RecTree) : Alarm where
  free := T.recTreeNodePool.idx
  level := T.recTreeNodeThreshold
  rings := T.walks

/-- `RECTREENODEPOOLIDX * RECTREENODETHRESHOLDRATIO`. -/
def thresholdFor (idx : ℕ) : ℕ := idx * 3 / 5

theorem thresholdFor_le (idx : ℕ) : thresholdFor idx ≤ idx := by
  unfold thresholdFor
  omega

theorem alarm_clearPage {dest : ℕ} (ho : Owned L T.shape) (hp : p ∈ T.nodes)
    (h : clearPage p dest T = some T') : T'.alarm = T.alarm := by
  obtain ⟨-, ⟨-, rfl⟩ | ⟨-, newer, oldest, U, -, w, -, rfl⟩⟩ := clearPage_eq_some ho hp h
  · rfl
  · show Alarm.mk U.recTreeNodePool.idx U.recTreeNodeThreshold U.walks = T.alarm
    rw [w.nodePool, w.threshold, w.walks, alarm]

theorem alarm_writeRec (hp : T.findNode page = some p) (h : writeRec L c page p T = some T') :
    T'.alarm = T.alarm := by
  rcases writeRec_eq_some hp h with ⟨-, rfl⟩ | ⟨-, e, arr, ep, ap, -, -, rfl⟩ <;> rfl

/-- The reclaim, when all records are live. -/
theorem alarm_reclaimIfNeeded (ho : Owned L T.shape) (hl : ∀ q ∈ T.nodes, Lively ofa T q)
    (h : reclaimIfNeeded L ofa T = some T') :
    T'.alarm = if T.needsReclaim then
      { free := T.recTreeNodePool.idx, level := thresholdFor T.recTreeNodePool.idx
        rings := T.walks + 1 } else T.alarm := by
  unfold reclaimIfNeeded at h
  split at h
  · rename_i hneeds
    obtain ⟨U, hU, hend⟩ := Option.bind_eq_some_iff.1 h
    cases hend
    have hrun : ∃ mem, U = T.withMem mem ∧ ∀ q ∈ T.nodes, Lively ofa U q := by
      refine runAll_invariant (P := fun U => ∃ mem, U = T.withMem mem ∧
        ∀ q ∈ T.nodes, Lively ofa U q) (fun p _ U V hUV hV => ?_) ⟨T.recMem, rfl, hl⟩ hU
      obtain ⟨mem, rfl, hlU⟩ := hUV
      obtain ⟨mem', hstep, hl'⟩ := reclaimRecTreeNode_live (T := T.withMem mem) ho hlU p
      cases hstep.symm.trans hV
      exact ⟨mem', rfl, hl'⟩
    obtain ⟨mem, rfl, -⟩ := hrun
    rw [if_pos hneeds]
    rfl
  · rename_i hneeds
    cases h
    rw [if_neg hneeds]

theorem alarm_newTreeNode (h : newTreeNode L page T = some (p, T')) :
    T'.alarm = { T.alarm with free := T.alarm.free - 1 } := by
  obtain ⟨head, e, arr, np, hp, ep, ap, hpop, -, -, -, rfl⟩ := newTreeNode_eq_some h
  have hidx : np.idx = T.recTreeNodePool.idx - 1 := by
    unfold Pool.pop at hpop
    split at hpop <;> cases hpop
    rename_i hptr
    rw [Pool.idx, Pool.idx, hptr, List.length_cons, Nat.add_sub_cancel]
  show Alarm.mk np.idx _ _ = _
  rw [hidx]
  rfl

/-- An insertion takes a node for a page that has none. -/
theorem alarm_insertRec (h : Thriving L ofa T) (hT : insertRec L ofa c T = some T') :
    T'.alarm = if addr2PageNum c.dest ∈ T.pages then T.alarm else T.alarm.take thresholdFor := by
  have hlog := h.logCall c
  have halarm : (T.logCall c).alarm = T.alarm := rfl
  simp only [insertRec] at hT
  split at hT
  · rename_i p hp
    obtain ⟨U, hU, hW⟩ := Option.bind_eq_some_iff.1 hT
    rw [if_pos ((mem_pages h.owned).2 ⟨p, hp⟩),
      alarm_writeRec (findNode_clearPage hlog.owned hp hU) hW,
      alarm_clearPage hlog.owned (mem_nodes_of_findNode hp) hU, halarm]
  · rename_i hnew
    obtain ⟨⟨p, V⟩, hV, hW⟩ := Option.bind_eq_some_iff.1 hT
    have hpV := (owned_addTreeNode hlog.owned hnew hV).2
    obtain ⟨U, hU, hV⟩ := Option.bind_eq_some_iff.1 hV
    have hout : addr2PageNum c.dest ∉ T.pages := by
      rw [mem_pages h.owned]
      rintro ⟨p, hp⟩
      cases hp.symm.trans hnew
    rw [if_neg hout, alarm_writeRec hpV hW, alarm_newTreeNode hV,
      alarm_reclaimIfNeeded hlog.owned hlog.lively hU, ← halarm, Alarm.take]
    by_cases hneeds : (T.logCall c).needsReclaim
    · rw [if_pos hneeds]
      exact (if_pos hneeds).symm
    · rw [if_neg hneeds]
      exact (if_neg hneeds).symm

/-- The nodes of the pool and the threshold go together. -/
structure Metered (T : RecTree) : Prop where
  kept : T.alarm.Kept thresholdFor (thresholdFor recTreeNodePoolSize)
  free : T.pages.card + T.alarm.free = recTreeNodePoolSize

theorem metered_initMemory (recMem : ℤ → MemRec) (recBlockEntries : ℕ → RecBlockEntry)
    (recTreeNodes : ℕ → RecTreeNode) :
    Metered (initMemory L recMem recBlockEntries recTreeNodes) := by
  have hfree : (initMemory L recMem recBlockEntries recTreeNodes).alarm.free =
      recTreeNodePoolSize := L.nodeSlabs.length_cells 0
  refine ⟨Alarm.kept_start rfl rfl ?_, ?_⟩
  · rw [hfree]
    decide
  · rw [hfree]
    rfl

theorem metered_insertRec (hm : Metered T) (h : Thriving L ofa T)
    (hc : isLive ofa (recordOf c (addr2PageNum c.dest)) = true)
    (hT : insertRec L ofa c T = some T') : Metered T' := by
  have hroom : (insert (addr2PageNum c.dest) T.pages).card ≤ recTreeNodePoolSize := by
    by_contra hfull
    cases (insertRec_full h (Nat.not_le.1 hfull)).2.2.symm.trans hT
  obtain ⟨U, hU, h', hpages⟩ := insertRec_thriving h hc hroom
  cases hU.symm.trans hT
  have hcard := h'.card_pages_add
  refine ⟨?_, hcard⟩
  rw [alarm_insertRec h hT]
  split
  · exact hm.kept
  · rename_i hout
    refine hm.kept.take thresholdFor_le ?_
    have hfree := hm.free
    rw [hpages, Finset.card_insert_of_notMem hout] at hcard
    omega

/-- The page at which garbage is reclaimed for the `k`-th time, counted from 0. -/
def reclaimPage (k : ℕ) : ℕ :=
  recTreeNodePoolSize + 2 - Alarm.levels thresholdFor (thresholdFor recTreeNodePoolSize) k

theorem Metered.walks_eq (h : Metered T) :
    T.walks = Nat.count (fun k => reclaimPage k ≤ T.pages.card) 14 := by
  have hrings := h.kept.rings_eq thresholdFor_le (show Alarm.levels _ _ 14 ≤ 1 by decide)
  have hiff (k : ℕ) : T.alarm.free + 2 ≤
      Alarm.levels thresholdFor (thresholdFor recTreeNodePoolSize) k ↔
        reclaimPage k ≤ T.pages.card := by
    have hle := @Alarm.levels_antitone thresholdFor (thresholdFor recTreeNodePoolSize)
      thresholdFor_le 0 k (Nat.zero_le k)
    have hfree := h.free
    simp only [Alarm.levels, thresholdFor, recTreeNodePoolSize] at hle
    simp only [reclaimPage, thresholdFor, recTreeNodePoolSize] at *
    omega
  rw [show T.walks = T.alarm.rings from rfl, hrings]
  exact le_antisymm (Nat.count_mono_left fun k _ => (hiff k).1)
    (Nat.count_mono_left fun k _ => (hiff k).2)

end RecTree

/-! ## Runs -/

variable {E : Env} {s s' : State}

open RecTree

theorem metered_step {c : Call} (h : Surviving E s) (hm : Metered s.tree) (hc : NeverUnmaps c)
    (hstep : step E c s = some s') : Metered s'.tree := by
  cases c with
  | «open» a => obtain ⟨M, -, rfl⟩ := Option.map_eq_some_iff.1 hstep; exact hm
  | mmap ret len prot file off => obtain ⟨M, -, rfl⟩ := Option.map_eq_some_iff.1 hstep; exact hm
  | memcpy dest src n =>
    simp only [step, stepWith, copyRecorded] at hstep
    split at hstep
    · cases hstep
      exact hm
    · rename_i x hx
      obtain ⟨T, hT, rfl⟩ := Option.map_eq_some_iff.1 hstep
      exact metered_insertRec hm h.thriving (h.live x (tfind_eq_some hx).1 _ rfl) hT
  | write buf length => cases hstep; exact hm
  | fwrite buf size n => cases hstep; exact hm
  | store addr b => cases hstep; exact hm
  | close | munmap | memcpyTraced | realloc | read => exact hc.elim

/-- In a program that never unmaps or closes a file, the number of pages it has
copied to tells how often garbage has been reclaimed, at most fourteen times. -/
theorem reclaims_counted {recMem : ℤ → MemRec} {recBlockEntries : ℕ → RecBlockEntry}
    {recTreeNodes : ℕ → RecTreeNode} {fileMapTreeNodes : ℕ → FileMapTreeNode} {mem : ℕ → UInt8}
    {cs : List Call} (hcs : ∀ c ∈ cs, NeverUnmaps c)
    (h : runAll (step E) cs
      (initState E recMem recBlockEntries recTreeNodes fileMapTreeNodes mem) = some s) :
    s.tree.walks =
        Nat.count (fun k => reclaimPage k ≤ (destPages s.tree.calls []).card) 14 ∧
      s.tree.walks ≤ 14 := by
  have hend : Surviving E s ∧ Metered s.tree :=
    runAll_invariant (P := fun s => Surviving E s ∧ Metered s.tree)
      (fun c hc _ _ hs hstep => ⟨surviving_step hs.1 (hcs c hc) hstep,
        metered_step hs.1 hs.2 (hcs c hc) hstep⟩)
      ⟨surviving_initState _ _ _ _ _, metered_initMemory _ _ _⟩ h
  have hwalks := hend.2.walks_eq
  rw [hend.1.destPages_nil]
  exact ⟨hwalks, hwalks.trans_le (Nat.count_le ..)⟩

example : (List.range 14).map reclaimPage = [3202, 5123, 6276, 6967, 7382, 7631, 7780, 7870, 7924,
    7956, 7975, 7987, 7994, 7998] := by decide

/-- A program that copies to 3202 pages. -/
theorem plainRun_manyPages : ∃ s,
    plainRun (openAndMap 3 1 100 0x10000 0x1000 ++ (manyPages 3202).map Copy.call) = some s ∧
      (∀ c ∈ openAndMap 3 1 100 0x10000 0x1000 ++ (manyPages 3202).map Copy.call,
        NeverUnmaps c) ∧ (destPages s.tree.calls []).card = 3202 := by
  obtain ⟨s, hs, hcalls, hfound⟩ := plainRun_openAndMap
  have hsurv : Surviving plainEnv s := surviving_run (by decide) hs
  have hcard : (destPages s.tree.calls (manyPages 3202)).card = 3202 := by
    rw [hcalls, card_destPages_manyPages]
  obtain ⟨t, ht, hsurv', hpages⟩ := copies_survive hsurv (mapped_manyPages hfound)
    (hcard.trans_le (by decide))
  refine ⟨t, ?_, ?_, by rw [hsurv'.destPages_nil, hpages, hcard]⟩
  · rw [plainRun, runAll_append, show runAll (step plainEnv) _ plainInit = some s from hs,
      Option.bind_some, ht]
  · have hopen : ∀ c ∈ openAndMap 3 1 100 0x10000 0x1000, NeverUnmaps c := by decide
    intro c hc
    rcases List.mem_append.1 hc with hc | hc
    · exact hopen c hc
    · obtain ⟨m, -, rfl⟩ := List.mem_map.1 hc
      trivial

/-- The page that brings the first reclaim. -/
theorem reclaims_counted_firstReclaim : ∃ s,
    plainRun (openAndMap 3 1 100 0x10000 0x1000 ++ (manyPages 3202).map Copy.call) = some s ∧
      s.tree.walks = 1 := by
  obtain ⟨s, hs, hnever, hcard⟩ := plainRun_manyPages
  refine ⟨s, hs, ?_⟩
  rw [(reclaims_counted hnever hs).1, hcard]
  decide

end Cidl
