import Cidl.Mappings.Reclaims
import Cidl.Records.CopyPages
import Cidl.Records.History

/-!
# What reclaiming garbage does to the history

In a program that never unmaps a file there is no garbage, but the reclaimer comes
all the same, and it writes live records over the first slots of older blocks.
Nothing else is lost: after any number of walks a page has as many records as the
longest ascending end of its insertions, and each of them is the one that was
inserted, but for the first ones of its older blocks (`surviving_history`).

The damage does not spread, since whether a page is cleared depends on the last
record of its newest block alone (`Faded.overtakes_iff`).
-/

namespace Cidl

open SearchTree Shape RecTree

/-! ## Lists that have faded -/

/-- The lists are equally long and agree, but for the first records of the full
blocks before the last one. -/
structure Faded (t l : List MemRec) : Prop where
  length : l.length = t.length
  kept : ∀ i, i % memRecPerEntry ≠ 0 ∨ t.length ≤ i + memRecPerEntry → l[i]? = t[i]?

namespace Faded

variable {t l l' : List MemRec}

theorem refl (t : List MemRec) : Faded t t := ⟨rfl, fun _ _ => rfl⟩

theorem trans (h : Faded t l) (h' : Faded l l') : Faded t l' where
  length := h'.length.trans h.length
  kept i hi := (h'.kept i (by rwa [h.length])).trans (h.kept i hi)

/-- A record that is added is there, and what has faded before stays as it is. -/
theorem append (h : Faded t l) (r : MemRec) : Faded (t ++ [r]) (l ++ [r]) where
  length := by rw [List.length_append, List.length_append, h.length]
  kept i hi := by
    rw [List.length_append, List.length_singleton] at hi
    rcases Nat.lt_trichotomy i t.length with hlt | rfl | hgt
    · rw [List.getElem?_append_left (h.length ▸ hlt), List.getElem?_append_left hlt]
      exact h.kept i (by omega)
    · rw [← h.length, List.getElem?_concat_length, h.length, List.getElem?_concat_length]
    · rw [List.getElem?_eq_none (by simp [h.length]; omega),
        List.getElem?_eq_none (by simp; omega)]

/-- The last record is never lost. -/
theorem getLast?_eq (h : Faded t l) : l.getLast? = t.getLast? := by
  rw [List.getLast?_eq_getElem?, List.getLast?_eq_getElem?, h.length]
  exact h.kept _ (by simp only [memRecPerEntry]; omega)

theorem overtakes_iff (h : Faded t l) (off : ℤ) : Overtakes l off ↔ Overtakes t off := by
  rw [Overtakes, Overtakes, h.getLast?_eq]

theorem appendRec (h : Faded t l) (r : MemRec) :
    Faded (RecTree.appendRec t r) (RecTree.appendRec l r) := by
  rw [RecTree.appendRec, RecTree.appendRec]
  by_cases hover : Overtakes t r.pageOffset
  · rw [if_pos hover, if_pos ((h.overtakes_iff _).2 hover)]
    exact refl _
  · rw [if_neg hover, if_neg ((h.overtakes_iff _).not.2 hover)]
    exact h.append r

/-- A page with a single block has lost nothing. -/
theorem eq_of_length_le (h : Faded t l) (hle : t.length ≤ memRecPerEntry) : l = t :=
  List.ext_getElem? fun i => h.kept i (Or.inr (hle.trans (Nat.le_add_left ..)))

end Faded

namespace RecTree

variable {L : Libc} {T T' U V : RecTree} {ofa : ℤ → Option ℕ} {mem : ℤ → MemRec} {p q page : ℕ}
  {c : InsertCall}

/-! ## The reclaimer -/

/-- Records that are copied over first slots of older blocks. -/
theorem Refreshed.faded (ho : Owned L T.shape) (hp : p ∈ T.nodes) (htidy : Tidy T p)
    (hpos : 0 < (T.recTreeNodes p).memRecIdx) (h : Refreshed ofa (T.blocks p).tail T mem) :
    Faded (T.records p) ((T.withMem mem).records p) := by
  have htidy' : Tidy (T.withMem mem) p := ⟨htidy.first, htidy.idx_nonneg, htidy.idx_le⟩
  have hcount : (T.withMem mem).recCount p = T.recCount p := rfl
  refine ⟨by rw [length_records htidy, length_records htidy', hcount], fun j hj => ?_⟩
  rw [length_records htidy] at hj
  rw [records_eq_recAt htidy, records_eq_recAt htidy', hcount, List.getElem?_map, List.getElem?_map]
  rcases Nat.lt_or_ge j (T.recCount p) with hlt | hge
  swap
  · rw [List.getElem?_eq_none (by simpa using hge)]
    rfl
  rw [List.getElem?_range hlt, Option.map_some, Option.map_some, Option.some.injEq]
  -- the block of the record, and its place there
  obtain ⟨older, hb⟩ := htidy.blocks_eq
  have hb : T.blocks p = (T.recTreeNodes p).recModEntry :: older := hb
  have holdest : T.oldestFirst p = older.reverse ++ [(T.recTreeNodes p).recModEntry] := by
    rw [oldestFirst, hb, List.reverse_cons]
  have hidx := htidy.idx_le
  rw [recCount, hb, List.length_cons, Nat.add_sub_cancel] at hlt hj
  have hk : j / memRecPerEntry < (T.oldestFirst p).length := by
    rw [holdest, List.length_append, List.length_reverse, List.length_singleton]
    simp only [memRecPerEntry] at *
    omega
  have hget : (T.oldestFirst p).getD (j / memRecPerEntry) 0 =
      (T.oldestFirst p)[j / memRecPerEntry] := by
    rw [List.getD_eq_getElem?_getD, List.getElem?_eq_getElem hk, Option.getD_some]
  have he : (T.oldestFirst p)[j / memRecPerEntry] ∈ T.blocks p := by
    rw [← List.mem_reverse]
    exact List.getElem_mem hk
  have hmod : j % memRecPerEntry < memRecPerEntry := Nat.mod_lt _ (by decide)
  show mem _ = T.recMem _
  rw [show (T.withMem mem).oldestFirst p = T.oldestFirst p from rfl, hget]
  rcases h ((T.recBlockEntries (T.oldestFirst p)[j / memRecPerEntry]).recArr +
    (j % memRecPerEntry : ℕ)) with heq | ⟨-, f, hf, heq⟩
  · exact heq
  exfalso
  have hfb := List.mem_of_mem_tail hf
  by_cases hef : (T.oldestFirst p)[j / memRecPerEntry] = f
  · -- only in the newest block can it be the first record, and that one is not written
    rw [hef] at heq
    have hzero : j % memRecPerEntry = 0 := by omega
    have hlast : j / memRecPerEntry = older.length := by
      simp only [memRecPerEntry] at *
      omega
    have hnewest : f = (T.recTreeNodes p).recModEntry := by
      have hlen : older.length = older.reverse.length := List.length_reverse.symm
      rw [← hef, List.getElem_eq_iff, hlast, holdest, hlen, List.getElem?_concat_length]
    have hnd := ho.nodup_blocks hp
    rw [show T.shape.blocks p = _ from hb] at hnd
    rw [hb, List.tail_cons, hnewest] at hf
    exact (List.nodup_cons.1 hnd).1 hf
  · exact slot_ne_first ho hp he hfb hef (Int.natCast_nonneg _) (by exact_mod_cast hmod) heq

/-- The walk at one node. -/
theorem reclaimRecTreeNode_faded (ho : Owned L T.shape) (hl : ∀ q ∈ T.nodes, Lively ofa T q)
    (h : reclaimRecTreeNode L ofa p T = some T') :
    ∃ mem, T' = T.withMem mem ∧ (∀ q ∈ T.nodes, Lively ofa T' q) ∧
      ∀ q ∈ T.nodes, Faded (T.records q) (T'.records q) := by
  obtain ⟨mem, hmem, hlively⟩ := reclaimRecTreeNode_live (L := L) ho hl p
  cases hmem.symm.trans h
  refine ⟨mem, rfl, hlively, fun q hq => ?_⟩
  by_cases hp : p ∈ T.nodes
  · -- the node is compacted
    obtain ⟨mem', hcompact, href⟩ := compactNode_live ho hp (hl p hp)
    have hsame : T.withMem mem = T.withMem mem' := by
      obtain ⟨older, hb⟩ := (hl p hp).tidy.blocks_eq
      have hqueue : T.tailheads (T.recTreeNodes p).listHead =
          (T.recTreeNodes p).recModEntry :: older := hb
      have hnot : ¬ ((T.recTreeNodes p).memRecIdx = 0 ∧ older = []) := fun h => by
        have := (hl p hp).pos
        omega
      rw [reclaimRecTreeNode, if_pos (show p ∈ inorder T.recTreeRoot from hp)] at h
      simp only [reclaimSpecialRecTreeNode, hqueue, if_neg hnot, hcompact] at h
      exact (Option.some.inj h).symm
    rw [hsame]
    by_cases hqp : q = p
    · subst hqp
      exact href.faded ho hq (hl q hq).tidy (hl q hq).pos
    · rw [(href.sameNode ho hp hq hqp).records (hl q hq).tidy.idx_le]
      exact Faded.refl _
  · rw [reclaimRecTreeNode, if_neg (show p ∉ inorder T.recTreeRoot from hp)] at h
    rw [← Option.some.inj h]
    exact Faded.refl _

/-- A reclaim: every page keeps its list but for what fades. -/
theorem reclaimIfNeeded_faded (ho : Owned L T.shape) (hl : ∀ q ∈ T.nodes, Lively ofa T q)
    (h : reclaimIfNeeded L ofa T = some T') :
    T'.shape = T.shape ∧ T'.calls = T.calls ∧ (∀ q ∈ T'.nodes, Lively ofa T' q) ∧
      ∀ page, Faded (T.pageLists page) (T'.pageLists page) := by
  obtain ⟨U, hU, hshape, hcalls, hlively⟩ := reclaimIfNeeded_live (L := L) ho hl
  cases hU.symm.trans h
  refine ⟨hshape, hcalls, hlively, fun page => ?_⟩
  have hrecords : ∀ q ∈ T.nodes, Faded (T.records q) (T'.records q) := by
    unfold reclaimIfNeeded at h
    split at h
    · obtain ⟨V, hV, hend⟩ := Option.bind_eq_some_iff.1 h
      cases hend
      have hwalk : ∃ mem, V = T.withMem mem ∧ (∀ q ∈ T.nodes, Lively ofa V q) ∧
          ∀ q ∈ T.nodes, Faded (T.records q) (V.records q) := by
        refine runAll_invariant (P := fun V => ∃ mem, V = T.withMem mem ∧
          (∀ q ∈ T.nodes, Lively ofa V q) ∧ ∀ q ∈ T.nodes, Faded (T.records q) (V.records q))
          (fun p _ V W hV hW => ?_) ⟨T.recMem, rfl, hl, fun _ _ => Faded.refl _⟩ hV
        obtain ⟨mem, rfl, hlV, hfaded⟩ := hV
        obtain ⟨mem', rfl, hlW, hfaded'⟩ := reclaimRecTreeNode_faded (T := T.withMem mem) ho hlV hW
        exact ⟨mem', rfl, hlW, fun q hq => (hfaded q hq).trans (hfaded' q hq)⟩
      obtain ⟨mem, rfl, -, hfaded⟩ := hwalk
      exact hfaded
    · cases h
      exact fun _ _ => Faded.refl _
  have hfind : T'.findNode page = T.findNode page := by
    have hroot : T'.recTreeRoot = T.recTreeRoot := congrArg Shape.root hshape
    have hkey : T'.pageKey = T.pageKey := congrArg Shape.pageNum hshape
    rw [findNode, findNode, hkey, hroot]
  rw [pageLists, pageLists, hfind]
  cases hq : T.findNode page with
  | none => exact Faded.refl _
  | some q => exact hrecords q (mem_nodes_of_findNode hq)

/-! ## Insertions -/

/-- Where the current block holds a record, clearing goes by the last record. -/
theorem Lively.clears_iff (h : Lively ofa T p) {dest : ℕ}
    (hp : T.findNode (addr2PageNum dest) = some p) :
    T.Clears dest ↔ Overtakes (T.pageLists (addr2PageNum dest)) (addr2PageOffset dest) := by
  rw [pageLists_of_findNode hp]
  simp [Clears, hp, mustClear, h.pos, Overtakes, getLast?_records h.tidy h.pos]

/-- What a new node with its first record does to the lists. -/
theorem pageLists_newTreeNode (ho : Owned L U.shape) (htidy : ∀ q ∈ U.nodes, Tidy U q)
    (hnew : U.findNode (addr2PageNum c.dest) = none)
    (hV : newTreeNode L (addr2PageNum c.dest) U = some (p, V)) (hoV : Owned L V.shape)
    (hpV : V.findNode (addr2PageNum c.dest) = some p)
    (hT : writeRec L c (addr2PageNum c.dest) p V = some T') :
    T'.pageLists = Function.update U.pageLists (addr2PageNum c.dest)
      [recordOf c (addr2PageNum c.dest)] := by
  obtain ⟨hempty, hinv, -⟩ := cleared_newTreeNode ho hV
  have hplaced : ∀ q ∈ U.nodes, Placed U q := fun q hq => (htidy q hq).placed
  have hadd := onPage_newTreeNode ho hplaced hnew hV
  have hon := hadd.trans (onPage_writeRec hoV hadd.placed hpV hT)
  obtain ⟨hp, -, hrec⟩ := tidyNode_writeRec hoV hpV hinv.tidy hT
  rw [hempty, List.nil_append] at hrec
  funext other
  by_cases hother : other = addr2PageNum c.dest
  · subst hother
    rw [Function.update_self, pageLists_of_findNode hp, hrec]
  · rw [Function.update_of_ne hother]
    exact pageLists_of_onPage ho (owned_writeRec hoV hpV hT) hplaced hon hother

/-- An insertion follows the abstract rule on lists that have faded, if garbage is
reclaimed first. -/
theorem insertRec_faded (h : Thriving L ofa T) (hT : insertRec L ofa c T = some T') :
    ∃ l : ℕ → List MemRec, (∀ page, Faded (T.pageLists page) (l page)) ∧
      T'.pageLists = appendTo l (addr2PageNum c.dest) (recordOf c (addr2PageNum c.dest)) := by
  have htidy : ∀ q ∈ T.nodes, Tidy T q := fun q hq => (h.lively q hq).tidy
  cases hp : T.findNode (addr2PageNum c.dest) with
  | some p =>
    have hsteady : ¬ (T.findNode (addr2PageNum c.dest) = none ∧ T.needsReclaim) := by
      rintro ⟨hnone, -⟩
      cases hp.symm.trans hnone
    refine ⟨T.pageLists, fun _ => Faded.refl _, ?_⟩
    rw [pageLists_insertRec h.owned htidy hsteady hT, appendTo, appendRec_recordOf]
    simp only [(h.lively p (mem_nodes_of_findNode hp)).clears_iff hp]
  | none =>
    have hlog := h.logCall c
    have hnew : (T.logCall c).findNode (addr2PageNum c.dest) = none := hp
    simp only [insertRec, hnew] at hT
    obtain ⟨⟨p, V⟩, hV, hW⟩ := Option.bind_eq_some_iff.1 hT
    obtain ⟨hoV, hpV⟩ := owned_addTreeNode hlog.owned hnew hV
    obtain ⟨U, hU, hV⟩ := Option.bind_eq_some_iff.1 hV
    obtain ⟨hshape, -, hlively, hfaded⟩ := reclaimIfNeeded_faded hlog.owned hlog.lively hU
    have hnone : U.pageLists (addr2PageNum c.dest) = [] := by
      refine List.length_eq_zero_iff.1 ?_
      rw [(hfaded _).length, pageLists_of_none hnew, List.length_nil]
    have hnewU : U.findNode (addr2PageNum c.dest) = none := by
      have hroot : U.recTreeRoot = (T.logCall c).recTreeRoot := congrArg Shape.root hshape
      have hkey : U.pageKey = (T.logCall c).pageKey := congrArg Shape.pageNum hshape
      rw [findNode, hkey, hroot]
      exact hnew
    refine ⟨U.pageLists, hfaded, ?_⟩
    rw [pageLists_newTreeNode (hshape ▸ hlog.owned) (fun q hq => (hlively q hq).tidy) hnewU hV hoV
      hpV hW, appendTo, hnone, appendRec, if_neg (not_overtakes_nil _), List.nil_append]

/-- The lists of the pages are the longest ascending ends of their histories, faded. -/
def Recalls (T : RecTree) : Prop :=
  ∀ page, ∃ t, AscendingTail MemRec.pageOffset (T.historyOf page) t ∧ Faded t (T.pageLists page)

/-- An insertion continues the list of its page, or begins it anew, whatever has
faded. -/
theorem Recalls.insert (h : Recalls T) (ht : Thriving L ofa T)
    (hT : insertRec L ofa c T = some T') : Recalls T' := by
  obtain ⟨l, hl, hlists⟩ := insertRec_faded ht hT
  intro page
  obtain ⟨t, htail, hfaded⟩ := h page
  have hfaded' := hfaded.trans (hl page)
  rw [historyOf_concat (insertRec_calls hT), hlists, appendTo]
  by_cases hpage : addr2PageNum c.dest = page
  · subst hpage
    rw [if_pos rfl, Function.update_self]
    exact ⟨_, ascendingTail_appendRec htail _, hfaded'.appendRec _⟩
  · rw [if_neg hpage, List.append_nil, Function.update_of_ne (Ne.symm hpage)]
    exact ⟨t, htail, hfaded'⟩

end RecTree

/-! ## Runs -/

variable {E : Env} {s s' : State}

theorem recalls_step {c : Call} (hs : Surviving E s) (h : Recalls s.tree) (hc : NeverUnmaps c)
    (hstep : step E c s = some s') : Recalls s'.tree := by
  cases c with
  | «open» a => obtain ⟨M, -, rfl⟩ := Option.map_eq_some_iff.1 hstep; exact h
  | mmap ret len prot file off => obtain ⟨M, -, rfl⟩ := Option.map_eq_some_iff.1 hstep; exact h
  | memcpy dest src n =>
    simp only [step, stepWith, copyRecorded] at hstep
    split at hstep
    · cases hstep
      exact h
    · obtain ⟨T, hT, rfl⟩ := Option.map_eq_some_iff.1 hstep
      exact h.insert hs.thriving hT
  | write buf length => cases hstep; exact h
  | fwrite buf size n => cases hstep; exact h
  | store addr b => cases hstep; exact h
  | close | munmap | memcpyTraced | realloc | read => exact hc.elim

/-- In a program that never unmaps a file, whatever reclaims take place, a page has
as many records as the longest ascending end of the insertions to it, and they are
those insertions, but for the first ones of its older blocks. -/
theorem surviving_history {recMem : ℤ → MemRec} {recBlockEntries : ℕ → RecBlockEntry}
    {recTreeNodes : ℕ → RecTreeNode} {fileMapTreeNodes : ℕ → FileMapTreeNode} {mem : ℕ → UInt8}
    {cs : List Call} (hcs : ∀ c ∈ cs, NeverUnmaps c)
    (h : runAll (step E) cs
      (initState E recMem recBlockEntries recTreeNodes fileMapTreeNodes mem) = some s) (page : ℕ) :
    ∃ t, AscendingTail MemRec.pageOffset (s.tree.historyOf page) t ∧
      Faded t (s.tree.pageLists page) ∧
      (t.length ≤ memRecPerEntry → s.tree.pageLists page = t) := by
  have hend : Surviving E s ∧ Recalls s.tree :=
    runAll_invariant (P := fun s => Surviving E s ∧ Recalls s.tree)
      (fun c hc _ _ hs hstep => ⟨surviving_step hs.1 (hcs c hc) hstep,
        recalls_step hs.1 hs.2 (hcs c hc) hstep⟩)
      ⟨surviving_initState _ _ _ _ _, fun _ => ⟨[], AscendingTail.nil, Faded.refl []⟩⟩ h
  obtain ⟨t, htail, hfaded⟩ := hend.2 page
  exact ⟨t, htail, hfaded, hfaded.eq_of_length_le⟩

/-- After a reclaim, which comes with the 3202nd page, the first page still has the
record that was inserted there. -/
theorem surviving_history_manyPages : ∃ s,
    plainRun (openAndMap 3 1 100 0x10000 0x1000 ++ (manyPages 3202).map Copy.call) = some s ∧
      ∃ t, AscendingTail MemRec.pageOffset (s.tree.historyOf 0x500) t ∧
        Faded t (s.tree.pageLists 0x500) := by
  obtain ⟨s, hs, hnever, -⟩ := plainRun_manyPages
  obtain ⟨t, htail, hfaded, -⟩ := surviving_history hnever hs 0x500
  exact ⟨s, hs, t, htail, hfaded⟩

end Cidl
