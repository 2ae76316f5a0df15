import Cidl.Records.Apart
import Cidl.Records.Bounds
import Cidl.Records.Lively

/-!
# How many pages a record tree can hold

While every file stays mapped, no node is ever given back, and the pool of tree
nodes does not grow.  An insertion then comes to its end exactly when the pages
that have a node, with its own page, are at most as many as the pool has nodes
(`insertRec_thriving`, `insertRec_full`).  The other pools grow, and a page has
no more blocks than it has offsets, so they never come to their limit.
-/

namespace Cidl

open SearchTree Shape

namespace RecTree

variable {L : Libc} {T T' : RecTree} {ofa : ℤ → Option ℕ} {p q page : ℕ} {c : InsertCall}

/-- How many nodes `initMemory` puts in the pool. -/
abbrev recTreeNodePoolSize : ℕ := 8000

/-! ## The pages of a tree -/

/-- The pages that have a node. -/
def pages (T : RecTree) : Finset ℕ := (T.nodes.map T.pageKey).toFinset

theorem mem_pages (ho : Owned L T.shape) : page ∈ T.pages ↔ ∃ p, T.findNode page = some p := by
  simp only [pages, List.mem_toFinset, List.mem_map, findNode_eq_some ho]

theorem card_pages (ho : Owned L T.shape) : T.pages.card = T.nodes.length := by
  have hnd : (T.nodes.map T.pageKey).Nodup :=
    ho.nodup_nodes.map_on fun a ha b hb heq => ho.sorted.key_inj ha hb heq
  rw [pages, List.toFinset_card_of_nodup hnd, List.length_map]

/-- Every object has one owner, no node was added to the pool, and all records
are of files that are still mapped. -/
structure Thriving (L : Libc) (ofa : ℤ → Option ℕ) (T : RecTree) : Prop where
  owned : Owned L T.shape
  size : T.recTreeNodePool.size = recTreeNodePoolSize
  lively : ∀ p ∈ T.nodes, Lively ofa T p

theorem Thriving.card_pages_add (h : Thriving L ofa T) :
    T.pages.card + T.recTreeNodePool.ptr.length = recTreeNodePoolSize := by
  rw [card_pages h.owned, ← h.size]
  exact h.owned.node.card

theorem Thriving.length_entries_lt (h : Thriving L ofa T) : T.shape.entries.length < 2 ^ 31 := by
  have hsum : T.shape.entries.length ≤ T.nodes.length * pageSize := by
    rw [entries, List.length_flatMap]
    refine (List.sum_le_card_nsmul _ pageSize fun k hk => ?_).trans_eq (by simp)
    obtain ⟨p, hp, rfl⟩ := List.mem_map.1 hk
    exact (h.lively p hp).length_blocks_le
  have hcard := h.card_pages_add
  rw [card_pages h.owned] at hcard
  simp only [pageSize, recTreeNodePoolSize] at *
  omega

theorem Thriving.mono {ofa' : ℤ → Option ℕ} (hle : ∀ i, (ofa i).isSome → (ofa' i).isSome)
    (h : Thriving L ofa T) : Thriving L ofa' T :=
  ⟨h.owned, h.size, fun p hp => (h.lively p hp).mono hle⟩

/-! ## Writing a record -/

theorem writeRec_isSome (hp : T.findNode page = some p)
    (h : (T.recTreeNodes p).memRecIdx < memRecPerEntry ∨
      (∃ e ep, T.recBlockEntryPool.take L.entrySlabs = some (e, ep)) ∧
        ∃ arr ap, T.recArrPool.take L.arrSlabs = some (arr, ap)) :
    ∃ T', writeRec L c page p T = some T' := by
  by_cases hidx : (T.recTreeNodes p).memRecIdx < memRecPerEntry
  · exact ⟨_, if_pos hidx⟩
  · obtain ⟨⟨e, ep, he⟩, arr, ap, ha⟩ := h.resolve_left hidx
    simp only [writeRec, if_neg hidx, hp, allocateMemRecArr, allocateRecBlockEntry, ha, he,
      Option.map_some, Option.bind_eq_bind, Option.bind_some]
    exact ⟨_, rfl⟩

/-- A live record behind the last one keeps a node lively, or makes it so. -/
theorem lively_writeRec (ho : Owned L T.shape) (hp : T.findNode (addr2PageNum c.dest) = some p)
    (htidy : Tidy T p) (hlive : ∀ r ∈ T.records p, isLive ofa r = true)
    (hlast : ∀ r ∈ (T.records p).getLast?, ((T.records p).length : ℤ) ≤ r.pageOffset + 1 ∧
      r.pageOffset < addr2PageOffset c.dest)
    (hc : isLive ofa (recordOf c (addr2PageNum c.dest)) = true)
    (h : writeRec L c (addr2PageNum c.dest) p T = some T') : Lively ofa T' p := by
  have hrec := records_writeRec ho hp htidy h
  refine ⟨tidy_writeRec ho hp htidy h, ?_, fun r hr => ?_, fun r hr => ?_⟩
  · have hnonneg := htidy.idx_nonneg
    rcases writeRec_eq_some hp h with ⟨-, rfl⟩ | ⟨-, e, arr, ep, ap, -, -, rfl⟩
    · rw [setCursor_node]
      show 0 < (T.recTreeNodes p).memRecIdx + 1
      omega
    · simp [withBlock]
  · rw [hrec] at hr
    rcases List.mem_append.1 hr with hr | hr
    · exact hlive r hr
    · exact List.mem_singleton.1 hr ▸ hc
  · rw [hrec, List.getLast?_concat] at hr
    obtain rfl := Option.some.inj hr
    have hoff := recordOf_pageOffset c
    have h₀ := addr2PageOffset_nonneg c.dest
    have hlt := addr2PageOffset_lt c.dest
    rw [hrec, hoff, List.length_append, List.length_singleton]
    refine ⟨?_, hlt⟩
    rcases List.eq_nil_or_concat' (T.records p) with hnil | ⟨l, a, hl⟩
    · rw [hnil, List.length_nil]
      push_cast
      omega
    · obtain ⟨hlen, hoff'⟩ := hlast a (by rw [hl, List.getLast?_concat]; rfl)
      push_cast
      omega

/-- A tree thrives after a record was written to a node of it that is lively then. -/
theorem thriving_writeRec (ho : Owned L T.shape)
    (hsize : T.recTreeNodePool.size = recTreeNodePoolSize)
    (hothers : ∀ q ∈ T.nodes, q ≠ p → Lively ofa T q) (hpl : Placed T p)
    (hp : T.findNode page = some p) (h : writeRec L c page p T = some T')
    (hl : Lively ofa T' p) : Thriving L ofa T' ∧ T'.pages = T.pages := by
  have hnodes := nodes_writeRec hp h
  have hsame := (placed_writeRec ho hp hpl h).2
  have hp' : (T'.recTreeNodes p).pageNum = (T.recTreeNodes p).pageNum := by
    rcases writeRec_eq_some hp h with ⟨-, rfl⟩ | ⟨-, e, arr, ep, ap, -, -, rfl⟩
    · rw [setCursor_node]
      rfl
    · simp [withBlock]
  refine ⟨⟨owned_writeRec ho hp h, ?_, fun q hq => ?_⟩, ?_⟩
  · rw [← hsize]
    rcases writeRec_eq_some hp h with ⟨-, rfl⟩ | ⟨-, e, arr, ep, ap, -, -, rfl⟩ <;> rfl
  · rw [hnodes] at hq
    by_cases hqp : q = p
    · exact hqp ▸ hl
    · exact (hsame q hq hqp).lively (hothers q hq hqp)
  · rw [pages, pages, hnodes]
    refine congrArg List.toFinset (List.map_congr_left fun q hq => ?_)
    by_cases hqp : q = p
    · exact hqp ▸ hp'
    · exact congrArg RecTreeNode.pageNum (hsame q hq hqp).node

/-! ## Inserting a record -/

theorem Thriving.logCall (h : Thriving L ofa T) (c : InsertCall) : Thriving L ofa (T.logCall c) :=
  ⟨h.owned, h.size, fun q hq => (sameNode_logCall T c q).lively (h.lively q hq)⟩

/-- Clearing a page never fails. -/
theorem clearPage_isSome (ho : Owned L T.shape) (hp : p ∈ T.nodes) (ht : Tidy T p) (dest : ℕ) :
    ∃ T', clearPage p dest T = some T' := by
  unfold clearPage
  rw [if_neg (Int.not_lt.2 ht.idx_nonneg)]
  split
  · obtain ⟨older, hb⟩ := ht.blocks_eq
    obtain ⟨newer, oldest, hb'⟩ : ∃ newer oldest, T.blocks p = newer ++ [oldest] :=
      (List.eq_nil_or_concat' (T.blocks p)).resolve_left (by simp [hb])
    obtain ⟨U, hU, -, -⟩ := withdrawBlocks_isSome ho hp hb'
    obtain ⟨-, w⟩ := owned_withdrawBlocks ho hp hb' hU
    have hfirst : U.tailqFirst (T.recTreeNodes p).listHead = some oldest := by
      rw [tailqFirst, w.tailheads, Function.update_self]
      rfl
    refine ⟨U.setCursor p oldest 0, ?_⟩
    simp only [Option.bind_eq_bind, withdrawNewer_eq]
    rw [show T.tailheads (T.recTreeNodes p).listHead = newer ++ [oldest] from hb',
      List.dropLast_concat, hU, Option.bind_some, hfirst, Option.bind_some]
  · exact ⟨T, rfl⟩

/-- On a page that has a node the insertion comes to its end. -/
theorem clearAndWrite_thriving (h : Thriving L ofa T)
    (hp : T.findNode (addr2PageNum c.dest) = some p)
    (hc : isLive ofa (recordOf c (addr2PageNum c.dest)) = true) :
    ∃ T', (clearPage p c.dest T).bind (writeRec L c (addr2PageNum c.dest) p) = some T' ∧
      Thriving L ofa T' ∧ T'.pages = T.pages := by
  have hpn := mem_nodes_of_findNode hp
  have hl := h.lively p hpn
  obtain ⟨V, hV⟩ := clearPage_isSome h.owned hpn hl.tidy c.dest
  obtain ⟨hoV, hnodes, hpage, -⟩ := owned_clearPage h.owned hpn hV
  have hpV := findNode_clearPage h.owned hp hV
  have hpages : V.pages = T.pages := by
    rw [pages, pages, hnodes]
    exact congrArg List.toFinset (List.map_congr_left fun q _ => congrFun hpage q)
  rw [hV, Option.bind_some, ← hpages]
  rcases cleared_clearPage h.owned hpn hV with ⟨hkeep, rfl⟩ | ⟨hclear, hcleared⟩
  · -- the last record lies below, as the code has checked
    have hlast : ∀ r ∈ (V.records p).getLast?, r.pageOffset < addr2PageOffset c.dest := by
      rw [getLast?_records hl.tidy hl.pos]
      intro r hr
      cases hr
      exact Int.not_le.1 fun hle => hkeep ⟨hl.pos, hle⟩
    obtain ⟨T', hT'⟩ := writeRec_isSome (L := L) (c := c) hp
      (Or.inr ⟨h.owned.entry.take_isSome h.length_entries_lt, h.owned.arr.take_isSome (by
        rw [arrays, List.length_map]
        exact h.length_entries_lt)⟩)
    exact ⟨T', hT', thriving_writeRec h.owned h.size (fun q hq _ => h.lively q hq) hl.tidy.placed hp
      hT' (lively_writeRec h.owned hp hl.tidy hl.live
        (fun r hr => ⟨(hl.last r hr).1, hlast r hr⟩) hc hT')⟩
  · -- the oldest block is left, and it is empty
    obtain ⟨-, ⟨hkeep, -⟩ | ⟨-, newer, oldest, U, -, w, -, rfl⟩⟩ := clearPage_eq_some h.owned hpn hV
    · exact absurd hclear hkeep
    obtain ⟨T', hT'⟩ := writeRec_isSome (L := L) (c := c) hpV
      (Or.inl (by rw [setCursor_node]; exact (by decide : (0 : ℤ) < memRecPerEntry)))
    have hothers : ∀ q ∈ (U.setCursor p oldest 0).nodes, q ≠ p →
        Lively ofa (U.setCursor p oldest 0) q := by
      intro q hq hne
      rw [hnodes] at hq
      exact (hcleared.others q hq hne).lively (h.lively q hq)
    exact ⟨T', hT', thriving_writeRec hoV (w.nodePool ▸ h.size) hothers hcleared.inv.placed hpV hT'
      (lively_writeRec hoV hpV hcleared.inv.tidy (by simp [hcleared.records])
        (by simp [hcleared.records]) hc hT')⟩

/-- A new node, when the pool has one left. -/
theorem newTreeNode_isSome (h : Thriving L ofa T) (hroom : T.pages.card < recTreeNodePoolSize)
    (page : ℕ) : ∃ p T', newTreeNode L page T = some (p, T') := by
  rw [card_pages h.owned] at hroom
  obtain ⟨p, np, hn⟩ := h.owned.node.pop_isSome (hroom.trans_eq h.size.symm)
  obtain ⟨head, hp, hh⟩ := h.owned.head.take_isSome (by
    rw [heads, List.length_map]
    exact hroom.trans (by decide))
  obtain ⟨e, ep, he⟩ := h.owned.entry.take_isSome h.length_entries_lt
  obtain ⟨arr, ap, ha⟩ := h.owned.arr.take_isSome (by
    rw [arrays, List.length_map]
    exact h.length_entries_lt)
  simp only [shape] at hn hh he ha
  simp only [newTreeNode, allocateRecTreeNode, allocateTailHead, allocateRecBlockEntry,
    allocateMemRecArr, tailqInit, setQueue, hn, hh, he, ha, Option.map_some, Option.bind_eq_bind,
    Option.bind_some]
  exact ⟨_, _, rfl⟩

/-- The reclaim in front of it changes nothing that matters here. -/
theorem reclaimIfNeeded_thriving (h : Thriving L ofa T) :
    ∃ T', reclaimIfNeeded L ofa T = some T' ∧ Thriving L ofa T' ∧ T'.pages = T.pages ∧
      ∀ page, T'.findNode page = T.findNode page := by
  obtain ⟨T', hT', hshape, -, hl⟩ := reclaimIfNeeded_live h.owned h.lively
  have hsize : T'.recTreeNodePool = T.recTreeNodePool := congrArg Shape.nodePool hshape
  have hroot : T'.recTreeRoot = T.recTreeRoot := congrArg Shape.root hshape
  have hkey : T'.pageKey = T.pageKey := congrArg Shape.pageNum hshape
  refine ⟨T', hT', ⟨hshape ▸ h.owned, hsize ▸ h.size, hl⟩, ?_, ?_⟩
  · rw [pages, pages, hkey, RecTree.nodes, hshape]
  · intro page
    rw [findNode, findNode, hkey, hroot]

/-- On a page without a node the insertion takes one from the pool. -/
theorem addAndWrite_thriving (h : Thriving L ofa T)
    (hnew : T.findNode (addr2PageNum c.dest) = none) (hroom : T.pages.card < recTreeNodePoolSize)
    (hc : isLive ofa (recordOf c (addr2PageNum c.dest)) = true) :
    ∃ T', ((addTreeNode L ofa (addr2PageNum c.dest) T).bind fun r =>
        writeRec L c (addr2PageNum c.dest) r.1 r.2) = some T' ∧
      Thriving L ofa T' ∧ T'.pages = insert (addr2PageNum c.dest) T.pages := by
  obtain ⟨U, hU, hthrive, hpages, hfind⟩ := reclaimIfNeeded_thriving h
  have hnewU := (hfind _).trans hnew
  rw [← hpages] at hroom
  obtain ⟨p, V, hV⟩ := newTreeNode_isSome hthrive hroom (addr2PageNum c.dest)
  have hadd : addTreeNode L ofa (addr2PageNum c.dest) T = some (p, V) := by
    rw [addTreeNode, hU, Option.bind_some, hV]
  obtain ⟨hoV, hpV⟩ := owned_addTreeNode h.owned hnew hadd
  obtain ⟨hrec, hinv, hsame⟩ := cleared_newTreeNode hthrive.owned hV
  have hperm := (owned_newTreeNode hthrive.owned hnewU hV).2
  have hothers : ∀ q ∈ V.nodes, q ≠ p → Lively ofa V q := by
    intro q hq hne
    have hqU : q ∈ U.nodes := (List.mem_cons.1 (hperm.subset hq)).resolve_left hne
    exact (hsame q hqU).lively (hthrive.lively q hqU)
  obtain ⟨head, e, arr, np, hp, ep, ap, hn, -, -, -, rfl⟩ := newTreeNode_eq_some hV
  set V := withNode L (addr2PageNum c.dest) p head e arr np hp ep ap U with hVdef
  have hpagesV : V.pages = insert (addr2PageNum c.dest) T.pages := by
    have hkey : V.pageKey p = addr2PageNum c.dest := by simp [pageKey, hVdef, withNode]
    have hmap := hperm.map V.pageKey
    rw [List.map_cons, hkey, List.map_congr_left fun q hq =>
      show V.pageKey q = U.pageKey q from congrArg RecTreeNode.pageNum (hsame q hq).node] at hmap
    rw [← hpages, pages, List.toFinset_eq_of_perm _ _ hmap, List.toFinset_cons]
    rfl
  obtain ⟨T', hT'⟩ := writeRec_isSome (L := L) (c := c) hpV
    (Or.inl (by simp [hVdef, withNode]))
  rw [hadd, Option.bind_some, ← hpagesV]
  exact ⟨T', hT', thriving_writeRec hoV ((Pool.size_pop hn).trans hthrive.size) hothers
    hinv.placed hpV hT' (lively_writeRec hoV hpV hinv.tidy (by simp [hrec])
      (by simp [hrec]) hc hT')⟩

/-- With no node left it fails in `allocateRecTreeNode`, after the reclaim. -/
theorem addTreeNode_full (h : Thriving L ofa T) (hfull : recTreeNodePoolSize ≤ T.pages.card) :
    ∃ U, reclaimIfNeeded L ofa T = some U ∧ U.allocateRecTreeNode = none := by
  obtain ⟨U, hU, hthrive, hpages, -⟩ := reclaimIfNeeded_thriving h
  refine ⟨U, hU, ?_⟩
  rw [← hpages, card_pages hthrive.owned, ← hthrive.size] at hfull
  have hpop : U.recTreeNodePool.pop = none := hthrive.owned.node.pop_eq_none hfull
  rw [allocateRecTreeNode, hpop, Option.map_none]

/-- An insertion into a thriving tree that still has a node for its page. -/
theorem insertRec_thriving (h : Thriving L ofa T)
    (hc : isLive ofa (recordOf c (addr2PageNum c.dest)) = true)
    (hroom : (insert (addr2PageNum c.dest) T.pages).card ≤ recTreeNodePoolSize) :
    ∃ T', insertRec L ofa c T = some T' ∧ Thriving L ofa T' ∧
      T'.pages = insert (addr2PageNum c.dest) T.pages := by
  have hlog := h.logCall c
  have hpages : (T.logCall c).pages = T.pages := rfl
  simp only [insertRec]
  split
  · rename_i p hp
    obtain ⟨T', hT', hthrive, heq⟩ := clearAndWrite_thriving hlog hp hc
    refine ⟨T', hT', hthrive, ?_⟩
    rw [heq, hpages, Finset.insert_eq_of_mem ((mem_pages h.owned).2 ⟨p, hp⟩)]
  · rename_i hnew
    have hout : addr2PageNum c.dest ∉ T.pages := by
      rw [mem_pages h.owned]
      rintro ⟨p, hp⟩
      rw [show T.findNode _ = none from hnew] at hp
      cases hp
    rw [Finset.card_insert_of_notMem hout] at hroom
    exact addAndWrite_thriving hlog hnew (hpages ▸ hroom) hc

/-- An insertion into a thriving tree that has no node left for its page. -/
theorem insertRec_full (h : Thriving L ofa T)
    (hfull : recTreeNodePoolSize < (insert (addr2PageNum c.dest) T.pages).card) :
    T.findNode (addr2PageNum c.dest) = none ∧ recTreeNodePoolSize ≤ T.pages.card ∧
      insertRec L ofa c T = none := by
  have hcard := h.card_pages_add
  have hout : addr2PageNum c.dest ∉ T.pages := by
    intro hmem
    rw [Finset.insert_eq_of_mem hmem] at hfull
    omega
  rw [Finset.card_insert_of_notMem hout] at hfull
  have hnew : T.findNode (addr2PageNum c.dest) = none := by
    refine Option.eq_none_iff_forall_not_mem.2 fun p hp => hout ?_
    exact (mem_pages h.owned).2 ⟨p, hp⟩
  refine ⟨hnew, Nat.le_of_lt_succ hfull, ?_⟩
  obtain ⟨U, hU, hnone⟩ := addTreeNode_full (h.logCall c) (Nat.le_of_lt_succ hfull)
  simp only [insertRec, show (T.logCall c).findNode (addr2PageNum c.dest) = none from hnew,
    addTreeNode, hU, newTreeNode, hnone, Option.bind_eq_bind, Option.bind_some, Option.bind_none]

end RecTree

end Cidl
