import Cidl.Records.Compaction
import Cidl.Records.Invariant

/-!
# Reclaiming when every file is still mapped

A node is `Lively` when all its records are of files that are still mapped.  The
reclaimer does not fail on such a node and gives nothing of it back.  It may
write live records over the first slots of older blocks, as its cursor to keep
lags one block behind (`Refreshed`), so the node does not stay in order; but it
stays lively, and that is enough to know how many blocks it has.
-/

namespace Cidl

open SearchTree Shape

namespace RecTree

variable {L : Libc} {T T' : RecTree} {ofa ofa' : ℤ → Option ℕ} {mem mem' : ℤ → MemRec} {p q : ℕ}

/-! ## Lively nodes -/

/-- All records of the node are of files that are still mapped, its current block
is not empty, and it has no more records than there are offsets up to the last. -/
structure Lively (ofa : ℤ → Option ℕ) (T : RecTree) (p : ℕ) : Prop where
  tidy : Tidy T p
  pos : 0 < (T.recTreeNodes p).memRecIdx
  live : ∀ r ∈ T.records p, isLive ofa r = true
  last : ∀ r ∈ (T.records p).getLast?,
    ((T.records p).length : ℤ) ≤ r.pageOffset + 1 ∧ r.pageOffset < pageSize

theorem SameNode.lively (h : SameNode T T' p) (hl : Lively ofa T p) : Lively ofa T' p := by
  have hrec := h.records hl.tidy.idx_le
  refine ⟨h.tidy hl.tidy, ?_, ?_, ?_⟩
  · rw [h.node]
    exact hl.pos
  · rw [hrec]
    exact hl.live
  · rw [hrec]
    exact hl.last

/-- A record stays live when more files are mapped. -/
theorem isLive_mono (hle : ∀ i, (ofa i).isSome → (ofa' i).isSome) {r : MemRec}
    (h : isLive ofa r = true) : isLive ofa' r = true := hle _ h

theorem Lively.mono (hle : ∀ i, (ofa i).isSome → (ofa' i).isSome) (h : Lively ofa T p) :
    Lively ofa' T p :=
  ⟨h.tidy, h.pos, fun r hr => isLive_mono hle (h.live r hr), h.last⟩

theorem Lively.firstRec_live (h : Lively ofa T p) {e : ℕ} (he : e ∈ T.blocks p) :
    isLive ofa (T.firstRec e) = true := by
  obtain ⟨older, hb⟩ := h.tidy.blocks_eq
  refine h.live _ ?_
  rw [records, hb]
  rw [hb, List.mem_cons] at he
  exact firstRec_mem (he.symm.imp_right fun heq => ⟨heq, h.pos⟩)

/-- A lively node has at most as many blocks as a page has offsets. -/
theorem Lively.length_blocks_le (h : Lively ofa T p) : (T.blocks p).length ≤ pageSize := by
  obtain ⟨older, hb⟩ := h.tidy.blocks_eq
  obtain ⟨hlen, hoff⟩ := h.last _ (getLast?_records h.tidy h.pos)
  have hpos := h.pos
  have hrec : (T.records p).length =
      older.length * 38 + (T.recTreeNodes p).memRecIdx.toNat := by
    rw [records, hb, recordsOf]
    simp [List.length_flatMap]
  rw [hb, List.length_cons]
  simp only [pageSize] at *
  omega

/-! ## Records copied over others -/

/-- The tree with other contents in the slots of its arrays. -/
def withMem (T : RecTree) (mem : ℤ → MemRec) : RecTree := { T with recMem := mem }

/-- Only first slots of the blocks `B` have changed, and hold live records. -/
def Refreshed (ofa : ℤ → Option ℕ) (B : List ℕ) (T : RecTree) (mem : ℤ → MemRec) : Prop :=
  ∀ a, mem a = T.recMem a ∨
    isLive ofa (mem a) = true ∧ ∃ e ∈ B, a = (T.recBlockEntries e).recArr

theorem refreshed_refl (B : List ℕ) : Refreshed ofa B T T.recMem := fun _ => Or.inl rfl

theorem refreshed_update {B : List ℕ} {e : ℕ} (he : e ∈ B) {r : MemRec}
    (hlive : isLive ofa r = true) :
    Refreshed ofa B T (Function.update T.recMem (T.recBlockEntries e).recArr r) := by
  intro a
  by_cases ha : a = (T.recBlockEntries e).recArr
  · subst ha
    rw [Function.update_self]
    exact Or.inr ⟨hlive, e, he, rfl⟩
  · exact Or.inl (Function.update_of_ne ha _ _)

theorem Refreshed.trans {B : List ℕ} (h : Refreshed ofa B T mem)
    (h' : Refreshed ofa B (T.withMem mem) mem') : Refreshed ofa B T mem' := by
  intro a
  rcases h' a with ha | ha
  · rw [ha]
    exact h a
  · exact Or.inr ha

/-- Other nodes are left alone. -/
theorem Refreshed.sameNode (ho : Owned L T.shape) (hp : p ∈ T.nodes) (hq : q ∈ T.nodes)
    (hne : q ≠ p) (h : Refreshed ofa (T.blocks p).tail T mem) : SameNode T (T.withMem mem) q where
  node := rfl
  queue := rfl
  entries _ _ := rfl
  slots f hf j h₀ h₁ := by
    rcases h ((T.recBlockEntries f).recArr + j) with heq | ⟨-, e, he, heq⟩
    · exact heq
    · have hapart := slot_apart ho hp hq hne (List.mem_of_mem_tail he) hf (Int.le_refl 0)
        (by decide : (0 : ℤ) < memRecPerEntry) h₀ h₁
      exact absurd (by simpa using heq) hapart

theorem Refreshed.live {B : List ℕ} (h : Refreshed ofa B T mem) {idx : ℤ} {es : List ℕ}
    (hlive : ∀ r ∈ T.recordsOf idx es, isLive ofa r = true) :
    ∀ r ∈ (T.withMem mem).recordsOf idx es, isLive ofa r = true := by
  have hslot : ∀ a, isLive ofa (T.recMem a) = true → isLive ofa (mem a) = true := by
    intro a ha
    rcases h a with heq | ⟨hnew, -⟩
    · rwa [heq]
    · exact hnew
  cases es with
  | nil => exact fun r hr => absurd hr List.not_mem_nil
  | cons e older =>
    simp only [recordsOf, blockRecs, List.mem_append, List.mem_flatMap, List.mem_map] at hlive ⊢
    rintro r (⟨f, hf, i, hi, rfl⟩ | ⟨i, hi, rfl⟩)
    · exact hslot _ (hlive _ (Or.inl ⟨f, hf, i, hi, rfl⟩))
    · exact hslot _ (hlive _ (Or.inr ⟨i, hi, rfl⟩))

/-- The node itself stays lively: its newest block is not written. -/
theorem Refreshed.lively (ho : Owned L T.shape) (hp : p ∈ T.nodes) (hl : Lively ofa T p)
    (h : Refreshed ofa (T.blocks p).tail T mem) : Lively ofa (T.withMem mem) p := by
  have htidy : Tidy (T.withMem mem) p := ⟨hl.tidy.first, hl.tidy.idx_nonneg, hl.tidy.idx_le⟩
  have hlen : ((T.withMem mem).records p).length = (T.records p).length := by
    obtain ⟨older, hb⟩ := hl.tidy.blocks_eq
    rw [records, records, show (T.withMem mem).blocks p = T.blocks p from rfl, hb, recordsOf,
      recordsOf]
    simp [List.length_flatMap, withMem]
  refine ⟨htidy, hl.pos, h.live hl.live, ?_⟩
  rw [hlen, getLast?_records htidy hl.pos]
  suffices hsame : (T.withMem mem).slot (T.curArr p) ((T.recTreeNodes p).memRecIdx - 1) =
      T.slot (T.curArr p) ((T.recTreeNodes p).memRecIdx - 1) by
    have hlast := hl.last
    rw [getLast?_records hl.tidy hl.pos, ← hsame] at hlast
    exact hlast
  rcases h (T.curArr p + ((T.recTreeNodes p).memRecIdx - 1)) with heq | ⟨-, e, he, heq⟩
  · exact heq
  · obtain ⟨older, hb⟩ := hl.tidy.blocks_eq
    have hpos := hl.pos
    have hle := hl.tidy.idx_le
    have hne : (T.recTreeNodes p).recModEntry ≠ e := by
      rintro rfl
      have hnd := ho.nodup_blocks hp
      rw [show T.shape.blocks p = _ from hb] at hnd
      rw [hb, List.tail_cons] at he
      exact (List.nodup_cons.1 hnd).1 he
    exact absurd heq (slot_ne_first ho hp (by simp [hb]) (List.mem_of_mem_tail he) hne (by omega)
      (by omega))

/-! ## The reclaimer -/

/-- The loop from the second block on: every block's first record is copied into
the block before it.  The induction is on the blocks still to be searched. -/
theorem loop_copies (ho : Owned L T.shape) (hp : p ∈ T.nodes)
    (hidx : (T.recTreeNodes p).memRecIdx ≤ memRecPerEntry) {newer older : List ℕ} {e f fuel : ℕ}
    (hb : T.blocks p = newer ++ f :: e :: older)
    (hlive : ∀ g ∈ newer ++ [f], isLive ofa (T.firstRec g) = true)
    (hfuel : 38 * (newer.length + 1) ≤ fuel) :
    ∃ mem, reclaimLoop ofa p fuel (T.enterBlock p e) (T.enterBlock p f) T =
      some (T.withMem mem) ∧ Refreshed ofa (T.blocks p).tail T mem := by
  induction newer using List.reverseRecOn generalizing T e f older fuel with
  | nil =>
    have hb' : T.blocks p = [] ++ f :: e :: older := hb
    rw [List.nil_append] at hb
    have hne : e ≠ f := by
      have hnd := ho.nodup_blocks hp
      rw [show T.shape.blocks p = _ from hb] at hnd
      rintro rfl
      simp at hnd
    have hf : T.tailqPrev f = none := tailqPrev_first ho hp hb
    have he : T.tailqPrev e = some f := tailqPrev_older ho hp hb'
    have hlivef := hlive f (by simp)
    refine ⟨_, last_copy hlivef (recArr_ne ho hp (by simp [hb]) (by simp [hb]) hne) he hf hidx
      (by simpa using hfuel), refreshed_update (by simp [hb]) hlivef⟩
  | append_singleton newer g ih =>
    have hb₁ : T.blocks p = newer ++ g :: f :: (e :: older) := by simpa using hb
    have hnd := ho.nodup_blocks hp
    rw [show T.shape.blocks p = _ from hb₁] at hnd
    have hout : e ∉ newer ++ [g, f] := by
      rw [show newer ++ g :: f :: (e :: older) = (newer ++ [g, f]) ++ e :: older by simp] at hnd
      exact fun hmem => (List.nodup_append.1 hnd).2.2 e hmem e (List.mem_cons_self ..) rfl
    have he : T.tailqPrev e = some f := tailqPrev_older ho hp hb
    have hf : T.tailqPrev f = some g := tailqPrev_older ho hp hb₁
    have hlivef := hlive f (by simp)
    have heb : e ∈ T.blocks p := by simp [hb₁]
    have hetail : e ∈ (T.blocks p).tail := by
      rw [hb₁]
      cases newer <;> simp
    have hne : ∀ h ∈ newer ++ [g, f], (T.recBlockEntries e).recArr ≠
      (T.recBlockEntries h).recArr := by
      intro h hmem
      refine recArr_ne ho hp heb ?_ fun heq => hout (heq ▸ hmem)
      rw [hb₁]
      simp only [List.mem_append, List.mem_cons, List.not_mem_nil, or_false] at hmem ⊢
      rcases hmem with hmem | rfl | rfl <;> simp [*]
    simp only [List.length_append, List.length_singleton] at hfuel
    set U := T.setRec (T.recBlockEntries e).recArr (T.firstRec f) with hU
    -- the copy does not change what the later blocks begin with
    have hliveU : ∀ h ∈ newer ++ [g], isLive ofa (U.firstRec h) = true := by
      intro h hmem
      have hsame : U.firstRec h = T.firstRec h := by
        refine Function.update_of_ne (fun heq => ?_) _ _
        refine hne h ?_ (Int.ofNat_inj.1 heq.symm)
        rw [show newer ++ [g, f] = newer ++ [g] ++ [f] by simp]
        exact List.mem_append_left _ hmem
      rw [hsame]
      exact hlive h (List.mem_append_left _ hmem)
    obtain ⟨mem, hloop, hmem⟩ := ih (T := U) ho hp hidx hb₁ hliveU
      (show 38 * (newer.length + 1) ≤ fuel - 38 by omega)
    refine ⟨mem, ?_, (refreshed_update hetail hlivef).trans hmem⟩
    rw [phase_copy hlivef (hne f (by simp)) he hf (by omega) hU]
    exact hloop

/-- The loop over a lively node comes to its end, with the cursor of the node
where it was. -/
theorem loop_live (ho : Owned L T.shape) (hp : p ∈ T.nodes) (hl : Lively ofa T p) {ent : ℕ}
    (hlast : (T.blocks p).getLast? = some ent) :
    ∃ mem, reclaimLoop ofa p ((T.blocks p).length * 32768) (T.enterBlock p ent)
      (T.enterBlock p ent) T = some (T.withMem mem) ∧ Refreshed ofa (T.blocks p).tail T mem := by
  obtain ⟨newer, hb⟩ := List.getLast?_eq_some_iff.1 hlast
  have hlive : ∀ e ∈ T.blocks p, isLive ofa (T.firstRec e) = true := fun e he =>
    hl.firstRec_live he
  rcases List.eq_nil_or_concat' newer with rfl | ⟨newer, f, rfl⟩
  · rw [List.nil_append] at hb
    refine ⟨T.recMem, ?_, refreshed_refl _⟩
    rw [loop_single ofa ho hp hl.tidy hb hl.pos, if_pos (hlive ent (by simp [hb]))]
    rfl
  · have hb' : T.blocks p = newer ++ f :: ent :: [] := by simpa using hb
    have hlen : (T.blocks p).length * 32768 = (newer.length + 2) * 32768 := by simp [hb]
    rw [phase_same (hlive ent (by simp [hb])) (tailqPrev_older ho hp hb') (by omega)]
    refine loop_copies ho hp hl.tidy.idx_le hb' (fun g hg => hlive g ?_) (by omega)
    rw [hb]
    exact List.mem_append_left _ hg

/-- No block of a lively node is given back. -/
theorem compactNode_live (ho : Owned L T.shape) (hp : p ∈ T.nodes) (hl : Lively ofa T p) :
    ∃ mem, compactNode ofa p T = some (T.withMem mem) ∧
      Refreshed ofa (T.blocks p).tail T mem := by
  obtain ⟨older, hb⟩ := hl.tidy.blocks_eq
  have hq : T.tailheads (T.recTreeNodes p).listHead = (T.recTreeNodes p).recModEntry :: older := hb
  obtain ⟨ent, hent⟩ : ∃ ent, (T.blocks p).getLast? = some ent :=
    ⟨_, List.getLast?_eq_some_getLast (by simp [hb])⟩
  obtain ⟨mem, hloop, hmem⟩ := loop_live ho hp hl hent
  refine ⟨mem, ?_, hmem⟩
  simp only [compactNode, Option.bind_eq_bind]
  rw [show T.tailqLast (T.recTreeNodes p).listHead = some ent from hent, Option.bind_some,
    show T.tailheads (T.recTreeNodes p).listHead = T.blocks p from rfl, hloop, Option.bind_some,
    show (T.withMem mem).tailheads = T.tailheads from rfl, hq, withdrawUntil]
  exact if_pos rfl

/-- The walk at one node: all nodes stay lively. -/
theorem reclaimRecTreeNode_live (ho : Owned L T.shape)
    (hl : ∀ q ∈ T.nodes, Lively ofa T q) (p : ℕ) :
    ∃ mem, reclaimRecTreeNode L ofa p T = some (T.withMem mem) ∧
      ∀ q ∈ T.nodes, Lively ofa (T.withMem mem) q := by
  unfold reclaimRecTreeNode
  split
  · rename_i hp
    obtain ⟨older, hb⟩ := (hl p hp).tidy.blocks_eq
    have hq : T.tailheads (T.recTreeNodes p).listHead = (T.recTreeNodes p).recModEntry :: older :=
      hb
    have hnot : ¬ ((T.recTreeNodes p).memRecIdx = 0 ∧ older = []) := fun h => by
      have := (hl p hp).pos
      omega
    obtain ⟨mem, hcompact, hmem⟩ := compactNode_live ho hp (hl p hp)
    refine ⟨mem, ?_, fun q hq' => ?_⟩
    · simp only [reclaimSpecialRecTreeNode, hq, if_neg hnot, hcompact]
    · by_cases hqp : q = p
      · exact hqp ▸ hmem.lively ho hp (hl p hp)
      · exact (hmem.sameNode ho hp hq' hqp).lively (hl q hq')
  · exact ⟨T.recMem, rfl, hl⟩

/-- A reclaim over lively nodes comes to its end and leaves the tree as it is. -/
theorem reclaimIfNeeded_live (ho : Owned L T.shape) (hl : ∀ q ∈ T.nodes, Lively ofa T q) :
    ∃ T', reclaimIfNeeded L ofa T = some T' ∧ T'.shape = T.shape ∧ T'.calls = T.calls ∧
      ∀ q ∈ T'.nodes, Lively ofa T' q := by
  have hrun : ∃ U, runAll (reclaimRecTreeNode L ofa) (L.twalk T.walks T.recTreeRoot) T = some U ∧
      ∃ mem, U = T.withMem mem ∧ ∀ q ∈ T.nodes, Lively ofa U q := by
    refine runAll_isSome (fun p _ U hU => ?_) ⟨T.recMem, rfl, hl⟩
    obtain ⟨mem, rfl, hlU⟩ := hU
    obtain ⟨mem', hstep, hl'⟩ := reclaimRecTreeNode_live (T := T.withMem mem) ho hlU p
    exact ⟨_, hstep, mem', rfl, hl'⟩
  unfold reclaimIfNeeded
  split
  · obtain ⟨_, hU, mem, rfl, hmem⟩ := hrun
    set V : RecTree := { T.withMem mem with
      recTreeNodeThreshold := (T.withMem mem).recTreeNodePool.idx * 3 / 5
      walks := (T.withMem mem).walks + 1 } with hV
    refine ⟨V, ?_, rfl, rfl, fun q hq => ?_⟩
    · simp only [recTreeNodeGrabageReclaim, Option.bind_eq_bind, hU, Option.bind_some, hV]
    · have hsame : SameNode (T.withMem mem) V q := ⟨rfl, rfl, fun _ _ => rfl, fun _ _ _ _ _ => rfl⟩
      exact hsame.lively (hmem q hq)
  · exact ⟨T, rfl, rfl, rfl, hl⟩

end RecTree

end Cidl
