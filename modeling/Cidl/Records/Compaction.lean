import Cidl.Records.Counts
import Cidl.Records.Reclaim

/-!
# What compaction does to the records of a node

Compaction is meant to keep the records of the files that are still open and to
drop the others (`Filtered`).  As its loop looks at the first slot of each block
only, it does so for a few patterns of live and dead records (`CompactOk`), and
`reclaimSpecialRecTreeNode_filters_iff` shows that these are all.

* The loop passes over a whole block at a time (`phase_same`, `phase_copy`,
  `phase_dead`, and `last_copy`, `last_dead` for the newest block).
* What comes after a phase that already went wrong need not be followed:
  `loop_frame` says that the loop writes only in blocks that the cursor to keep
  can still reach.
-/

namespace Cidl

open SearchTree Shape

namespace RecTree

variable {L : Libc} {T T' U : RecTree} {ofa : ℤ → Option ℕ} {p : ℕ}

/-! ## What is to be left, and when it is -/

/-- `T'` is `T` with the records of `p` filtered: the live ones are left, in
their order, the cursor is behind the last of them, and the blocks in front of
the current one are back in their pools. -/
structure Filtered (ofa : ℤ → Option ℕ) (p : ℕ) (T T' : RecTree) : Prop where
  records : T'.records p = (T.records p).filter (isLive ofa)
  first : (T'.blocks p).head? = some (T'.recTreeNodes p).recModEntry
  idx_nonneg : 0 ≤ (T'.recTreeNodes p).memRecIdx
  idx_le : (T'.recTreeNodes p).memRecIdx ≤ memRecPerEntry
  withdrawn : ∃ gone, T.blocks p = gone ++ T'.blocks p ∧
    T'.recBlockEntryPool.ptr = gone.reverse ++ T.recBlockEntryPool.ptr ∧
    T'.recArrPool.ptr = (gone.map T.shape.recArr).reverse ++ T.recArrPool.ptr

/-- The nodes that the reclaimer filters.  With one block: all records are
alive, or there is one only.  With two: the newer one is empty, its first slot
still holds a copy of the first record, and all records are alive; or the dead
records are exactly those from one before the index of the newer block on.  With
three: the newest one is empty, its first slot holds what looks like a live
record, and exactly the first 37 records are alive. -/
def CompactOk (ofa : ℤ → Option ℕ) (T : RecTree) (p : ℕ) : Prop :=
  let c := (T.recTreeNodes p).memRecIdx
  match T.blocks p with
  | [_] => (∀ r ∈ T.records p, isLive ofa r) ∨ c = 1
  | [b₁, b₀] =>
    (c = 0 ∧ (∀ r ∈ T.records p, isLive ofa r) ∧ T.firstRec b₁ = T.firstRec b₀) ∨
      (2 ≤ c ∧ (∀ r ∈ (T.records p).take (c.toNat - 1), isLive ofa r) ∧
        ∀ r ∈ (T.records p).drop (c.toNat - 1), isLive ofa r = false)
  | [b₂, _, _] =>
    c = 0 ∧ (∀ r ∈ (T.records p).take 37, isLive ofa r) ∧
      (∀ r ∈ (T.records p).drop 37, isLive ofa r = false) ∧ isLive ofa (T.firstRec b₂)
  | _ => False

instance (ofa : ℤ → Option ℕ) (T : RecTree) (p : ℕ) : Decidable (CompactOk ofa T p) := by
  unfold CompactOk
  split <;> infer_instance

/-! ## Records of a list of blocks -/

theorem filter_eq_take_iff {α : Type*} {l : List α} {q : α → Bool} {n : ℕ} :
    l.take n = l.filter q ↔ (∀ a ∈ l.take n, q a = true) ∧ ∀ a ∈ l.drop n, q a = false := by
  have hsplit : (l.take n).filter q ++ (l.drop n).filter q = l.filter q := by
    rw [← List.filter_append, List.take_append_drop]
  constructor
  · intro h
    have hlive : ∀ a ∈ l.take n, q a = true := by
      intro a ha
      rw [h] at ha
      exact (List.mem_filter.1 ha).2
    rw [← h, List.filter_eq_self.2 hlive, List.append_right_eq_self] at hsplit
    exact ⟨hlive, fun a ha => by simpa using List.filter_eq_nil_iff.1 hsplit a ha⟩
  · rintro ⟨hlive, hdead⟩
    rw [← hsplit, List.filter_eq_self.2 hlive,
      List.filter_eq_nil_iff.2 fun a ha => by simp [hdead a ha], List.append_nil]

theorem blockRecs_succ_left (e n : ℕ) : T.blockRecs e (n + 1) =
    T.firstRec e :: (List.range n).map fun i : ℕ =>
      T.slot (T.recBlockEntries e).recArr (i + 1) := by
  simp [blockRecs, List.range_succ_eq_map, slot, firstRec, Function.comp_def]

/-- The records of the oldest block come first. -/
theorem recordsOf_concat {idx : ℤ} {e : ℕ} {es : List ℕ} (b : ℕ) :
    T.recordsOf idx (e :: es ++ [b]) =
      T.blockRecs b memRecPerEntry ++ T.recordsOf idx (e :: es) := by
  simp [recordsOf]

/-- The first record of a block is one of the records, unless the block is the
newest and empty. -/
theorem firstRec_mem {idx : ℤ} {e f : ℕ} {older : List ℕ} (h : f ∈ older ∨ f = e ∧ 0 < idx) :
    T.firstRec f ∈ T.recordsOf idx (e :: older) := by
  rw [recordsOf, List.mem_append]
  rcases h with h | ⟨rfl, h⟩
  · left
    refine List.mem_flatMap.2 ⟨f, List.mem_reverse.2 h, ?_⟩
    rw [show memRecPerEntry = 37 + 1 from rfl, blockRecs_succ_left]
    exact List.mem_cons_self ..
  · right
    rw [show idx.toNat = (idx.toNat - 1) + 1 by omega, blockRecs_succ_left]
    exact List.mem_cons_self ..

/-- The blocks behind a given one, in a list without duplicates. -/
theorem mem_older_of_append {a b newer older : List ℕ} {e f : ℕ} (hnd : (a ++ b).Nodup)
    (hsplit : a ++ b = newer ++ e :: older) (he : e ∈ a) (hf : f ∈ b) : f ∈ older := by
  obtain ⟨s, t, rfl⟩ := List.append_of_mem he
  rw [List.append_assoc, List.cons_append] at hnd hsplit
  have hout : e ∉ s ++ (t ++ b) := (List.nodup_cons.1 (List.nodup_middle.1 hnd)).1
  rw [List.mem_append, not_or] at hout
  obtain ⟨-, -, rfl⟩ := (List.append_cons_inj_of_notMem hout.1 hout.2).1 hsplit
  exact List.mem_append_right _ hf

/-! ## The blocks that the loop can still write -/

/-- The cursor is in one of the blocks `B`, or behind the last one. -/
def CursorIn (T : RecTree) (B : List ℕ) (c : Cursor) : Prop :=
  (c.ent = none ∧ c.ptr = none) ∨
    ∃ e ∈ B, c.ent = some e ∧ c.ptr = some ((T.recBlockEntries e).recArr : ℤ)

theorem cursorIn_enterBlock {B : List ℕ} {e : ℕ} (he : e ∈ B) :
    CursorIn T B (T.enterBlock p e) := Or.inr ⟨e, he, rfl, rfl⟩

theorem CursorIn.congr {B : List ℕ} {c : Cursor} (h : CursorIn T B c)
    (hshape : T'.shape = T.shape) : CursorIn T' B c := by
  rcases h with h | ⟨e, he, hent, hptr⟩
  · exact Or.inl h
  · exact Or.inr ⟨e, he, hent, by rw [recArr_congr hshape, hptr]⟩

theorem CursorIn.nextSlot {B : List ℕ} (hB : ∀ e ∈ B, ∀ e', T.tailqPrev e = some e' → e' ∈ B)
    {c c' : Cursor} (h : CursorIn T B c) (hnext : T.nextSlot p c = some c') :
    CursorIn T B c' := by
  unfold RecTree.nextSlot at hnext
  split at hnext
  · cases hnext
    exact h
  · obtain ⟨e, he, hnext⟩ := Option.bind_eq_some_iff.1 hnext
    split at hnext
    · cases hnext
      exact Or.inl ⟨rfl, rfl⟩
    · rename_i e' hprev
      cases hnext
      rcases h with ⟨hent, -⟩ | ⟨f, hf, hent, -⟩
      · rw [hent] at he
        cases he
      · rw [hent] at he
        cases he
        exact cursorIn_enterBlock (hB _ hf e' hprev)

/-- `U` is `T` but for the first slots of the blocks `B` and the cursor of `p`,
which is as before or in one of these blocks. -/
structure OnlyIn (B : List ℕ) (p : ℕ) (T U : RecTree) : Prop where
  shape : U.shape = T.shape
  mem : ∀ a : ℤ, (∀ e ∈ B, a ≠ (T.recBlockEntries e).recArr) → U.recMem a = T.recMem a
  cursor : U.recTreeNodes p = T.recTreeNodes p ∨ (U.recTreeNodes p).recModEntry ∈ B

theorem OnlyIn.trans {B : List ℕ} (h : OnlyIn B p T T') (h' : OnlyIn B p T' U) :
    OnlyIn B p T U where
  shape := h'.shape.trans h.shape
  mem a ha := by
    rw [h'.mem a fun e he => by rw [recArr_congr h.shape]; exact ha e he, h.mem a ha]
  cursor := by
    rcases h'.cursor with heq | hin
    · rw [heq]
      exact h.cursor
    · exact Or.inr hin

/-- The loop writes only where the cursor to keep can get. -/
theorem loop_frame {B : List ℕ} (hB : ∀ e ∈ B, ∀ e', T.tailqPrev e = some e' → e' ∈ B)
    {fuel : ℕ} {keep search : Cursor} (hkeep : CursorIn T B keep)
    (h : reclaimLoop ofa p fuel keep search T = some U) : OnlyIn B p T U := by
  induction fuel generalizing keep search T with
  | zero =>
    rw [reclaimLoop] at h
    split at h <;> cases h
    exact ⟨rfl, fun _ _ => rfl, Or.inl rfl⟩
  | succ fuel ih =>
    rw [reclaimLoop] at h
    split at h
    · cases h
      exact ⟨rfl, fun _ _ => rfl, Or.inl rfl⟩
    · rename_i searching _
      split at h
      · split at h
        · obtain ⟨search', -, h⟩ := Option.bind_eq_some_iff.1 h
          exact ih hB hkeep h
        · -- a copy to the slot to keep
          obtain ⟨keeped, hptr, h⟩ := Option.bind_eq_some_iff.1 h
          obtain ⟨keep', hnext, h⟩ := Option.bind_eq_some_iff.1 h
          obtain ⟨search', -, h⟩ := Option.bind_eq_some_iff.1 h
          set V := T.setRec keeped (T.recMem searching) with hV
          have hshape : V.shape = T.shape := rfl
          have hBV : ∀ e ∈ B, ∀ e', V.tailqPrev e = some e' → e' ∈ B := hB
          have hstep : OnlyIn B p T V := by
            refine ⟨hshape, fun a ha => Function.update_of_ne ?_ _ _, Or.inl rfl⟩
            rcases hkeep with ⟨-, hnone⟩ | ⟨e, he, -, hsome⟩
            · rw [hnone] at hptr
              cases hptr
            · rw [hsome] at hptr
              cases hptr
              exact ha e he
          exact hstep.trans (ih hBV ((hkeep.congr hshape).nextSlot hBV hnext) h)
      · -- the cursor of the node moves
        obtain ⟨keepEnt, hent, h⟩ := Option.bind_eq_some_iff.1 h
        obtain ⟨keep', hnext, h⟩ := Option.bind_eq_some_iff.1 h
        obtain ⟨search', -, h⟩ := Option.bind_eq_some_iff.1 h
        set V := T.setCursor p keepEnt keep.idx with hV
        have hshape : V.shape = T.shape := shape_setCursor p keepEnt _
        have hBV : ∀ e ∈ B, ∀ e', V.tailqPrev e = some e' → e' ∈ B := by
          intro e he e' hprev
          rw [tailqPrev_congr hshape] at hprev
          exact hB e he e' hprev
        have hstep : OnlyIn B p T V := by
          refine ⟨hshape, fun a _ => rfl, Or.inr ?_⟩
          rw [hV, setCursor_node]
          rcases hkeep with ⟨hnone, -⟩ | ⟨e, he, hsome, -⟩
          · rw [hnone] at hent
            cases hent
          · rw [hsome] at hent
            cases hent
            exact he
        exact hstep.trans (ih hBV ((hkeep.congr hshape).nextSlot hBV hnext) h)

/-- The blocks in front of a queue are closed under `TAILQ_PREV`. -/
theorem tailqPrev_mem_newer (ho : Owned L T.shape) (hp : p ∈ T.nodes) {newer older : List ℕ}
    (hb : T.blocks p = newer ++ older) :
    ∀ e ∈ newer, ∀ e', T.tailqPrev e = some e' → e' ∈ newer := by
  intro e he e' hprev
  obtain ⟨s, t, rfl⟩ := List.append_of_mem he
  rcases List.eq_nil_or_concat' s with rfl | ⟨s, x, rfl⟩
  · rw [tailqPrev_first ho hp (by simpa using hb)] at hprev
    cases hprev
  · rw [tailqPrev_older ho hp (by simpa using hb)] at hprev
    cases hprev
    simp

/-! ## The loop over a whole block -/

section

variable {e e' f f' fuel : ℕ}

/-- A live record that the cursors share: the search goes on to the next block. -/
theorem phase_same (hlive : isLive ofa (T.firstRec f) = true) (hf : T.tailqPrev f = some f')
    (hfuel : 38 ≤ fuel) :
    reclaimLoop ofa p fuel (T.enterBlock p f) (T.enterBlock p f) T =
      reclaimLoop ofa p (fuel - 38) (T.enterBlock p f) (T.enterBlock p f') T := by
  obtain ⟨k, rfl⟩ : ∃ k, fuel = k + 37 + 1 := ⟨fuel - 38, by omega⟩
  rw [enterBlock_older hf, loop_live_same_block hlive rfl fun _ => by decide,
    nextSlot_leave (by decide) hf, Option.bind_some, show k + 37 + 1 - 38 = k by omega]

/-- A live record that is copied: both cursors go on to the next block. -/
theorem phase_copy (hlive : isLive ofa (T.firstRec f) = true)
    (hne : (T.recBlockEntries e).recArr ≠ (T.recBlockEntries f).recArr)
    (he : T.tailqPrev e = some e') (hf : T.tailqPrev f = some f') (hfuel : 38 ≤ fuel)
    (hU : U = T.setRec (T.recBlockEntries e).recArr (T.firstRec f)) :
    reclaimLoop ofa p fuel (T.enterBlock p e) (T.enterBlock p f) T =
      reclaimLoop ofa p (fuel - 38) (U.enterBlock p e') (U.enterBlock p f') U := by
  obtain ⟨k, rfl⟩ : ∃ k, fuel = k + 37 + 1 := ⟨fuel - 38, by omega⟩
  have heU : U.tailqPrev e = some e' := by rw [hU]; exact he
  have hfU : U.tailqPrev f = some f' := by rw [hU]; exact hf
  rw [enterBlock_older he, enterBlock_older hf,
    loop_live_copy_block hlive hne (fun _ => by decide) (fun _ => by decide) hU,
    nextSlot_leave (by decide) heU, nextSlot_leave (by decide) hfU, Option.bind_some,
    Option.bind_some, show k + 37 + 1 - 38 = k by omega]

/-- A dead record: both cursors go on to the next block, and the cursor of the
node is left at the last slot of the block to keep. -/
theorem phase_dead (hdead : isLive ofa (T.firstRec f) = false) (he : T.tailqPrev e = some e')
    (hf : T.tailqPrev f = some f') (hfuel : 38 ≤ fuel) (hU : U = T.setCursor p e 37) :
    reclaimLoop ofa p fuel (T.enterBlock p e) (T.enterBlock p f) T =
      reclaimLoop ofa p (fuel - 38) (U.enterBlock p e') (U.enterBlock p f') U := by
  obtain ⟨k, rfl⟩ : ∃ k, fuel = k + 37 + 1 := ⟨fuel - 38, by omega⟩
  have hshape : U.shape = T.shape := by rw [hU]; exact shape_setCursor p e 37
  have heU : U.tailqPrev e = some e' := by rw [tailqPrev_congr hshape, he]
  have hfU : U.tailqPrev f = some f' := by rw [tailqPrev_congr hshape, hf]
  rw [enterBlock_older he, enterBlock_older hf,
    loop_dead_block hdead (fun _ => by decide) (fun _ => by decide) hU,
    nextSlot_leave (by decide) heU, nextSlot_leave (by decide) hfU, Option.bind_some,
    Option.bind_some, show k + 37 + 1 - 38 = k by omega]

/-- The cursor to keep, in an older block, can always be advanced. -/
theorem nextSlot_older (he : U.tailqPrev e = some e') (i maxIdx : ℤ) :
    ∃ keep, U.nextSlot p (T.cursorAt e i maxIdx) = some keep := by
  by_cases hi : i < maxIdx
  · exact ⟨_, nextSlot_inside hi⟩
  · exact ⟨_, nextSlot_leave (Int.not_lt.1 hi) he⟩

/-- The newest block, with a live record that is copied. -/
theorem last_copy (hlive : isLive ofa (T.firstRec f) = true)
    (hne : (T.recBlockEntries e).recArr ≠ (T.recBlockEntries f).recArr)
    (he : T.tailqPrev e = some e') (hf : T.tailqPrev f = none)
    (hidx : (T.recTreeNodes p).memRecIdx ≤ memRecPerEntry) (hfuel : 38 ≤ fuel) :
    reclaimLoop ofa p fuel (T.enterBlock p e) (T.enterBlock p f) T =
      some (T.setRec (T.recBlockEntries e).recArr (T.firstRec f)) := by
  have hidx' : (T.recTreeNodes p).memRecIdx ≤ 38 := hidx
  set U := T.setRec (T.recBlockEntries e).recArr (T.firstRec f) with hU
  set n := ((T.recTreeNodes p).memRecIdx - 1).toNat with hn
  obtain ⟨k, rfl⟩ : ∃ k, fuel = k + n + 1 := ⟨fuel - n - 1, by omega⟩
  have heU : U.tailqPrev e = some e' := he
  have hfU : U.tailqPrev f = none := hf
  obtain ⟨keep, hkeep⟩ := nextSlot_older (p := p) (T := T) heU (0 + n) (memRecPerEntry - 1)
  rw [enterBlock_older he, enterBlock_newest hf,
    loop_live_copy_block hlive hne (fun _ => ?_) (fun _ => by omega) hU, hkeep,
    nextSlot_end (by omega) hfU, Option.bind_some, Option.bind_some, loop_end rfl]
  show 0 + (n : ℤ) ≤ 38 - 1
  omega

/-- The newest block, with a dead record. -/
theorem last_dead (hdead : isLive ofa (T.firstRec f) = false) (he : T.tailqPrev e = some e')
    (hf : T.tailqPrev f = none) (hidx : (T.recTreeNodes p).memRecIdx ≤ memRecPerEntry)
    (hfuel : 38 ≤ fuel) :
    reclaimLoop ofa p fuel (T.enterBlock p e) (T.enterBlock p f) T =
      some (T.setCursor p e ((T.recTreeNodes p).memRecIdx - 1).toNat) := by
  have hidx' : (T.recTreeNodes p).memRecIdx ≤ 38 := hidx
  set n := ((T.recTreeNodes p).memRecIdx - 1).toNat with hn
  set U := T.setCursor p e n with hU
  obtain ⟨k, rfl⟩ : ∃ k, fuel = k + n + 1 := ⟨fuel - n - 1, by omega⟩
  have hshape : U.shape = T.shape := shape_setCursor p e _
  have heU : U.tailqPrev e = some e' := by rw [tailqPrev_congr hshape, he]
  have hfU : U.tailqPrev f = none := by rw [tailqPrev_congr hshape, hf]
  obtain ⟨keep, hkeep⟩ := nextSlot_older (p := p) (T := T) heU (0 + n) (memRecPerEntry - 1)
  rw [enterBlock_older he, enterBlock_newest hf,
    loop_dead_block hdead (fun _ => ?_) (fun _ => by omega)
      (show U = T.setCursor p e (0 + n) by rw [hU, Int.zero_add]),
    hkeep,
    nextSlot_end (by omega) hfU, Option.bind_some, Option.bind_some, loop_end rfl]
  show 0 + (n : ℤ) ≤ 38 - 1
  omega

end

/-! ## The blocks that are given back -/

theorem push_ptr {q q' : Pool} {x : ℕ} (h : q.push x = some q') : q'.ptr = x :: q.ptr := by
  unfold Pool.push at h
  split at h <;> cases h
  rfl

/-- Blocks at the front of a queue can always be given back. -/
theorem withdrawBlocks_isSome (ho : Owned L T.shape) (hp : p ∈ T.nodes) {pre post : List ℕ}
    (hb : T.blocks p = pre ++ post) :
    ∃ T', withdrawBlocks (T.recTreeNodes p).listHead pre T = some T' ∧
      T'.recBlockEntryPool.ptr = pre.reverse ++ T.recBlockEntryPool.ptr ∧
      T'.recArrPool.ptr = (pre.map T.shape.recArr).reverse ++ T.recArrPool.ptr := by
  induction pre generalizing T with
  | nil => exact ⟨T, rfl, rfl, rfl⟩
  | cons e pre ih =>
    have he : e ∈ T.shape.entries := Owned.mem_entries hp
      (by rw [show T.shape.blocks p = _ from hb]; simp)
    obtain ⟨ep, hep⟩ := Option.isSome_iff_exists.1
      (ho.entry.perm (List.perm_cons_erase he)).push_isSome
    obtain ⟨ap, hap⟩ := Option.isSome_iff_exists.1
      (ho.arr.perm (List.perm_cons_erase
        (List.mem_map_of_mem (f := T.shape.recArr) he))).push_isSome
    obtain ⟨U, hU⟩ : ∃ U, T.withdrawBlock (T.recTreeNodes p).listHead e = some U :=
      ⟨_, withdrawBlock_eq_some.2 ⟨ap, ep, hap, hep, rfl⟩⟩
    obtain ⟨hoU, wU⟩ := owned_withdrawBlock ho hp hb hU
    obtain ⟨ap', ep', hap', hep', rfl⟩ := withdrawBlock_eq_some.1 hU
    obtain ⟨T', hT', hent, harr⟩ := ih hoU (wU.nodes ▸ hp) wU.blocks
    refine ⟨T', runAll_cons_eq_some.2 ⟨_, hU, hT'⟩, ?_, ?_⟩
    · rw [hent, show Pool.ptr _ = _ from push_ptr hep']
      simp
    · have hsame : ∀ f, (Function.update T.recBlockEntries e
          { T.recBlockEntries e with queue := none } f).recArr = (T.recBlockEntries f).recArr := by
        intro f
        by_cases hfe : f = e
        · subst hfe
          simp
        · rw [Function.update_of_ne hfe]
      rw [harr, show Pool.ptr _ = _ from push_ptr hap']
      simp [shape, Function.comp_def, tailqRemove, setEntry, setQueue, hsame]

theorem withdrawUntil_eq {head keepEnt : ℕ} {pre post : List ℕ} (hne : keepEnt ∉ pre) :
    withdrawUntil head keepEnt (pre ++ keepEnt :: post) T = withdrawBlocks head pre T := by
  induction pre generalizing T with
  | nil => rw [List.nil_append, withdrawUntil, if_pos rfl]; rfl
  | cons e pre ih =>
    rw [List.mem_cons, not_or] at hne
    rw [List.cons_append, withdrawUntil, if_neg (Ne.symm hne.1), withdrawBlocks, runAll_cons]
    exact Option.bind_congr fun U _ => ih hne.2

/-- The records of a node after its newest blocks are gone. -/
theorem records_withdrawn {newer post : List ℕ} (hnd : (newer ++ post).Nodup)
    (w : Withdrawn (U.recTreeNodes p).listHead newer post U T') :
    T'.records p = U.recordsOf (U.recTreeNodes p).memRecIdx post := by
  have hblock : ∀ f ∈ post, ∀ k, T'.blockRecs f k = U.blockRecs f k := by
    intro f hf k
    have hout : f ∉ newer := fun h => (List.nodup_append.1 hnd).2.2 f h f hf rfl
    simp only [blockRecs, slot, w.entries f hout, w.recMem]
  rw [records, w.blocks, w.recTreeNodes]
  cases post with
  | nil => rfl
  | cons e older =>
    rw [recordsOf, recordsOf, hblock e (List.mem_cons_self ..)]
    congr 1
    exact List.flatMap_congr fun f hf =>
      hblock f (List.mem_cons_of_mem _ (List.mem_reverse.1 hf)) _

/-- When the loop has come to its end with the cursor of the node in one of its
blocks, compaction succeeds, and whether it filters depends on the records up to
that cursor. -/
theorem filtered_iff_of_loop (ho : Owned L T.shape) (hp : p ∈ T.nodes) {ent : ℕ}
    (hlast : (T.blocks p).getLast? = some ent)
    (hloop : reclaimLoop ofa p ((T.blocks p).length * 32768) (T.enterBlock p ent)
      (T.enterBlock p ent) T = some U) (hshape : U.shape = T.shape)
    (h₀ : 0 ≤ (U.recTreeNodes p).memRecIdx) (h₁ : (U.recTreeNodes p).memRecIdx ≤ memRecPerEntry)
    (newer older : List ℕ) (hb : T.blocks p = newer ++ (U.recTreeNodes p).recModEntry :: older) :
    (∃ T', compactNode ofa p T = some T' ∧ Filtered ofa p T T') ↔
      U.recordsOf (U.recTreeNodes p).memRecIdx ((U.recTreeNodes p).recModEntry :: older) =
        (T.records p).filter (isLive ofa) := by
  have hnd : (newer ++ (U.recTreeNodes p).recModEntry :: older).Nodup := by
    have := ho.nodup_blocks hp
    rwa [show T.shape.blocks p = _ from hb] at this
  have hout : (U.recTreeNodes p).recModEntry ∉ newer := fun h =>
    (List.nodup_append.1 hnd).2.2 _ h _ (List.mem_cons_self ..) rfl
  have hlist : (U.recTreeNodes p).listHead = (T.recTreeNodes p).listHead :=
    congrFun (congrArg Shape.listHead hshape) p
  have hoU : Owned L U.shape := by rwa [hshape]
  have hpU : p ∈ U.nodes := by rwa [RecTree.nodes, hshape]
  have hbU : U.blocks p = newer ++ (U.recTreeNodes p).recModEntry :: older := by
    rwa [RecTree.blocks, hshape]
  obtain ⟨T', hT', hent, harr⟩ := withdrawBlocks_isSome hoU hpU hbU
  have w := (owned_withdrawBlocks hoU hpU hbU hT').2
  have hcompact : compactNode ofa p T = some T' := by
    have hq : U.tailheads (T.recTreeNodes p).listHead =
        newer ++ (U.recTreeNodes p).recModEntry :: older := by rw [← hlist]; exact hbU
    simp only [compactNode, Option.bind_eq_bind]
    rw [show T.tailqLast (T.recTreeNodes p).listHead = some ent from hlast, Option.bind_some,
      show T.tailheads (T.recTreeNodes p).listHead = T.blocks p from rfl, hloop, Option.bind_some,
      hq, withdrawUntil_eq hout, ← hlist, hT']
  rw [← records_withdrawn hnd w]
  constructor
  · rintro ⟨T'', hT'', hfilt⟩
    rw [hcompact] at hT''
    cases hT''
    exact hfilt.records
  · intro hrec
    refine ⟨T', hcompact, hrec, ?_, ?_, ?_, newer, ?_, ?_, ?_⟩
    · rw [w.blocks, w.recTreeNodes]
      rfl
    · rwa [w.recTreeNodes]
    · rwa [w.recTreeNodes]
    · rw [hb, w.blocks]
    · rw [hent, show U.recBlockEntryPool = T.recBlockEntryPool from congrArg Shape.entryPool hshape]
    · rw [harr, hshape, show U.recArrPool = T.recArrPool from congrArg Shape.arrPool hshape]

/-! ## One block -/

/-- Compaction succeeds and filters the records of the node. -/
def Filters (ofa : ℤ → Option ℕ) (p : ℕ) (T : RecTree) : Prop :=
  ∃ T', compactNode ofa p T = some T' ∧ Filtered ofa p T T'

theorem blockRecs_take {e k n : ℕ} (h : k ≤ n) : (T.blockRecs e n).take k = T.blockRecs e k := by
  rw [blockRecs, ← List.map_take, List.take_range, Nat.min_eq_left h, blockRecs]

/-- The records begin with the first one of the oldest block. -/
theorem records_head (es : List ℕ) {idx : ℤ} {b : ℕ} (h : es ≠ [] ∨ 0 < idx) :
    ∃ l, T.recordsOf idx (es ++ [b]) = T.firstRec b :: l := by
  cases es with
  | nil =>
    have hpos : 0 < idx := h.resolve_left fun h => h rfl
    obtain ⟨n, hn⟩ : ∃ n, idx.toNat = n + 1 := ⟨idx.toNat - 1, by omega⟩
    rw [List.nil_append, recordsOf, hn, blockRecs_succ_left]
    exact ⟨_, rfl⟩
  | cons e es =>
    rw [recordsOf_concat, show memRecPerEntry = 37 + 1 from rfl, blockRecs_succ_left]
    exact ⟨_, rfl⟩

theorem recordsOf_one (e : ℕ) : T.recordsOf 1 [e] = [T.firstRec e] := by
  simp [recordsOf, show (1 : ℤ).toNat = 0 + 1 from rfl, blockRecs_succ_left]

theorem filters_one (ho : Owned L T.shape) (hp : p ∈ T.nodes) (hn : NodeInv T p) {e : ℕ}
    (hb : T.blocks p = [e]) (hpos : 0 < (T.recTreeNodes p).memRecIdx) :
    Filters ofa p T ↔ (∀ r ∈ T.records p, isLive ofa r) ∨ (T.recTreeNodes p).memRecIdx = 1 := by
  have hloop := loop_single ofa ho hp hn.tidy hb hpos
  have hrec : T.records p = T.recordsOf (T.recTreeNodes p).memRecIdx [e] := by rw [records, hb]
  have hlast : (T.blocks p).getLast? = some e := by rw [hb]; rfl
  have hcur := hn.cur_eq hb
  obtain ⟨l, hl⟩ := records_head (T := T) (b := e) [] (Or.inr hpos)
  rw [List.nil_append, ← hrec] at hl
  by_cases hlive : isLive ofa (T.firstRec e)
  · rw [if_pos hlive] at hloop
    rw [Filters, filtered_iff_of_loop ho hp hlast hloop rfl hn.idx_nonneg hn.idx_le [] []
      (by rw [hcur]; exact hb), hcur, ← hrec, eq_comm, List.filter_eq_self]
    refine ⟨Or.inl, ?_⟩
    rintro (h | hone)
    · exact h
    · intro r hr
      rw [hrec, hone, recordsOf_one, List.mem_singleton] at hr
      exact hr ▸ hlive
  · rw [if_neg hlive] at hloop
    have hle : (T.recTreeNodes p).memRecIdx ≤ 38 := hn.idx_le
    rw [Filters, filtered_iff_of_loop ho hp hlast hloop (shape_setCursor ..)
      (by rw [setCursor_node]; show 0 ≤ _ - 1; omega)
      (by rw [setCursor_node]; show _ - 1 ≤ (38 : ℤ); omega) [] []
      (by rw [setCursor_node]; exact hb), setCursor_node, recordsOf_setCursor]
    have htake : T.recordsOf ((T.recTreeNodes p).memRecIdx - 1) [e] =
        (T.records p).take ((T.recTreeNodes p).memRecIdx - 1).toNat := by
      rw [hrec, recordsOf, recordsOf, List.reverse_nil, List.flatMap_nil, List.nil_append,
        List.nil_append, blockRecs_take (by omega)]
    rw [htake, filter_eq_take_iff, hl]
    constructor
    · rintro ⟨htake, -⟩
      right
      by_contra hne
      refine hlive (htake _ ?_)
      rw [show ((T.recTreeNodes p).memRecIdx - 1).toNat =
        ((T.recTreeNodes p).memRecIdx - 2).toNat + 1 by omega, List.take_succ_cons]
      exact List.mem_cons_self ..
    · rintro (h | hone)
      · exact absurd (h _ (List.mem_cons_self ..)) hlive
      · rw [hone]
        refine ⟨fun r hr => absurd hr List.not_mem_nil, fun r hr => ?_⟩
        rw [← hl, hrec, hone, recordsOf_one] at hr
        rw [List.mem_singleton.1 hr]
        exact Bool.eq_false_iff.2 hlive

/-! ## Patterns that go wrong -/

/-- What compaction leaves, when it succeeds at all. -/
theorem records_compactNode (ho : Owned L T.shape) (hp : p ∈ T.nodes) {es : List ℕ} {b : ℕ}
    (hb : T.blocks p = es ++ [b]) (h : compactNode ofa p T = some T') :
    ∃ U newer older,
      reclaimLoop ofa p ((T.blocks p).length * 32768) (T.enterBlock p b) (T.enterBlock p b) T =
        some U ∧
      T.blocks p = newer ++ (U.recTreeNodes p).recModEntry :: older ∧
      T'.records p =
        U.recordsOf (U.recTreeNodes p).memRecIdx ((U.recTreeNodes p).recModEntry :: older) := by
  obtain ⟨ent, U, newer, older, hent, hloop, hsplit, -, w⟩ := compactNode_eq_some ho hp h
  have hlast : (T.blocks p).getLast? = some ent := hent
  rw [hb, List.getLast?_concat] at hlast
  cases hlast
  have hnd := ho.nodup_blocks hp
  rw [show T.shape.blocks p = _ from hsplit] at hnd
  exact ⟨U, newer, older, hloop, hsplit, records_withdrawn hnd w⟩

/-- The arrays of two blocks of a node are different. -/
theorem recArr_ne (ho : Owned L T.shape) (hp : p ∈ T.nodes) {e f : ℕ} (he : e ∈ T.blocks p)
    (hf : f ∈ T.blocks p) (hne : e ≠ f) :
    (T.recBlockEntries e).recArr ≠ (T.recBlockEntries f).recArr := fun h =>
  hne (ho.recArr_inj (Owned.mem_entries hp he) (Owned.mem_entries hp hf) h)

/-- A slot of one block is not the first slot of another. -/
theorem slot_ne_first (ho : Owned L T.shape) (hp : p ∈ T.nodes) {e f : ℕ} (he : e ∈ T.blocks p)
    (hf : f ∈ T.blocks p) (hne : e ≠ f) {i : ℤ} (h₀ : 0 ≤ i) (h₁ : i < memRecPerEntry) :
    ((T.recBlockEntries e).recArr : ℤ) + i ≠ (T.recBlockEntries f).recArr := by
  have := ho.recArr_apart (Owned.mem_entries hp he) (Owned.mem_entries hp hf) hne
  simp only [shape, Function.comp_apply] at this
  omega

/-- A slot of a block behind those that the loop can still write. -/
theorem OnlyIn.slot_eq (ho : Owned L T.shape) (hp : p ∈ T.nodes) {B C : List ℕ}
    (hb : T.blocks p = B ++ C) {V : RecTree} (hV : V.shape = T.shape) (h : OnlyIn B p V U)
    {f : ℕ} (hf : f ∈ C) {i : ℤ} (h₀ : 0 ≤ i) (h₁ : i < memRecPerEntry) :
    U.slot (T.recBlockEntries f).recArr i = V.slot (T.recBlockEntries f).recArr i := by
  refine h.mem _ fun e he => ?_
  have hnd := ho.nodup_blocks hp
  rw [show T.shape.blocks p = _ from hb] at hnd
  have hne : f ≠ e := fun heq => (List.nodup_append.1 hnd).2.2 e he f hf heq.symm
  rw [recArr_congr hV]
  exact slot_ne_first ho hp (by simp [hb, hf]) (by simp [hb, he]) hne h₀ h₁

/-- A dead record behind the blocks that the loop can still write stays. -/
theorem not_filters_of_stays (ho : Owned L T.shape) (hp : p ∈ T.nodes) {B C es : List ℕ} {b f : ℕ}
    (hb : T.blocks p = B ++ C) (hlast : T.blocks p = es ++ [b]) (hf : f ∈ C) {V : RecTree}
    (hV : V.shape = T.shape)
    (hcur : (V.recTreeNodes p).recModEntry = f ∧ 0 < (V.recTreeNodes p).memRecIdx)
    (hdead : isLive ofa (V.firstRec f) = false)
    (hloop : ∀ U, reclaimLoop ofa p ((T.blocks p).length * 32768) (T.enterBlock p b)
      (T.enterBlock p b) T = some U → OnlyIn B p V U) : ¬ Filters ofa p T := by
  rintro ⟨T', hT', hfilt⟩
  obtain ⟨U, newer, older, hU, hsplit, hrec⟩ := records_compactNode ho hp hlast hT'
  have hin := hloop U hU
  have hfirst : U.firstRec f = V.firstRec f := by
    have h := hin.slot_eq ho hp hb hV hf (Int.le_refl 0) (by decide)
    rw [firstRec, firstRec, recArr_congr (hin.shape.trans hV), recArr_congr hV]
    simpa only [slot, Int.add_zero] using h
  have hmem : U.firstRec f ∈ T'.records p := by
    rw [hrec]
    refine firstRec_mem ?_
    rcases hin.cursor with heq | hB
    · right
      rw [heq]
      exact ⟨hcur.1.symm, hcur.2⟩
    · left
      have hnd := ho.nodup_blocks hp
      rw [show T.shape.blocks p = _ from hb] at hnd
      exact mem_older_of_append hnd (hb ▸ hsplit) hB hf
  rw [hfilt.records, hfirst] at hmem
  have hlive := (List.mem_filter.1 hmem).2
  rw [hdead] at hlive
  cases hlive

/-- With a newer block, a dead record in the first slot of the oldest block stays. -/
theorem not_filters_dead (ho : Owned L T.shape) (hp : p ∈ T.nodes) (newer : List ℕ) {b₁ b₀ : ℕ}
    (hb : T.blocks p = newer ++ [b₁, b₀]) (hdead : isLive ofa (T.firstRec b₀) = false) :
    ¬ Filters ofa p T := by
  have hprev : T.tailqPrev b₀ = some b₁ := tailqPrev_older ho hp hb
  have hb' : T.blocks p = (newer ++ [b₁]) ++ [b₀] := by simpa using hb
  have hshape : (T.setCursor p b₀ 37).shape = T.shape := shape_setCursor p b₀ 37
  refine not_filters_of_stays ho hp hb' hb' (f := b₀) (List.mem_cons_self ..) hshape
    (by rw [setCursor_node]; exact ⟨rfl, (by decide : (0 : ℤ) < 37)⟩) ?_ fun U hU => ?_
  · rw [firstRec, recArr_congr hshape]
    exact hdead
  · have hlen : 38 ≤ (T.blocks p).length * 32768 := by rw [hb]; simp; omega
    rw [phase_dead hdead hprev hprev hlen rfl] at hU
    refine loop_frame (fun e he e' h => ?_) (cursorIn_enterBlock (by simp)) hU
    rw [tailqPrev_congr hshape] at h
    exact tailqPrev_mem_newer ho hp hb' e he e' h

/-- A dead record in the first slot of the second block stays, when there is a
third one. -/
theorem not_filters_dead_dead (ho : Owned L T.shape) (hp : p ∈ T.nodes) (newer : List ℕ)
    {b₂ b₁ b₀ : ℕ} (hb : T.blocks p = newer ++ [b₂, b₁, b₀])
    (hlive : isLive ofa (T.firstRec b₀) = true) (hdead : isLive ofa (T.firstRec b₁) = false)
    (hdead' : isLive ofa (T.firstRec b₂) = false) : ¬ Filters ofa p T := by
  have hb₁ : T.blocks p = (newer ++ [b₂]) ++ [b₁, b₀] := by simpa using hb
  have hlast : T.blocks p = (newer ++ [b₂, b₁]) ++ [b₀] := by simpa using hb
  have hprev₀ : T.tailqPrev b₀ = some b₁ := tailqPrev_older ho hp hb₁
  have hprev₁ : T.tailqPrev b₁ = some b₂ := tailqPrev_older ho hp hb
  have hlen : 3 * 32768 ≤ (T.blocks p).length * 32768 := by rw [hb]; simp; omega
  set V := T.setCursor p b₀ 37 with hV
  have hVs : V.shape = T.shape := shape_setCursor p b₀ 37
  have hprev₁V : V.tailqPrev b₁ = some b₂ := by rw [tailqPrev_congr hVs, hprev₁]
  have hdeadV : isLive ofa (V.firstRec b₂) = false := by
    rw [firstRec, recArr_congr hVs]
    exact hdead'
  -- the third block is searched with the cursor to keep at the beginning of the second
  have hphase : ∀ U, reclaimLoop ofa p ((T.blocks p).length * 32768) (T.enterBlock p b₀)
      (T.enterBlock p b₀) T = some U →
      reclaimLoop ofa p ((T.blocks p).length * 32768 - 38 - 38) (V.enterBlock p b₁)
        (V.enterBlock p b₂) V = some U := by
    intro U hU
    rwa [phase_same hlive hprev₀ (by omega), phase_dead hdead hprev₀ hprev₁ (by omega) hV] at hU
  rcases List.eq_nil_or_concat' newer with rfl | ⟨newer, b₃, rfl⟩
  · have hprev₂ : V.tailqPrev b₂ = none := by
      rw [tailqPrev_congr hVs]
      exact tailqPrev_first ho hp hb
    have hidx : (V.recTreeNodes p).memRecIdx = 37 := by rw [hV, setCursor_node]
    set W := V.setCursor p b₁ 36 with hW
    have hWs : W.shape = T.shape := (shape_setCursor p b₁ 36).trans hVs
    refine not_filters_of_stays ho hp hb₁ hlast (f := b₁) (List.mem_cons_self ..) hWs
      (by rw [hW, setCursor_node]; exact ⟨rfl, (by decide : (0 : ℤ) < 36)⟩) ?_ fun U hU => ?_
    · rw [firstRec, recArr_congr hWs]
      exact hdead
    · have hU' := hphase U hU
      rw [last_dead hdeadV hprev₁V hprev₂ (by rw [hidx]; decide) (by omega), hidx] at hU'
      cases hU'
      exact ⟨rfl, fun _ _ => rfl, Or.inl rfl⟩
  · have hprev₂ : V.tailqPrev b₂ = some b₃ := by
      rw [tailqPrev_congr hVs]
      exact tailqPrev_older ho hp (by simpa using hb)
    set W := V.setCursor p b₁ 37 with hW
    have hWs : W.shape = T.shape := (shape_setCursor p b₁ 37).trans hVs
    refine not_filters_of_stays ho hp hb₁ hlast (f := b₁) (List.mem_cons_self ..) hWs
      (by rw [hW, setCursor_node]; exact ⟨rfl, (by decide : (0 : ℤ) < 37)⟩) ?_ fun U hU => ?_
    · rw [firstRec, recArr_congr hWs]
      exact hdead
    · have hU' := hphase U hU
      rw [phase_dead hdeadV hprev₁V hprev₂ (by omega) hW] at hU'
      refine loop_frame (fun e he e' h => ?_) (cursorIn_enterBlock (by simp)) hU'
      rw [tailqPrev_congr hWs] at h
      exact tailqPrev_mem_newer ho hp hb₁ e he e' h

/-- The records of the oldest block lie below all others. -/
theorem offset_lt (hn : NodeInv T p) {e b : ℕ} {es : List ℕ} (hb : T.blocks p = e :: es ++ [b])
    {r r' : MemRec} (hr : r ∈ T.blockRecs b memRecPerEntry)
    (hr' : r' ∈ T.recordsOf (T.recTreeNodes p).memRecIdx (e :: es)) :
    r.pageOffset < r'.pageOffset := by
  have hasc := hn.ascending
  rw [records, hb, recordsOf_concat] at hasc
  exact (List.pairwise_append.1 hasc).2.2 r hr r' hr'

theorem slot_mem_blockRecs {e i n : ℕ} (h : i < n) :
    T.slot (T.recBlockEntries e).recArr i ∈ T.blockRecs e n :=
  List.mem_map.2 ⟨i, List.mem_range.2 h, rfl⟩

theorem firstRec_mem_blockRecs {e n : ℕ} (h : 0 < n) : T.firstRec e ∈ T.blockRecs e n := by
  have := slot_mem_blockRecs (T := T) (e := e) h
  simpa [slot] using this

/-- The last block of a queue is still the last one behind an entry before it. -/
theorem older_eq_concat {es newer older : List ℕ} {e b : ℕ}
    (h : es ++ [b] = newer ++ e :: older) (hmem : b ∈ older) : ∃ o, older = o ++ [b] := by
  rcases List.eq_nil_or_concat' older with rfl | ⟨o, x, rfl⟩
  · cases hmem
  · have hlast := congrArg List.getLast? h
    rw [List.getLast?_concat, ← List.cons_append, ← List.append_assoc,
      List.getLast?_concat] at hlast
    cases hlast
    exact ⟨o, rfl⟩

/-- With two newer blocks, a live record in the first slot of the second block
replaces the first record. -/
theorem not_filters_live_live (ho : Owned L T.shape) (hp : p ∈ T.nodes) (hn : NodeInv T p)
    (newer : List ℕ) {b₂ b₁ b₀ : ℕ} (hb : T.blocks p = newer ++ [b₂, b₁, b₀])
    (hlive : isLive ofa (T.firstRec b₀) = true) (hlive' : isLive ofa (T.firstRec b₁) = true) :
    ¬ Filters ofa p T := by
  have hb₁ : T.blocks p = (newer ++ [b₂]) ++ [b₁, b₀] := by simpa using hb
  obtain ⟨e, es, hes⟩ : ∃ e es, newer ++ [b₂] = e :: es := by cases newer <;> simp
  have hlast : T.blocks p = (e :: (es ++ [b₁])) ++ [b₀] := by
    rw [← List.cons_append, ← hes]
    simpa using hb
  have hprev₀ : T.tailqPrev b₀ = some b₁ := tailqPrev_older ho hp hb₁
  have hprev₁ : T.tailqPrev b₁ = some b₂ := tailqPrev_older ho hp hb
  have hlen : 3 * 32768 ≤ (T.blocks p).length * 32768 := by rw [hb]; simp; omega
  have hnd := ho.nodup_blocks hp
  rw [show T.shape.blocks p = _ from hlast] at hnd
  have hne : b₁ ≠ b₀ := (List.nodup_append.1 hnd).2.2 b₁ (by simp) b₀ (by simp)
  rintro ⟨T', hT', hfilt⟩
  obtain ⟨U, newer', older, hU, hsplit, hrec⟩ := records_compactNode ho hp hlast hT'
  set V := T.setRec (T.recBlockEntries b₀).recArr (T.firstRec b₁) with hV
  rw [phase_same hlive hprev₀ (by omega), phase_copy hlive'
    (recArr_ne ho hp (by simp [hb]) (by simp [hb]) hne.symm) hprev₀ hprev₁ (by omega) hV] at hU
  have hin : OnlyIn (e :: (es ++ [b₁])) p V U :=
    loop_frame (T := V) (tailqPrev_mem_newer (T := V) ho hp hlast)
      (cursorIn_enterBlock (by simp)) hU
  have hcur : (U.recTreeNodes p).recModEntry ∈ e :: (es ++ [b₁]) := by
    rcases hin.cursor with heq | h
    · rw [heq]
      show (T.recTreeNodes p).recModEntry ∈ _
      rw [hn.cur_eq hlast]
      exact List.mem_cons_self ..
    · exact h
  obtain ⟨o, rfl⟩ := older_eq_concat (hlast ▸ hsplit)
    (mem_older_of_append hnd (hlast ▸ hsplit) hcur (List.mem_cons_self ..))
  -- the oldest block now begins with a copy of the first record of the second
  have hfirst : U.firstRec b₀ = T.firstRec b₁ := by
    have h := hin.slot_eq ho hp hlast (V := V) rfl (List.mem_cons_self ..) (Int.le_refl 0)
      (by decide)
    rw [slot, slot, Int.add_zero] at h
    rw [firstRec, recArr_congr (hin.shape.trans rfl : U.shape = T.shape), h]
    exact Function.update_self ..
  obtain ⟨l, hl⟩ := records_head (T := U) (b := b₀)
    ((U.recTreeNodes p).recModEntry :: o) (Or.inl (by simp))
  obtain ⟨l', hl'⟩ := records_head (T := T) (b := b₀) (e :: (es ++ [b₁]))
    (Or.inl (by simp))
  have hrecords : T.records p = T.firstRec b₀ :: l' := by rw [records, hlast, hl']
  have heq := hfilt.records
  rw [hrec, ← List.cons_append, hl, hfirst, hrecords, List.filter_cons_of_pos hlive] at heq
  -- but the offset of that record is larger
  have hlt := offset_lt hn hlast (firstRec_mem_blockRecs (by decide))
    (firstRec_mem (f := b₁) (Or.inl (by simp)))
  rw [(List.cons.inj heq).1] at hlt
  exact Int.lt_irrefl _ hlt

/-- The last block of a queue stands in it once. -/
theorem older_eq_nil {es newer older : List ℕ} {b : ℕ} (hnd : (es ++ [b]).Nodup)
    (h : es ++ [b] = newer ++ b :: older) : older = [] := by
  have hout : b ∉ es := fun hmem => (List.nodup_append.1 hnd).2.2 b hmem b (by simp) rfl
  exact ((List.append_cons_inj_of_notMem hout (by simp)).1 h).2.2.symm

section

/-! A cursor is left behind 37 records of an older block and `r` is copied over
the first record of the block `b`, then the loop goes on in newer blocks (`U`). -/

variable {V W : RecTree} {B C : List ℕ} {b₀ b f : ℕ} {r : MemRec}

theorem slot_of_copied (ho : Owned L T.shape) (hp : p ∈ T.nodes) (hb : T.blocks p = B ++ C)
    (hb₁ : b ∈ C) (hV : V = T.setCursor p b₀ 37)
    (hW : W = V.setRec (V.recBlockEntries b).recArr r) (hin : OnlyIn B p W U) (hf : f ∈ C) {i : ℤ}
    (hi : 0 ≤ i) (hi' : i < 38) (hne : f ≠ b ∨ i ≠ 0) :
    U.slot (U.recBlockEntries f).recArr i = T.slot (T.recBlockEntries f).recArr i := by
  have hVs : V.shape = T.shape := by rw [hV, shape_setCursor]
  have hWs : W.shape = T.shape := by rw [hW]; exact hVs
  rw [recArr_congr (hin.shape.trans hWs), hin.slot_eq ho hp hb hWs hf hi hi', hW,
    recArr_congr hVs]
  have hslot : V.slot (T.recBlockEntries f).recArr i = T.slot (T.recBlockEntries f).recArr i := by
    rw [hV]
    rfl
  rw [← hslot]
  refine Function.update_of_ne ?_ _ _
  rcases eq_or_ne f b with rfl | hfb
  · have := hne.resolve_left (not_not.2 rfl)
    omega
  · exact slot_ne_first ho hp (by simp [hb, hf]) (by simp [hb, hb₁]) hfb hi hi'

theorem firstRec_of_copied (ho : Owned L T.shape) (hp : p ∈ T.nodes) (hb : T.blocks p = B ++ C)
    (hb₁ : b ∈ C) (hV : V = T.setCursor p b₀ 37)
    (hW : W = V.setRec (V.recBlockEntries b).recArr r) (hin : OnlyIn B p W U) :
    U.firstRec b = r := by
  have hVs : V.shape = T.shape := by rw [hV, shape_setCursor]
  have hWs : W.shape = T.shape := by rw [hW]; exact hVs
  have h := hin.slot_eq ho hp hb hWs hb₁ (Int.le_refl 0) (by decide)
  rw [slot, slot, Int.add_zero] at h
  rw [firstRec, recArr_congr (hin.shape.trans hWs), h, hW, recArr_congr hVs]
  exact Function.update_self ..

end

/-- What the loop comes to when the first record is alive, the first one of the
second block dead and the first one of the third alive: it counts the cursor up
to 37, copies the last of these over the dead one, and goes on in newer blocks. -/
theorem loop_many (ho : Owned L T.shape) (hp : p ∈ T.nodes) {newer : List ℕ} {b₃ b₂ b₁ b₀ : ℕ}
    (hb : T.blocks p = newer ++ [b₃, b₂, b₁, b₀]) (hne : b₂ ≠ b₁)
    (hlive : isLive ofa (T.firstRec b₀) = true) (hdead : isLive ofa (T.firstRec b₁) = false)
    (hlive' : isLive ofa (T.firstRec b₂) = true)
    (hU : reclaimLoop ofa p ((T.blocks p).length * 32768) (T.enterBlock p b₀)
      (T.enterBlock p b₀) T = some U) :
    OnlyIn (newer ++ [b₃, b₂]) p ((T.setCursor p b₀ 37).setRec
      ((T.setCursor p b₀ 37).recBlockEntries b₁).recArr (T.firstRec b₂)) U := by
  have hb₁ : T.blocks p = (newer ++ [b₃, b₂]) ++ [b₁, b₀] := by simpa using hb
  have hprev₀ : T.tailqPrev b₀ = some b₁ := tailqPrev_older ho hp hb₁
  have hprev₁ : T.tailqPrev b₁ = some b₂ :=
    tailqPrev_older ho hp (show T.blocks p = (newer ++ [b₃]) ++ [b₂, b₁, b₀] by simpa using hb)
  have hprev₂ : T.tailqPrev b₂ = some b₃ := tailqPrev_older ho hp hb
  have hlen : 3 * 32768 ≤ (T.blocks p).length * 32768 := by rw [hb]; simp; omega
  set V := T.setCursor p b₀ 37 with hV
  have hVs : V.shape = T.shape := shape_setCursor p b₀ 37
  have hfirstV : V.firstRec b₂ = T.firstRec b₂ := by
    rw [firstRec, recArr_congr hVs]
    rfl
  set W := V.setRec (V.recBlockEntries b₁).recArr (T.firstRec b₂) with hW
  have hneV : (V.recBlockEntries b₁).recArr ≠ (V.recBlockEntries b₂).recArr := by
    rw [recArr_congr hVs, recArr_congr hVs]
    exact recArr_ne ho hp (by simp [hb]) (by simp [hb]) hne.symm
  rw [phase_same hlive hprev₀ (by omega), phase_dead hdead hprev₀ hprev₁ (by omega) hV,
    phase_copy (by rw [hfirstV]; exact hlive') hneV (by rw [tailqPrev_congr hVs, hprev₁])
      (by rw [tailqPrev_congr hVs, hprev₂]) (by omega) (hfirstV.symm ▸ hW)] at hU
  refine loop_frame (fun f hf f' h => ?_) (cursorIn_enterBlock (by simp)) hU
  rw [tailqPrev_congr (show W.shape = T.shape from hVs)] at h
  exact tailqPrev_mem_newer ho hp hb₁ f hf f' h

/-- With three newer blocks, a dead record in the first slot of the second block
loses one that is alive in the third, or leaves it in front of others. -/
theorem not_filters_many (ho : Owned L T.shape) (hp : p ∈ T.nodes) (hn : NodeInv T p)
    {newer : List ℕ} {b₃ b₂ b₁ b₀ : ℕ} (hb : T.blocks p = newer ++ [b₃, b₂, b₁, b₀])
    (hlive : isLive ofa (T.firstRec b₀) = true) (hdead : isLive ofa (T.firstRec b₁) = false)
    (hlive' : isLive ofa (T.firstRec b₂) = true) : ¬ Filters ofa p T := by
  have hb₁ : T.blocks p = (newer ++ [b₃, b₂]) ++ [b₁, b₀] := by simpa using hb
  obtain ⟨e, es, hes⟩ : ∃ e es, newer ++ [b₃] = e :: es := by cases newer <;> simp
  have hlast : T.blocks p = (e :: (es ++ [b₂, b₁])) ++ [b₀] := by
    rw [← List.cons_append, ← hes]
    simpa using hb
  have hnd := ho.nodup_blocks hp
  have hnd₀ := hnd
  rw [show T.shape.blocks p = _ from hlast] at hnd₀
  rw [show T.shape.blocks p = _ from hb₁] at hnd
  have hne : b₂ ≠ b₁ := (List.nodup_append.1 hnd).2.2 b₂ (by simp) b₁ (by simp)
  have hne₀ : b₁ ≠ b₀ := by
    have := (List.nodup_cons.1 (List.nodup_append.1 hnd).2.1).1
    simpa using this
  rintro ⟨T', hT', hfilt⟩
  obtain ⟨U, newer', older, hU, hsplit, hrec⟩ := records_compactNode ho hp hlast hT'
  have hin := loop_many ho hp hb hne hlive hdead hlive' hU
  have hmem₂ : T.firstRec b₂ ∈ T.recordsOf (T.recTreeNodes p).memRecIdx (e :: (es ++ [b₂, b₁])) :=
    firstRec_mem (Or.inl (by simp))
  rcases hin.cursor with heq | hcur
  · -- the records of the first block are all that is left
    have hnode : U.recTreeNodes p =
        { T.recTreeNodes p with recModEntry := b₀, memRecIdx := 37 } :=
      heq.trans (setCursor_node b₀ 37)
    rw [hnode] at hrec hsplit
    obtain rfl : older = [] := older_eq_nil hnd₀ (hlast ▸ hsplit)
    have hmem : T.firstRec b₂ ∈ T'.records p := by
      rw [hfilt.records, records, hlast, recordsOf_concat]
      exact List.mem_filter.2 ⟨List.mem_append_right _ hmem₂, hlive'⟩
    rw [hrec] at hmem
    obtain ⟨i, hi, hslot⟩ := List.mem_map.1 hmem
    have hi' : i < 37 := List.mem_range.1 hi
    have hslotT : U.slot (U.recBlockEntries b₀).recArr i =
        T.slot (T.recBlockEntries b₀).recArr i :=
      slot_of_copied ho hp hb₁ (by simp) rfl rfl hin (by simp) (Int.natCast_nonneg i) (by omega)
        (Or.inl hne₀.symm)
    have h := offset_lt hn hlast (slot_mem_blockRecs (show i < 38 by omega)) hmem₂
    rw [← hslotT, hslot] at h
    exact Int.lt_irrefl _ h
  · -- the first record of the third block stands in front of the rest of the second
    have hmem : b₁ ∈ older := mem_older_of_append hnd (hb₁ ▸ hsplit) hcur (by simp)
    have hpair : (U.blockRecs b₁ memRecPerEntry).Pairwise fun a b =>
        a.pageOffset < b.pageOffset := by
      have hasc := hn.ascending.sublist (List.filter_sublist (p := isLive ofa))
      rw [← hfilt.records, hrec, recordsOf] at hasc
      exact (List.pairwise_flatMap.1 (List.pairwise_append.1 hasc).1).1 b₁ (List.mem_reverse.2 hmem)
    rw [show memRecPerEntry = 37 + 1 from rfl, blockRecs_succ_left] at hpair
    have hlt₁ : (U.firstRec b₁).pageOffset <
        (U.slot (U.recBlockEntries b₁).recArr 1).pageOffset :=
      List.rel_of_pairwise_cons hpair (List.mem_map.2 ⟨0, List.mem_range.2 (by decide), rfl⟩)
    rw [firstRec_of_copied ho hp hb₁ (by simp) rfl rfl hin,
      slot_of_copied ho hp hb₁ (by simp) rfl rfl hin (by simp) (by decide) (by decide)
        (Or.inr (by decide))] at hlt₁
    -- in the tree before, those lie below it
    have hasc := hn.ascending
    rw [records, hlast, recordsOf_concat, show e :: (es ++ [b₂, b₁]) = e :: (es ++ [b₂]) ++ [b₁]
      by simp, recordsOf_concat] at hasc
    have hlt₂ := (List.pairwise_append.1 (List.pairwise_append.1 hasc).2.1).2.2 _
      (slot_mem_blockRecs (show 1 < 38 by decide)) _ (firstRec_mem (f := b₂) (Or.inl (by simp)))
    exact Int.lt_irrefl _ (Int.lt_trans hlt₁ hlt₂)

/-! ## The patterns that are filtered -/

/-- A list that becomes its own filtered version was alive throughout. -/
theorem filter_eq_self_of_length {α : Type*} {l l' : List α} {q : α → Bool}
    (h : l' = l.filter q) (hlen : l'.length = l.length) : l' = l ∧ ∀ a ∈ l, q a = true := by
  have hself : l.filter q = l :=
    List.filter_sublist.eq_of_length (by rw [← h, hlen])
  exact ⟨h.trans hself, List.filter_eq_self.1 hself⟩

theorem blockRecs_setRec_self (r : MemRec) (e n : ℕ) :
    (T.setRec (T.recBlockEntries e).recArr r).blockRecs e (n + 1) =
      r :: (T.blockRecs e (n + 1)).tail := by
  rw [blockRecs_succ_left, blockRecs_succ_left, List.tail_cons]
  congr 1
  · exact Function.update_self ..
  · exact List.map_congr_left fun i _ => Function.update_of_ne
      (show ((T.recBlockEntries e).recArr : ℤ) + (i + 1) ≠ _ by omega) _ _

theorem blockRecs_setRec_other (ho : Owned L T.shape) (hp : p ∈ T.nodes) {e f : ℕ}
    (he : e ∈ T.blocks p) (hf : f ∈ T.blocks p) (hne : e ≠ f) (r : MemRec) {k : ℕ}
    (hk : k ≤ memRecPerEntry) :
    (T.setRec (T.recBlockEntries f).recArr r).blockRecs e k = T.blockRecs e k := by
  refine List.map_congr_left fun i hi => Function.update_of_ne ?_ _ _
  have hi' := List.mem_range.1 hi
  exact slot_ne_first ho hp he hf hne (Int.natCast_nonneg i) (by omega)

theorem records_two {b₁ b₀ : ℕ} (hb : T.blocks p = [b₁, b₀]) : T.records p =
    T.blockRecs b₀ 38 ++ T.blockRecs b₁ (T.recTreeNodes p).memRecIdx.toNat := by
  rw [records, hb]
  simp [recordsOf]

theorem records_three {b₂ b₁ b₀ : ℕ} (hb : T.blocks p = [b₂, b₁, b₀]) : T.records p =
    T.blockRecs b₀ 38 ++
      (T.blockRecs b₁ 38 ++ T.blockRecs b₂ (T.recTreeNodes p).memRecIdx.toNat) := by
  rw [records, hb]
  simp [recordsOf]

/-- With both blocks beginning with a live record, the first record is replaced
by what the newer block begins with. -/
theorem filters_two_live (ho : Owned L T.shape) (hp : p ∈ T.nodes) (hn : NodeInv T p) {b₁ b₀ : ℕ}
    (hb : T.blocks p = [b₁, b₀]) (hlive : isLive ofa (T.firstRec b₀) = true)
    (hlive' : isLive ofa (T.firstRec b₁) = true) : Filters ofa p T ↔
      (∀ r ∈ T.records p, isLive ofa r) ∧ T.firstRec b₁ = T.firstRec b₀ := by
  have hprev₀ : T.tailqPrev b₀ = some b₁ :=
    tailqPrev_older ho hp (show T.blocks p = [] ++ b₁ :: b₀ :: [] from hb)
  have hcur := hn.cur_eq hb
  have hle : (T.recTreeNodes p).memRecIdx ≤ 38 := hn.idx_le
  have hlen : (T.blocks p).length * 32768 = 2 * 32768 := by rw [hb]; rfl
  have hb₀ : b₀ ∈ T.blocks p := by simp [hb]
  have hb₁ : b₁ ∈ T.blocks p := by simp [hb]
  have hne : b₁ ≠ b₀ := by
    have hnd := ho.nodup_blocks hp
    rw [show T.shape.blocks p = _ from hb] at hnd
    simpa using hnd
  obtain ⟨l, hl⟩ := records_head (T := T) (b := b₀) [b₁] (Or.inl (by simp))
  have hcons : T.records p = T.firstRec b₀ :: l := by rw [records, hb, ← hl]; rfl
  set U := T.setRec (T.recBlockEntries b₀).recArr (T.firstRec b₁) with hU
  have hloop : reclaimLoop ofa p ((T.blocks p).length * 32768) (T.enterBlock p b₀)
      (T.enterBlock p b₀) T = some U := by
    rw [hlen, phase_same hlive hprev₀ (by omega), last_copy hlive'
      (recArr_ne ho hp hb₀ hb₁ hne.symm) hprev₀ (tailqPrev_first ho hp hb) hle (by omega)]
  have hafter : U.recordsOf (T.recTreeNodes p).memRecIdx [b₁, b₀] = T.firstRec b₁ :: l := by
    have hkeep : U.blockRecs b₁ (T.recTreeNodes p).memRecIdx.toNat =
        T.blockRecs b₁ (T.recTreeNodes p).memRecIdx.toNat :=
      blockRecs_setRec_other ho hp hb₁ hb₀ hne _ (show _ ≤ 38 by omega)
    have hself : U.blockRecs b₀ 38 = T.firstRec b₁ :: (T.blockRecs b₀ 38).tail :=
      blockRecs_setRec_self _ b₀ 37
    have htail : l =
        (T.blockRecs b₀ 38).tail ++ T.blockRecs b₁ (T.recTreeNodes p).memRecIdx.toNat := by
      rw [records_two hb, show 38 = 37 + 1 from rfl, blockRecs_succ_left, List.cons_append]
        at hcons
      rw [← (List.cons.inj hcons).2, show 38 = 37 + 1 from rfl, blockRecs_succ_left]
      rfl
    rw [htail, ← List.cons_append, ← hself, ← hkeep]
    simp [recordsOf]
  rw [Filters, filtered_iff_of_loop ho hp (by rw [hb]; rfl) hloop rfl hn.idx_nonneg hle [] [b₀]
    (by rw [List.nil_append, hb]; exact congrArg (· :: [b₀]) hcur.symm),
    show (U.recTreeNodes p).recModEntry = b₁ from hcur,
    show (U.recTreeNodes p).memRecIdx = (T.recTreeNodes p).memRecIdx from rfl, hafter]
  constructor
  · intro h
    obtain ⟨hsame, hall⟩ := filter_eq_self_of_length h (by rw [hcons]; rfl)
    rw [hcons] at hsame
    exact ⟨hall, (List.cons.inj hsame).1⟩
  · rintro ⟨hall, hfirst⟩
    rw [hfirst, ← hcons, List.filter_eq_self.2 hall]

/-- With a live first record and a dead one in the first slot of the newer block,
the cursor is counted up in the older block while the newer one is searched. -/
theorem filters_two_dead (ho : Owned L T.shape) (hp : p ∈ T.nodes) (hn : NodeInv T p) {b₁ b₀ : ℕ}
    (hb : T.blocks p = [b₁, b₀]) (hlive : isLive ofa (T.firstRec b₀) = true)
    (hdead : isLive ofa (T.firstRec b₁) = false) : Filters ofa p T ↔
      (∀ r ∈ (T.records p).take ((T.recTreeNodes p).memRecIdx.toNat - 1), isLive ofa r) ∧
        ∀ r ∈ (T.records p).drop ((T.recTreeNodes p).memRecIdx.toNat - 1),
          isLive ofa r = false := by
  have hprev₀ : T.tailqPrev b₀ = some b₁ :=
    tailqPrev_older ho hp (show T.blocks p = [] ++ b₁ :: b₀ :: [] from hb)
  have hle : (T.recTreeNodes p).memRecIdx ≤ 38 := hn.idx_le
  have hlen : (T.blocks p).length * 32768 = 2 * 32768 := by rw [hb]; rfl
  set n := ((T.recTreeNodes p).memRecIdx - 1).toNat with hn'
  have hnc : n = (T.recTreeNodes p).memRecIdx.toNat - 1 := by omega
  have hloop : reclaimLoop ofa p ((T.blocks p).length * 32768) (T.enterBlock p b₀)
      (T.enterBlock p b₀) T = some (T.setCursor p b₀ n) := by
    rw [hlen, phase_same hlive hprev₀ (by omega), last_dead hdead hprev₀
      (tailqPrev_first ho hp hb) hle (by omega)]
  have hafter : T.recordsOf n [b₀] = (T.records p).take n := by
    rw [records_two hb, List.take_append_of_le_length (by rw [length_blockRecs]; omega),
      blockRecs_take (by omega)]
    simp [recordsOf]
  rw [Filters, filtered_iff_of_loop ho hp (by rw [hb]; rfl) hloop (shape_setCursor ..)
    (by rw [setCursor_node]; exact Int.natCast_nonneg n)
    (by rw [setCursor_node]; show (n : ℤ) ≤ 38; omega) [b₁] []
    (by rw [setCursor_node]; exact hb), setCursor_node, recordsOf_setCursor, hafter,
    filter_eq_take_iff, ← hnc]

theorem filters_two (ho : Owned L T.shape) (hp : p ∈ T.nodes) (hn : NodeInv T p) {b₁ b₀ : ℕ}
    (hb : T.blocks p = [b₁, b₀]) : Filters ofa p T ↔ CompactOk ofa T p := by
  have h₀ : 0 ≤ (T.recTreeNodes p).memRecIdx := hn.idx_nonneg
  have h₁ : (T.recTreeNodes p).memRecIdx ≤ 38 := hn.idx_le
  have hrec := records_two hb
  obtain ⟨l, hl⟩ := records_head (T := T) (b := b₀) [b₁] (Or.inl (by simp))
  have hcons : T.records p = T.firstRec b₀ :: l := by rw [records, hb, ← hl]; rfl
  unfold CompactOk
  simp only [hb]
  by_cases hlive : isLive ofa (T.firstRec b₀) = true
  case neg =>
    rw [Bool.not_eq_true] at hlive
    refine iff_of_false (not_filters_dead ho hp [] hb hlive) ?_
    rintro (⟨-, hall, -⟩ | ⟨hc, htake, -⟩)
    · rw [hall (T.firstRec b₀) (by rw [hcons]; simp)] at hlive
      cases hlive
    · obtain ⟨k, hk⟩ : ∃ k, (T.recTreeNodes p).memRecIdx.toNat - 1 = k + 1 :=
        ⟨(T.recTreeNodes p).memRecIdx.toNat - 2, by omega⟩
      rw [htake (T.firstRec b₀) (by rw [hcons, hk, List.take_succ_cons]; simp)] at hlive
      cases hlive
  by_cases hlive' : isLive ofa (T.firstRec b₁) = true
  · rw [filters_two_live ho hp hn hb hlive hlive']
    constructor
    · rintro ⟨hall, hfirst⟩
      refine Or.inl ⟨?_, hall, hfirst⟩
      by_contra hc
      have hlt := offset_lt hn (show T.blocks p = b₁ :: [] ++ [b₀] from hb)
        (firstRec_mem_blockRecs (by decide)) (firstRec_mem (f := b₁) (Or.inr ⟨rfl, by omega⟩))
      rw [hfirst] at hlt
      exact Int.lt_irrefl _ hlt
    · rintro (⟨-, hall, hfirst⟩ | ⟨hc, -, hdrop⟩)
      · exact ⟨hall, hfirst⟩
      · have hdead := hdrop (T.firstRec b₁) (by
          rw [hrec, List.drop_append_of_le_length (by rw [length_blockRecs]; omega)]
          exact List.mem_append_right _ (firstRec_mem_blockRecs (by omega)))
        rw [hlive'] at hdead
        cases hdead
  · rw [Bool.not_eq_true] at hlive'
    rw [filters_two_dead ho hp hn hb hlive hlive']
    constructor
    · rintro ⟨htake, hdrop⟩
      refine Or.inr ⟨?_, htake, hdrop⟩
      by_contra hc
      have hdead := hdrop (T.firstRec b₀)
        (by rw [show (T.recTreeNodes p).memRecIdx.toNat - 1 = 0 by omega, hcons]; simp)
      rw [hlive] at hdead
      cases hdead
    · rintro (⟨-, -, hfirst⟩ | ⟨-, h⟩)
      · rw [hfirst, hlive] at hlive'
        cases hlive'
      · exact h

/-- With three blocks and a dead record only in the first slot of the middle one,
the newest block is copied over the middle one, behind the cursor of the node. -/
theorem filters_three_copied (ho : Owned L T.shape) (hp : p ∈ T.nodes) {b₂ b₁ b₀ : ℕ}
    (hb : T.blocks p = [b₂, b₁, b₀]) (hlive : isLive ofa (T.firstRec b₀) = true)
    (hlive₁ : isLive ofa (T.firstRec b₁) = false) (hlive₂ : isLive ofa (T.firstRec b₂) = true) :
    Filters ofa p T ↔ (∀ r ∈ (T.records p).take 37, isLive ofa r) ∧
      ∀ r ∈ (T.records p).drop 37, isLive ofa r = false := by
  have hprev₀ : T.tailqPrev b₀ = some b₁ :=
    tailqPrev_older ho hp (show T.blocks p = [b₂] ++ b₁ :: b₀ :: [] from hb)
  have hprev₁ : T.tailqPrev b₁ = some b₂ :=
    tailqPrev_older ho hp (show T.blocks p = [] ++ b₂ :: b₁ :: [b₀] from hb)
  have hprev₂ : T.tailqPrev b₂ = none := tailqPrev_first ho hp hb
  have hlen : (T.blocks p).length * 32768 = 3 * 32768 := by rw [hb]; rfl
  have hb₁ : b₁ ∈ T.blocks p := by simp [hb]
  have hnd := ho.nodup_blocks hp
  rw [show T.shape.blocks p = _ from hb] at hnd
  have hne₀ : b₀ ≠ b₁ := by
    have := (List.nodup_cons.1 (List.nodup_cons.1 hnd).2).1
    simpa [eq_comm] using this
  have hne₂ : b₁ ≠ b₂ := by
    have := (List.nodup_cons.1 hnd).1
    rw [List.mem_cons, not_or] at this
    exact Ne.symm this.1
  set V := T.setCursor p b₀ 37 with hV
  have hVs : V.shape = T.shape := shape_setCursor p b₀ 37
  set U := V.setRec (V.recBlockEntries b₁).recArr (V.firstRec b₂) with hU
  have hnode : U.recTreeNodes p = { T.recTreeNodes p with recModEntry := b₀, memRecIdx := 37 } :=
    setCursor_node b₀ 37
  have hloop : reclaimLoop ofa p ((T.blocks p).length * 32768) (T.enterBlock p b₀)
      (T.enterBlock p b₀) T = some U := by
    rw [hlen, phase_same hlive hprev₀ (by omega), phase_dead hlive₁ hprev₀ hprev₁ (by omega) hV,
      last_copy (by rw [firstRec, recArr_congr hVs]; exact hlive₂)
        (by rw [recArr_congr hVs, recArr_congr hVs]
            exact recArr_ne ho hp hb₁ (by simp [hb]) hne₂)
        (by rw [tailqPrev_congr hVs, hprev₁]) (by rw [tailqPrev_congr hVs, hprev₂])
        (by rw [hV, setCursor_node]; exact (by decide : (37 : ℤ) ≤ 38)) (by omega)]
  have hafter : U.recordsOf 37 [b₀] = (T.records p).take 37 := by
    have hkeep : U.blockRecs b₀ 37 = T.blockRecs b₀ 37 := by
      have hpV : p ∈ V.nodes := by rwa [RecTree.nodes, hVs]
      rw [hU, blockRecs_setRec_other (by rwa [hVs]) hpV
        (by rw [RecTree.blocks, hVs]; exact (by simp [hb] : b₀ ∈ T.blocks p))
        (by rwa [RecTree.blocks, hVs]) hne₀ _ (by decide), blockRecs_setCursor]
    rw [records_three hb, List.take_append_of_le_length (by rw [length_blockRecs]; omega),
      blockRecs_take (by omega), ← hkeep]
    simp [recordsOf]
  rw [Filters, filtered_iff_of_loop ho hp (by rw [hb]; rfl) hloop (show U.shape = T.shape from hVs)
    (by rw [hnode]; exact (by decide : (0 : ℤ) ≤ 37))
    (by rw [hnode]; exact (by decide : (37 : ℤ) ≤ 38)) [b₂, b₁] []
    (by rw [hnode]; exact hb), hnode, hafter, filter_eq_take_iff]

theorem filters_three (ho : Owned L T.shape) (hp : p ∈ T.nodes) (hn : NodeInv T p) {b₂ b₁ b₀ : ℕ}
    (hb : T.blocks p = [b₂, b₁, b₀]) : Filters ofa p T ↔ CompactOk ofa T p := by
  have h₀ : 0 ≤ (T.recTreeNodes p).memRecIdx := hn.idx_nonneg
  have hrec := records_three hb
  have hdrop : (T.records p).drop 37 = (T.blockRecs b₀ 38).drop 37 ++
      (T.blockRecs b₁ 38 ++ T.blockRecs b₂ (T.recTreeNodes p).memRecIdx.toNat) := by
    rw [hrec, List.drop_append_of_le_length (by rw [length_blockRecs]; omega)]
  unfold CompactOk
  simp only [hb]
  by_cases hlive : isLive ofa (T.firstRec b₀) = true
  case neg =>
    rw [Bool.not_eq_true] at hlive
    refine iff_of_false (not_filters_dead ho hp [b₂] hb hlive) ?_
    rintro ⟨-, htake, -⟩
    rw [htake (T.firstRec b₀) (by
      rw [hrec, show 38 = 37 + 1 from rfl, blockRecs_succ_left, List.cons_append,
        show 37 = 36 + 1 from rfl, List.take_succ_cons]
      exact List.mem_cons_self ..)] at hlive
    cases hlive
  by_cases hlive₁ : isLive ofa (T.firstRec b₁) = true
  · refine iff_of_false (not_filters_live_live ho hp hn [] hb hlive hlive₁) ?_
    rintro ⟨-, -, hdead, -⟩
    have h := hdead (T.firstRec b₁) (by
      rw [hdrop]
      exact List.mem_append_right _ (List.mem_append_left _ (firstRec_mem_blockRecs (by decide))))
    rw [hlive₁] at h
    cases h
  rw [Bool.not_eq_true] at hlive₁
  by_cases hlive₂ : isLive ofa (T.firstRec b₂) = true
  case neg =>
    rw [Bool.not_eq_true] at hlive₂
    refine iff_of_false (not_filters_dead_dead ho hp [] hb hlive hlive₁ hlive₂) ?_
    rintro ⟨-, -, -, h⟩
    rw [hlive₂] at h
    cases h
  rw [filters_three_copied ho hp hb hlive hlive₁ hlive₂]
  refine ⟨fun h => ⟨?_, h.1, h.2, hlive₂⟩, fun h => ⟨h.2.1, h.2.2.1⟩⟩
  by_contra hc
  have hdead := h.2 (T.firstRec b₂) (by
    rw [hdrop]
    exact List.mem_append_right _ (List.mem_append_right _ (firstRec_mem_blockRecs (by omega))))
  rw [hlive₂] at hdead
  cases hdead

theorem exists_last_four {α : Type*} {l : List α} (h : 4 ≤ l.length) :
    ∃ newer b₃ b₂ b₁ b₀, l = newer ++ [b₃, b₂, b₁, b₀] := by
  rw [← List.length_reverse] at h
  rcases hr : l.reverse with _ | ⟨b₀, _ | ⟨b₁, _ | ⟨b₂, _ | ⟨b₃, newer⟩⟩⟩⟩
  case cons.cons.cons.cons =>
    refine ⟨newer.reverse, b₃, b₂, b₁, b₀, ?_⟩
    rw [← List.reverse_reverse l, hr]
    simp
  all_goals simp [hr] at h

/-- Compaction filters the records of a node exactly in the patterns of
`CompactOk`. -/
theorem compactNode_filters_iff (ho : Owned L T.shape) (hp : p ∈ T.nodes) (hn : NodeInv T p)
    (hne : T.records p ≠ []) : Filters ofa p T ↔ CompactOk ofa T p := by
  obtain ⟨older, hb⟩ := hn.blocks_eq
  set e := (T.recTreeNodes p).recModEntry
  match older, hb with
  | [], hb =>
    have hpos : 0 < (T.recTreeNodes p).memRecIdx := by
      by_contra hc
      refine hne ?_
      rw [records, hb, recordsOf, show (T.recTreeNodes p).memRecIdx.toNat = 0 by omega]
      rfl
    rw [filters_one ho hp hn hb hpos]
    unfold CompactOk
    simp only [hb]
  | [_], hb => exact filters_two ho hp hn hb
  | [_, _], hb => exact filters_three ho hp hn hb
  | e₁ :: e₂ :: e₃ :: rest, hb =>
    have hnot : ¬ CompactOk ofa T p := by
      unfold CompactOk
      simp only [hb]
      exact not_false
    obtain ⟨newer, b₃, b₂, b₁, b₀, hsplit⟩ : ∃ newer b₃ b₂ b₁ b₀,
        e :: e₁ :: e₂ :: e₃ :: rest = newer ++ [b₃, b₂, b₁, b₀] :=
      exists_last_four (by simp)
    rw [hsplit] at hb
    refine iff_of_false ?_ hnot
    by_cases hlive : isLive ofa (T.firstRec b₀) = true
    case neg =>
      exact not_filters_dead ho hp (newer ++ [b₃, b₂]) (by simpa using hb)
        (Bool.not_eq_true _ ▸ hlive)
    by_cases hlive₁ : isLive ofa (T.firstRec b₁) = true
    · exact not_filters_live_live ho hp hn (newer ++ [b₃]) (by simpa using hb) hlive hlive₁
    rw [Bool.not_eq_true] at hlive₁
    by_cases hlive₂ : isLive ofa (T.firstRec b₂) = true
    · exact not_filters_many ho hp hn hb hlive hlive₁ hlive₂
    · exact not_filters_dead_dead ho hp (newer ++ [b₃]) (by simpa using hb) hlive hlive₁
        (Bool.not_eq_true _ ▸ hlive₂)

/-- Reclaiming a node with records filters them exactly in the patterns of
`CompactOk`. -/
theorem reclaimSpecialRecTreeNode_filters_iff (ho : Owned L T.shape) (hp : p ∈ T.nodes)
    (hn : NodeInv T p) (hne : T.records p ≠ []) :
    (∃ T', reclaimSpecialRecTreeNode L ofa p T = some T' ∧ Filtered ofa p T T') ↔
      CompactOk ofa T p := by
  rw [← compactNode_filters_iff ho hp hn hne]
  obtain ⟨older, hb⟩ := hn.blocks_eq
  have hq : T.tailheads (T.recTreeNodes p).listHead = (T.recTreeNodes p).recModEntry :: older := hb
  have hnot : ¬ ((T.recTreeNodes p).memRecIdx = 0 ∧ older = []) := by
    rintro ⟨hidx, rfl⟩
    refine hne ?_
    rw [records, hb, hidx]
    rfl
  rw [Filters]
  simp only [reclaimSpecialRecTreeNode, hq, if_neg hnot]

end RecTree

/-- Two files are mapped; `n` records of the first and then `m` of the second are
made on one page, and the second file is unmapped. -/
def halfDead (n m : ℕ) : List Call := openAndMap 3 1 100 0x10000 0x1000 ++
  openAndMap 4 2 200 0x20000 0x1000 ++
  (List.range n).map (fun i => .memcpy (0x500000 + 8 * i) 0x10000 8) ++
  (List.range m).map (fun i => .memcpy (0x500000 + 8 * (n + i)) 0x20000 8) ++ [.munmap 0x20000]

/-- A node of two blocks whose first two records are alive, with three records in
the newer block. -/
theorem reclaimSpecialRecTreeNode_filters_iff_halfDead : ∃ s, plainRun (halfDead 2 39) = some s ∧
    ∃ p ∈ s.tree.nodes, RecTree.CompactOk s.maps.openFileArray s.tree p ∧
      ∃ T', s.tree.reclaimSpecialRecTreeNode plainLibc s.maps.openFileArray p = some T' ∧
        RecTree.Filtered s.maps.openFileArray p s.tree T' := by
  have hrun : (plainRun (halfDead 2 39)).any fun s => s.tree.nodes.any fun p =>
      decide (RecTree.NodeInv s.tree p ∧ s.tree.records p ≠ [] ∧
        RecTree.CompactOk s.maps.openFileArray s.tree p) := by
    decide +kernel
  obtain ⟨s, hs, hany⟩ := (Option.any_eq_true _ _).1 hrun
  obtain ⟨p, hp, hall⟩ := List.any_eq_true.1 hany
  obtain ⟨hn, hne, hok⟩ := of_decide_eq_true hall
  have howned := reachable_owned (reachable_plainRun hs)
  exact ⟨s, hs, p, hp, hok,
    (RecTree.reclaimSpecialRecTreeNode_filters_iff howned hp hn hne).2 hok⟩

/-- A live record followed by a dead one: the dead one stays. -/
theorem halfDead_not_filtered : ∃ s, plainRun (halfDead 1 1) = some s ∧ Reachable plainEnv s ∧
    ∃ p ∈ s.tree.nodes, RecTree.NodeInv s.tree p ∧
      ∃ T', s.tree.reclaimSpecialRecTreeNode plainLibc s.maps.openFileArray p = some T' ∧
        T'.records p = s.tree.records p ∧
        (s.tree.records p).filter (RecTree.isLive s.maps.openFileArray) ≠ s.tree.records p := by
  have hrun : (plainRun (halfDead 1 1)).any fun s => s.tree.nodes.any fun p =>
      decide (RecTree.NodeInv s.tree p) &&
        (s.tree.reclaimSpecialRecTreeNode plainLibc s.maps.openFileArray p).any fun T' =>
          decide (T'.records p = s.tree.records p ∧
            (s.tree.records p).filter (RecTree.isLive s.maps.openFileArray) ≠
              s.tree.records p) := by
    decide +kernel
  obtain ⟨s, hs, hany⟩ := (Option.any_eq_true _ _).1 hrun
  obtain ⟨p, hp, hall⟩ := List.any_eq_true.1 hany
  obtain ⟨hn, hafter⟩ := Bool.and_eq_true_iff.1 hall
  obtain ⟨T', hT', heq⟩ := (Option.any_eq_true _ _).1 hafter
  obtain ⟨hsame, hne⟩ := of_decide_eq_true heq
  exact ⟨s, hs, reachable_plainRun hs, p, hp, of_decide_eq_true hn, T', hT', hsame, hne⟩

end Cidl
