import Cidl.Base.Intervals

/-!
# Copies of traced memory in the baseline build

`ts_memcpy_traced` takes the records that begin from `src` to `src+n`, both
ends included, one after the other out of the tree and inserts a copy of each.
The length of a copy is counted from `src`, not from where the record begins, so
that every copy but that of a record at `src` is too long; and a record at
`src+n` is none of those that are copied.

`moveRecs_spec` says what the loop does in any tree of disjoint records, and
`tsMemcpyTraced_moves_iff` when this is what a copy should do.
-/

namespace Cidl.Base

open SearchTree

/-- The record that the loop inserts for `b`. -/
def shifted (dest src n : ℕ) (b : TreeRec) : MemRec where
  fileOffset := b.fileOffset
  fileName := b.fileName
  startMemory := dest + (b.startMemory - src)
  tailMemory := wadd (dest + (b.startMemory - src)) (min b.tailMemory (src + n) - src)

/-- The record of what was copied from the range of `b`. -/
def moved (dest src n : ℕ) (b : TreeRec) : MemRec where
  fileOffset := b.fileOffset
  fileName := b.fileName
  startMemory := dest + (b.startMemory - src)
  tailMemory := dest + (b.startMemory - src) + (min b.tailMemory (src + n) - b.startMemory)

/-- The records that begin in the source have moved to the destination, and
nothing else has changed outside it. -/
structure MovesExactly (dest src n : ℕ) (t t' : BinaryTree TreeRec) (created : List MemRec) :
    Prop where
  gone : ∀ b ∈ inorder t, src ≤ b.startMemory → b.startMemory < src + n → b ∉ inorder t'
  arrived : ∀ b ∈ inorder t, src ≤ b.startMemory → b.startMemory < src + n →
    moved dest src n b ∈ created
  inside : ∀ r ∈ created, r.tailMemory ≤ dest + n
  /-- No record of the call has removed another one. -/
  kept : ∀ r ∈ created, ∃ b ∈ inorder t', b.toMemRec = r
  others : ∀ b ∈ inorder t, ¬ (src ≤ b.startMemory ∧ b.startMemory < src + n) →
    ¬ Intersects dest (dest + n) b → b ∈ inorder t'

/-! ## The search -/

theorem overlapRecBegBigger_eq {start tail : ℕ} (h : start ≤ tail) :
    overlapRecBegBigger start tail = between startKey start tail := by
  funext b
  unfold overlapRecBegBigger between
  split
  · rfl
  · split
    · rename_i hlt
      exact (if_pos hlt.2).symm
    · rename_i hge hlt
      refine (if_neg fun hb => hlt ⟨?_, hb⟩).symm
      exact Nat.lt_of_le_of_lt h hb

/-- A search for a range finds the record nearest to the root of those that begin in it. -/
theorem tfind_overlapRecBegBigger {t : BinaryTree TreeRec} (ht : Sorted startKey t)
    {start tail : ℕ} (h : start ≤ tail) : tfind (overlapRecBegBigger start tail) t =
      topmost (fun x : TreeRec => start ≤ x.startMemory ∧ x.startMemory ≤ tail) t := by
  rw [overlapRecBegBigger_eq h]
  exact tfind_eq_topmost (ht.monotone_between start tail) fun x _ => between_eq

section

variable {L : TreeLib TreeRec} {inner fuel dest src n : ℕ} {t t' : BinaryTree TreeRec}
  {created : List MemRec}

/-! ## One round of the loop -/

theorem moveRecs_none (hs : src + n < wordSize)
    (hnone : ∀ x ∈ inorder t, ¬ (src ≤ x.startMemory ∧ x.startMemory ≤ src + n)) :
    moveRecs L inner dest src n (fuel + 1) t = some (t, []) := by
  rw [moveRecs_succ, wadd_of_lt hs, overlapRecBegBigger_eq (Nat.le_add_right src n)]
  cases hf : tfind (between startKey src (src + n)) t with
  | none => rfl
  | some b =>
    obtain ⟨hb, heq⟩ := tfind_eq_some hf
    exact absurd (between_eq.1 heq) (hnone b hb)

/-- The round that finds `b` inserts `shifted b` into the tree without `b`. -/
theorem moveRecs_some (hs : src + n < wordSize) (hd : dest + n < wordSize)
    (ht : Apart startKey tailKey t) {b : TreeRec}
    (hb : topmost (fun x : TreeRec => src ≤ x.startMemory ∧ x.startMemory ≤ src + n) t = some b) :
    moveRecs L inner dest src n (fuel + 1) t =
      (insertRec L inner (L.tdelete (overlapRecBegBigger src (src + n)) t) b.fileOffset
        (dest + (b.startMemory - src)) b.fileName (min b.tailMemory (src + n) - src)).bind
        fun t₂ => (moveRecs L inner dest src n fuel t₂).map fun r =>
          (r.1, shifted dest src n b :: r.2) := by
  obtain ⟨-, hstart, htail⟩ := topmost_eq_some hb
  have hne := b.accepted.1.1
  have hfits := b.fits
  have h₁ : wsub b.startMemory src = b.startMemory - src := wsub_of_le hstart (by omega)
  have h₂ : wadd dest (b.startMemory - src) = dest + (b.startMemory - src) :=
    wadd_of_lt (by omega)
  have h₃ : wsub (min b.tailMemory (src + n)) src = min b.tailMemory (src + n) - src :=
    wsub_of_le (by omega) (by omega)
  rw [moveRecs_succ, wadd_of_lt hs,
    tfind_overlapRecBegBigger ht.sorted (Nat.le_add_right src n), hb]
  dsimp only
  rw [h₁, h₂, h₃]
  rfl

/-- The tree after a round. -/
theorem moveRecs_round (ht : Apart startKey tailKey t) {b : TreeRec}
    (hb : topmost (fun x : TreeRec => src ≤ x.startMemory ∧ x.startMemory ≤ src + n) t = some b)
    {t₂ : BinaryTree TreeRec}
    (h : insertRec L inner (L.tdelete (overlapRecBegBigger src (src + n)) t) b.fileOffset
      (dest + (b.startMemory - src)) b.fileName (min b.tailMemory (src + n) - src) = some t₂) :
    ∃ new : TreeRec, new.toMemRec = shifted dest src n b ∧ Apart startKey tailKey t₂ ∧
      ∀ x, x ∈ inorder t₂ ↔ x = new ∨
        (x ∈ inorder t ∧ x ≠ b) ∧ ¬ Intersects new.startMemory new.tailMemory x := by
  have hf : tfind (overlapRecBegBigger src (src + n)) t = some b := by
    rw [tfind_overlapRecBegBigger ht.sorted (Nat.le_add_right src n), hb]
  obtain ⟨new, hnew, hapart, hmem⟩ :=
    insertRec_eq_some (ht.of_sublist (L.tdelete_sublist _ t)) h
  refine ⟨new, hnew, hapart, fun x => ?_⟩
  rw [hmem, L.mem_tdelete hf ht.sorted.nodup, hnew]

/-! ## The loop -/

/-- What the loop does, if it ends: every record it creates is the shifted copy
of one that was there or that it had created, nothing is left that begins from
`src` to `src+n`, and what is no longer there was copied or met a new record. -/
structure MoveSpec (dest src n : ℕ) (t t' : BinaryTree TreeRec) (created : List MemRec) :
    Prop where
  source : ∀ r ∈ created, ∃ b : TreeRec, (b ∈ inorder t ∨ b.toMemRec ∈ created) ∧
    src ≤ b.startMemory ∧ b.startMemory ≤ src + n ∧ r = shifted dest src n b
  empty : ∀ x ∈ inorder t', ¬ (src ≤ x.startMemory ∧ x.startMemory ≤ src + n)
  fate : ∀ x ∈ inorder t, x ∈ inorder t' ∨ shifted dest src n x ∈ created ∨
    ∃ r ∈ created, Intersects r.startMemory r.tailMemory x

theorem moveRecs_spec (hs : src + n < wordSize) (hd : dest + n < wordSize)
    (ht : Apart startKey tailKey t)
    (h : moveRecs L inner dest src n fuel t = some (t', created)) :
    MoveSpec dest src n t t' created := by
  induction fuel generalizing t created with
  | zero => cases h
  | succ fuel ih =>
    cases hb : topmost (fun x : TreeRec => src ≤ x.startMemory ∧ x.startMemory ≤ src + n) t with
    | none =>
      have hnone := topmost_eq_none.1 hb
      rw [moveRecs_none hs hnone] at h
      cases h
      exact ⟨fun r hr => absurd hr List.not_mem_nil, hnone, fun x hx => Or.inl hx⟩
    | some b =>
      obtain ⟨hbt, hstart, htail⟩ := topmost_eq_some hb
      rw [moveRecs_some hs hd ht hb] at h
      obtain ⟨t₂, h₂, hrest⟩ := Option.bind_eq_some_iff.1 h
      obtain ⟨⟨t'', rest⟩, hrun, heq⟩ := Option.map_eq_some_iff.1 hrest
      cases heq
      obtain ⟨new, hnew, hapart, hmem⟩ := moveRecs_round ht hb h₂
      obtain ⟨hsource, hempty, hfate⟩ := ih hapart hrun
      refine ⟨fun r hr => ?_, hempty, fun x hx => ?_⟩
      · rcases List.mem_cons.1 hr with rfl | hr
        · exact ⟨b, Or.inl hbt, hstart, htail, rfl⟩
        · obtain ⟨c, hc, h₃, h₄, hrc⟩ := hsource r hr
          refine ⟨c, ?_, h₃, h₄, hrc⟩
          rcases hc with hc | hc
          · rcases (hmem c).1 hc with rfl | hc
            · exact Or.inr (List.mem_cons.2 (Or.inl hnew))
            · exact Or.inl hc.1.1
          · exact Or.inr (List.mem_cons_of_mem _ hc)
      · by_cases hxb : x = b
        · exact Or.inr (Or.inl (List.mem_cons.2 (Or.inl (by rw [hxb]))))
        · by_cases hint : Intersects new.startMemory new.tailMemory x
          · exact Or.inr (Or.inr ⟨_, List.mem_cons_self .., hnew ▸ hint⟩)
          · rcases hfate x ((hmem x).2 (Or.inr ⟨⟨hx, hxb⟩, hint⟩)) with h₃ | h₃ | ⟨r, hr, h₃⟩
            · exact Or.inl h₃
            · exact Or.inr (Or.inl (List.mem_cons_of_mem _ h₃))
            · exact Or.inr (Or.inr ⟨r, List.mem_cons_of_mem _ hr, h₃⟩)

/-- Whatever is found first is copied. -/
theorem shifted_mem_of_topmost (hs : src + n < wordSize) (hd : dest + n < wordSize)
    (ht : Apart startKey tailKey t) {b : TreeRec}
    (hb : topmost (fun x : TreeRec => src ≤ x.startMemory ∧ x.startMemory ≤ src + n) t = some b)
    (h : moveRecs L inner dest src n fuel t = some (t', created)) :
    shifted dest src n b ∈ created ∧ addrLimit < dest + (b.startMemory - src) := by
  cases fuel with
  | zero => cases h
  | succ fuel =>
    rw [moveRecs_some hs hd ht hb] at h
    obtain ⟨t₂, h₂, hrest⟩ := Option.bind_eq_some_iff.1 h
    obtain ⟨r, -, heq⟩ := Option.map_eq_some_iff.1 hrest
    cases heq
    obtain ⟨new, hnew, -, -⟩ := moveRecs_round ht hb h₂
    have haddr : addrLimit < new.startMemory := new.accepted.1.2.1
    rw [hnew] at haddr
    exact ⟨List.mem_cons_self .., haddr⟩

/-! ## When the copy is exact -/

/-- No created record was made from one that begins at the end of the source, and
none from a created one. -/
theorem MovesExactly.source (hn : 0 < n) (hm : MovesExactly dest src n t t' created)
    (hspec : MoveSpec dest src n t t' created) {r : MemRec} (hr : r ∈ created) :
    ∃ b ∈ inorder t, src ≤ b.startMemory ∧ b.startMemory < src + n ∧ r = shifted dest src n b := by
  obtain ⟨b, hb, hstart, htail, heq⟩ := hspec.source r hr
  have hbt : b ∈ inorder t := by
    rcases hb with hb | hb
    · exact hb
    · obtain ⟨b', hb', hrec⟩ := hm.kept _ hb
      refine absurd ⟨?_, ?_⟩ (hspec.empty b' hb')
      · rw [hrec]
        exact hstart
      · rw [hrec]
        exact htail
  refine ⟨b, hbt, hstart, Nat.lt_of_le_of_ne htail fun hend => ?_, heq⟩
  obtain ⟨b', -, hrec⟩ := hm.kept r hr
  have hlt := b'.accepted.1.1
  have hin := hm.inside r hr
  rw [hrec] at hlt
  rw [heq] at hlt hin
  simp only [shifted] at hlt hin
  omega

theorem MovesExactly.start_eq (hn : 0 < n) (ht : Apart startKey tailKey t)
    (hm : MovesExactly dest src n t t' created) (hspec : MoveSpec dest src n t t' created)
    {c : TreeRec} (hc : c ∈ inorder t) (h₁ : src ≤ c.startMemory) (h₂ : c.startMemory < src + n) :
    c.startMemory = src ∧ dest ≠ src + n ∧ addrLimit < dest := by
  have hmem := hm.arrived c hc h₁ h₂
  obtain ⟨b, hb, h₃, -, heq⟩ := hm.source hn hspec hmem
  obtain ⟨b', hb', hrec⟩ := hm.kept _ hmem
  have hbc : b = c := by
    refine ht.sorted.key_inj hb hc ?_
    have hstart := congrArg MemRec.startMemory heq
    simp only [moved, shifted] at hstart
    show b.startMemory = c.startMemory
    omega
  subst hbc
  have htail := congrArg MemRec.tailMemory heq
  have hlt := b'.accepted.1.1
  have haddr := b'.accepted.1.2.1
  have hempty := hspec.empty b' hb'
  have hne := b.accepted.1.1
  have hfits := b'.fits
  rw [hrec] at hlt haddr hempty hfits
  simp only [moved, shifted, wadd, wordSize] at htail hlt haddr hempty hfits
  have hsrc : b.startMemory = src := by omega
  rw [hsrc, Nat.sub_self, Nat.add_zero] at haddr hempty
  exact ⟨hsrc, fun hd => hempty (by omega), haddr⟩

end

/-- The condition under which a copy of traced memory moves the records as it should. -/
def MovesWell (t : BinaryTree TreeRec) (dest src n : ℕ) : Prop :=
  ∀ c ∈ inorder t, src ≤ c.startMemory → c.startMemory ≤ src + n →
    c.startMemory = src ∧ dest ≠ src + n ∧ addrLimit < dest ∨
    c.startMemory = src + n ∧ src + n < dest ∧ dest < c.tailMemory ∧
      ∃ b, topmost (fun x : TreeRec => src ≤ x.startMemory ∧ x.startMemory ≤ src + n) t = some b ∧
        b.startMemory = src

section

variable {L : TreeLib TreeRec} {dest src n : ℕ} {t : BinaryTree TreeRec}

theorem movesWell_of_exact (hn : 0 < n) (hs : src + n < wordSize) (hd : dest + n < wordSize)
    (hdisj : dest + n ≤ src ∨ src + n ≤ dest) (ht : Apart startKey tailKey t) {inner fuel : ℕ}
    {t' : BinaryTree TreeRec} {created : List MemRec}
    (h : moveRecs L inner dest src n fuel t = some (t', created))
    (hm : MovesExactly dest src n t t' created) : MovesWell t dest src n := by
  have hspec := moveRecs_spec hs hd ht h
  intro c hc h₁ h₂
  rcases Nat.lt_or_eq_of_le h₂ with h₂ | h₂
  · exact Or.inl (hm.start_eq hn ht hspec hc h₁ h₂)
  · right
    obtain ⟨b, hb⟩ : ∃ b,
        topmost (fun x : TreeRec => src ≤ x.startMemory ∧ x.startMemory ≤ src + n) t = some b := by
      refine Option.ne_none_iff_exists'.1 fun hnone => ?_
      exact topmost_eq_none.1 hnone c hc ⟨h₁, h₂.le⟩
    obtain ⟨hbt, hstart, -⟩ := topmost_eq_some hb
    have hbsrc : b.startMemory = src := by
      obtain ⟨b', hb', h₃, h₄, heq⟩ :=
        hm.source hn hspec (shifted_mem_of_topmost hs hd ht hb h).1
      have hstart' := congrArg MemRec.startMemory heq
      simp only [shifted] at hstart'
      exact (hm.start_eq hn ht hspec hbt hstart (by omega)).1
    rcases hspec.fate c hc with h₃ | h₃ | ⟨r, hr, h₃⟩
    · exact absurd ⟨h₁, h₂.le⟩ (hspec.empty c h₃)
    · obtain ⟨b', -, h₄, h₅, heq⟩ := hm.source hn hspec h₃
      have hstart' := congrArg MemRec.startMemory heq
      simp only [shifted] at hstart'
      omega
    · obtain ⟨b', hb', h₄, h₅, heq⟩ := hm.source hn hspec hr
      obtain ⟨hb'src, hne, -⟩ := hm.start_eq hn ht hspec hb' h₄ h₅
      obtain ⟨x, -, hrec⟩ := hm.kept r hr
      have hlt := x.accepted.1.1
      rw [hrec] at hlt
      have hin := hm.inside r hr
      rw [intersects_iff hlt] at h₃
      have hrstart : r.startMemory = dest := by
        rw [heq]
        simp only [shifted]
        omega
      rw [hrstart] at h₃
      exact ⟨h₂, by omega, h₃.2, b, hb, hbsrc⟩

theorem exact_of_movesWell (hn : 0 < n) (hs : src + n < wordSize) (hd : dest + n < wordSize)
    (hdisj : dest + n ≤ src ∨ src + n ≤ dest) (ht : Apart startKey tailKey t)
    (hwell : MovesWell t dest src n) {inner fuel : ℕ} (hinner : (inorder t).length < inner)
    (hfuel : 2 ≤ fuel) : ∃ t' created, moveRecs L inner dest src n fuel t = some (t', created) ∧
      MovesExactly dest src n t t' created := by
  obtain ⟨fuel, rfl⟩ := Nat.exists_eq_add_of_le' hfuel
  cases hb : topmost (fun x : TreeRec => src ≤ x.startMemory ∧ x.startMemory ≤ src + n) t with
  | none =>
    have hnone := topmost_eq_none.1 hb
    refine ⟨t, [], moveRecs_none hs hnone, fun b hb h₁ h₂ => ?_, fun b hb h₁ h₂ => ?_, nofun,
      nofun, fun b hb _ _ => hb⟩
    · exact absurd ⟨h₁, h₂.le⟩ (hnone b hb)
    · exact absurd ⟨h₁, h₂.le⟩ (hnone b hb)
  | some b =>
    obtain ⟨hbt, h₁, h₂⟩ := topmost_eq_some hb
    have hbne := b.accepted.1.1
    have hbsrc : b.startMemory = src := by
      rcases hwell b hbt h₁ h₂ with h | ⟨-, -, -, b', hb', h⟩
      · exact h.1
      · rw [hb] at hb'
        cases hb'
        exact h
    obtain ⟨hne, haddr⟩ : dest ≠ src + n ∧ addrLimit < dest := by
      rcases hwell b hbt h₁ h₂ with h | h
      · exact h.2
      · omega
    -- the one record that is copied
    have hlen : min b.tailMemory (src + n) - src ≤ n := by omega
    have hstart : dest + (b.startMemory - src) = dest := by omega
    have htail : wadd dest (min b.tailMemory (src + n) - src) =
        dest + (min b.tailMemory (src + n) - src) := wadd_of_lt (by omega)
    have hacc : assertRec ⟨b.fileOffset, b.fileName, dest + (b.startMemory - src),
        wadd (dest + (b.startMemory - src)) (min b.tailMemory (src + n) - src)⟩ := by
      rw [hstart, htail]
      refine ⟨⟨?_, haddr, ?_⟩, b.accepted.2⟩
      · simp only
        omega
      · simp only
        omega
    obtain ⟨t₂, h₂⟩ := insertRec_isSome (L := L) hacc (Nat.lt_of_le_of_lt
      (L.tdelete_sublist (overlapRecBegBigger src (src + n)) t).length_le hinner)
    obtain ⟨new, hnew, -, hmem⟩ := moveRecs_round ht hb h₂
    have hnewStart : new.startMemory = dest := by rw [hnew]; exact hstart
    have hnewTail : new.tailMemory = dest + (min b.tailMemory (src + n) - src) := by
      rw [hnew, ← htail]
      simp only [shifted, hstart]
    -- nothing else begins in the source, or it meets that record
    have hnone : ∀ x ∈ inorder t₂, ¬ (src ≤ x.startMemory ∧ x.startMemory ≤ src + n) := by
      rintro x hx ⟨h₃, h₄⟩
      rcases (hmem x).1 hx with rfl | ⟨⟨hxt, hxb⟩, hint⟩
      · omega
      · rcases hwell x hxt h₃ h₄ with h | ⟨hxend, hlt, hxtail, -⟩
        · exact hxb (ht.sorted.key_inj hxt hbt (h.1.trans hbsrc.symm))
        · have hle : b.tailMemory ≤ x.startMemory :=
            ht.hi_le hbt hxt (show b.startMemory < x.startMemory by omega)
          refine hint ((intersects_iff new.accepted.1.1 x).2 ⟨?_, ?_⟩)
          · omega
          · omega
    refine ⟨t₂, [shifted dest src n b], ?_, ?_, ?_, ?_, ?_, ?_⟩
    · rw [moveRecs_some hs hd ht hb, h₂, Option.bind_some, moveRecs_none hs hnone]
      rfl
    · intro x _ h₃ h₄ hx
      exact hnone x hx ⟨h₃, h₄.le⟩
    · intro x hx h₃ h₄
      have hxb : x = b := by
        rcases hwell x hx h₃ h₄.le with h | h
        · exact ht.sorted.key_inj hx hbt (h.1.trans hbsrc.symm)
        · omega
      subst hxb
      refine List.mem_singleton.2 ?_
      simp only [moved, shifted, hbsrc, Nat.sub_self, Nat.add_zero, htail]
    · intro r hr
      rw [List.mem_singleton.1 hr, ← hnew, hnewTail]
      omega
    · intro r hr
      exact ⟨new, (hmem new).2 (Or.inl rfl), (List.mem_singleton.1 hr).symm ▸ hnew⟩
    · intro x hx hrange hint
      refine (hmem x).2 (Or.inr ⟨⟨hx, fun hxb => hrange ?_⟩, fun h => hint ?_⟩)
      · rw [hxb, hbsrc]
        omega
      · obtain ⟨a, h₃, h₄, h₅, h₆⟩ := h
        exact ⟨a, h₃, h₄, by omega, by omega⟩

/-- A copy of traced memory moves the records exactly if and only if the source
has no record but one at its very beginning, or besides that one a record at its
very end which the new record takes out. -/
theorem tsMemcpyTraced_moves_iff (L : TreeLib TreeRec) (ht : IntervalSet t) (hn : 0 < n)
    (hs : src + n < wordSize) (hd : dest + n < wordSize)
    (hdisj : dest + n ≤ src ∨ src + n ≤ dest) :
    (∃ fuel t' created, tsMemcpyTraced L fuel t dest src n = some (t', created) ∧
      MovesExactly dest src n t t' created) ↔ MovesWell t dest src n := by
  have hapart := intervalSet_iff.1 ht
  constructor
  · rintro ⟨fuel, t', created, h, hm⟩
    rw [tsMemcpyTraced_eq] at h
    exact movesWell_of_exact hn hs hd hdisj hapart h hm
  · intro hwell
    have hinner : (inorder t).length < (inorder t).length + 2 := by omega
    have hfuel : 2 ≤ (inorder t).length + 2 := by omega
    obtain ⟨t', created, h⟩ :=
      exact_of_movesWell (L := L) hn hs hd hdisj hapart hwell hinner hfuel
    exact ⟨_, t', created, tsMemcpyTraced_eq.trans h.1, h.2⟩

end

/-- The third of the records has the source to itself. -/
theorem tsMemcpyTraced_moves_third : ∃ fuel t' created,
    tsMemcpyTraced unbalanced fuel threeRecords 0x7000000000 0x6000000100 16 = some (t', created) ∧
      MovesExactly 0x7000000000 0x6000000100 16 threeRecords t' created := by
  have hsource : ∀ c ∈ inorder threeRecords, 0x6000000100 ≤ c.startMemory →
      c.startMemory ≤ 0x6000000100 + 16 → c.startMemory = 0x6000000100 ∧
        0x7000000000 ≠ 0x6000000100 + 16 ∧ addrLimit < 0x7000000000 := by
    decide
  exact (tsMemcpyTraced_moves_iff unbalanced intervalSet_threeRecords (by decide) (by decide)
    (by decide) (by decide)).2 fun c hc h₁ h₂ => Or.inl (hsource c hc h₁ h₂)

/-- Of the first two, which touch, the second one is found first, at the root, and
its copy is sixteen bytes too long. -/
theorem tsMemcpyTraced_tooLong : ¬ ∃ fuel t' created,
    tsMemcpyTraced unbalanced fuel threeRecords 0x7000000000 0x6000000000 32 = some (t', created) ∧
      MovesExactly 0x7000000000 0x6000000000 32 threeRecords t' created := by
  rintro ⟨fuel, t', created, h, hm⟩
  rw [tsMemcpyTraced_eq] at h
  have hwell := movesWell_of_exact (by decide) (by decide) (by decide) (by decide)
    (intervalSet_iff.1 intervalSet_threeRecords) h hm
  rcases hwell (sixteen 0x6000000010 (by decide)) (by decide) (by decide) (by decide) with h | h
  · exact absurd h.1 (by decide)
  · exact absurd h.1 (by decide)

end Cidl.Base
