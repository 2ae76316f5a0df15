import Cidl.Model.Accesses
import Cidl.Records.CopyLoop
import Cidl.Writes.Visits

/-!
# The slots that the write scanners read

The loop that skips the records below an address reads a slot before it tests
whether the block has one there.  So it reads one slot too many exactly when it
skips all records of a block (`skipReads_lt_iff`).  Which blocks these are can be
read off the records of the buffer, as the records before a block tell where a scan
has its frontier when it comes to it (`doTsWriteAccesses_inside_iff`,
`fwriteAccesses_inside_iff`).
-/

namespace Cidl

open SearchTree RecTree

variable {cmp : Comparator} {M : FileMaps} {mem : ℕ → UInt8} {T : RecTree} {L : Libc}
  {stopAtTail : Bool} {skipTo : Option ℕ} {page node tail arr buf length : ℕ}

/-! ## One block -/

theorem skipReads_lt_iff (T : RecTree) (page arr bound i n : ℕ) :
    (∀ j ∈ skipReads T page arr bound i n, j < i + n) ↔
      ∃ j, i ≤ j ∧ j < i + n ∧ bound ≤ getAddr page (T.slot arr j).pageOffset := by
  induction n generalizing i with
  | zero =>
    rw [skipReads, List.forall_mem_singleton]
    constructor
    · intro h
      exact absurd h (Nat.lt_irrefl _)
    · rintro ⟨j, hi, hj, -⟩
      omega
  | succ n ih =>
    rw [skipReads]
    split
    · rename_i hbelow
      rw [List.forall_mem_cons, show i + (n + 1) = i + 1 + n by omega, ih]
      constructor
      · rintro ⟨-, j, hi, hj, haddr⟩
        exact ⟨j, by omega, hj, haddr⟩
      · rintro ⟨j, hi, hj, haddr⟩
        have hne : j ≠ i := by
          rintro rfl
          omega
        exact ⟨by omega, j, by omega, hj, haddr⟩
    · rename_i hbehind
      rw [List.forall_mem_singleton]
      exact iff_of_true (by omega) ⟨i, Nat.le_refl i, by omega, Nat.not_lt.1 hbehind⟩

/-- The loop behind it keeps to the slots it is given. -/
theorem scanReads_subset {l : List ℕ} {s : Scan} {j : ℕ}
    (hj : j ∈ scanReads cmp M mem stopAtTail T tail page arr l s) : j ∈ l := by
  induction l generalizing s with
  | nil => exact hj
  | cons i rest ih =>
    rw [scanReads] at hj
    rcases List.mem_cons.1 hj with rfl | hj
    · exact List.mem_cons_self ..
    · refine List.mem_cons_of_mem _ ?_
      split at hj
      · exact ih hj
      · split at hj
        · cases hj
        · exact ih hj

/-- A block is read inside its limit exactly when some valid record of it is not
skipped. -/
theorem blockAccesses_inside_iff {e : ℕ} {s : Scan} (hlimit : scanLimit T node e ≤ memRecPerEntry) :
    (∀ a ∈ blockAccesses cmp M mem stopAtTail skipTo T tail page node e s, a.Inside) ↔
      ∃ r ∈ T.blockRecs e (scanLimit T node e),
        skipTo.getD s.diffPos ≤ getAddr page r.pageOffset := by
  have hskip := skipReads_lt_iff T page (T.recBlockEntries e).recArr (skipTo.getD s.diffPos) 0
    (scanLimit T node e)
  rw [Nat.zero_add] at hskip
  have hinside : ∀ j : ℕ, Access.Inside ⟨e, j, scanLimit T node e⟩ ↔
      j < scanLimit T node e := by
    intro j
    simp only [Access.Inside]
    omega
  have hrecs : (∃ r ∈ T.blockRecs e (scanLimit T node e),
      skipTo.getD s.diffPos ≤ getAddr page r.pageOffset) ↔ ∃ j : ℕ, j < scanLimit T node e ∧
        skipTo.getD s.diffPos ≤ getAddr page
          (T.slot (T.recBlockEntries e).recArr j).pageOffset := by
    simp only [blockRecs, List.mem_map, List.mem_range]
    constructor
    · rintro ⟨_, ⟨j, hj, rfl⟩, hle⟩
      exact ⟨j, hj, hle⟩
    · rintro ⟨j, hj, hle⟩
      exact ⟨_, ⟨j, hj, rfl⟩, hle⟩
  simp only [blockAccesses, List.forall_mem_map, hinside, List.forall_mem_append, hskip,
    Nat.zero_le, true_and]
  rw [hrecs]
  refine and_iff_left fun j hj => ?_
  have hj := List.mem_range'_1.1 (scanReads_subset hj)
  omega

theorem scanLimit_le (hrep : Rep L T) (hp : T.findNode page = some node) (e : ℕ) :
    scanLimit T node e ≤ memRecPerEntry := by
  have := (hrep.node node (mem_nodes_of_findNode hp)).idx_le
  unfold scanLimit
  split <;> omega

/-! ## One page -/

theorem pageAccesses_inside_iff (hrep : Rep L T) {pageEnd : ℤ} {s : Scan} :
    (∀ a ∈ pageAccesses cmp M mem stopAtTail skipTo pageEnd T tail page s, a.Inside) ↔
      (s.diffPos ≤ getAddr page pageEnd → ∀ p ∈ T.findNode page,
        ∀ older e newer, T.oldestFirst p = older ++ e :: newer →
          ∃ r ∈ T.blockRecs e (scanLimit T p e),
            skipTo.getD
                (older.foldl (scanBlock cmp M mem stopAtTail skipTo T tail page p) s).diffPos ≤
              getAddr page r.pageOffset) := by
  unfold pageAccesses
  split
  · rename_i hpassed
    exact iff_of_true (fun a ha => absurd ha List.not_mem_nil)
      fun h => absurd hpassed (Nat.not_lt.2 h)
  · rename_i hvisited
    simp only [Nat.not_lt.1 hvisited, true_imp_iff]
    cases hp : T.findNode page with
    | none =>
      exact iff_of_true (fun a ha => absurd ha List.not_mem_nil)
        fun p h => absurd h (Option.not_mem_none p)
    | some p =>
      simp only [Option.mem_some_iff, forall_eq', forall_mem_runLog, meets_total_iff]
      exact forall₄_congr fun older e newer _ => blockAccesses_inside_iff (scanLimit_le hrep hp e)

/-- Where a pass over some records leaves `diffPos`. -/
theorem foldl_visit_diffPos (s : Scan) (l : List (ℕ × MemRec)) :
    (l.foldl (visit cmp M mem tail false 0) s).diffPos =
      (writeExtents cmp M mem tail).frontier s.diffPos l := by
  rw [foldl_visit_eq cmp false mem tail (fun h => nomatch h) fun _ _ _ _ _ => Nat.zero_le _,
    Nat.zero_max, foldl_pass_diffPos rfl]

/-! ## `do_ts_write` -/

/-- Every block that `do_ts_write` comes to has a record at or behind where the
records before it leave the frontier: those of the pages before, as long as the
frontier is not behind the page, and those of the older blocks. -/
def WriteStops (cmp : Comparator) (M : FileMaps) (mem : ℕ → UInt8) (T : RecTree)
    (buf length : ℕ) : Prop :=
  let X := writeExtents cmp M mem (wadd buf length)
  ∀ pages page later, bufPages buf length = pages ++ page :: later →
    X.frontier buf (pages.flatMap (pageItems T)) ≤ getAddr page 4095 →
      ∀ p ∈ T.findNode page, ∀ older e newer, T.oldestFirst p = older ++ e :: newer →
        ∃ r ∈ T.blockRecs e (scanLimit T p e),
          X.frontier (X.frontier buf (pages.flatMap (pageItems T))) (blockItems T page p older) ≤
            getAddr page r.pageOffset

theorem foldl_writePage_diffPos (hrep : Rep L T) {pages : List ℕ}
    (hfits : ∀ page ∈ pages, (page + 1) * pageSize ≤ wordSize) (s : Scan) :
    (pages.foldl (scanPage cmp M mem false none 4095 T buf length tail) s).diffPos =
      (writeExtents cmp M mem tail).frontier s.diffPos (pages.flatMap (pageItems T)) := by
  induction pages generalizing s with
  | nil => rfl
  | cons page pages ih =>
    obtain ⟨hpage, hpages⟩ := List.forall_mem_cons.1 hfits
    rw [List.foldl_cons, ih hpages, (doTsWrite_page cmp hrep hpage).2, List.flatMap_cons,
      Extents.frontier_append]

theorem doTsWriteAccesses_inside_iff (hrep : Rep L T) :
    (∀ a ∈ doTsWriteAccesses cmp M mem T buf length, a.Inside) ↔
      WriteStops cmp M mem T buf length := by
  rw [doTsWriteAccesses, scanAccesses, forall_mem_runLog, meets_total_iff, WriteStops]
  refine forall₄_congr fun pages page later hsplit => ?_
  have hmem : ∀ q ∈ pages ++ page :: later, (q + 1) * pageSize ≤ wordSize :=
    fun q hq => fits_of_mem_bufPages (hsplit ▸ hq)
  have hfits := hmem page (List.mem_append_right _ (List.mem_cons_self ..))
  rw [pageAccesses_inside_iff hrep,
    foldl_writePage_diffPos hrep fun q hq => hmem q (List.mem_append_left _ hq)]
  refine imp_congr_right fun _ => forall₂_congr fun p hp => ?_
  have hpn := mem_nodes_of_findNode hp
  refine forall₄_congr fun older e newer hblocks => ?_
  have hasc : ∀ f ∈ older, (T.blockRecs f (scanLimit T p f)).Pairwise fun a b =>
      getAddr page a.pageOffset < getAddr page b.pageOffset := by
    intro f hf
    refine blockRecs_ascending (hrep.node p hpn) hfits (hrep.owned.nodup_blocks hpn) ?_
    have hmem : f ∈ T.oldestFirst p := hblocks ▸ List.mem_append_left _ hf
    exact List.mem_reverse.1 hmem
  rw [Option.getD_none, foldl_scanBlock hasc, Option.getD_none, foldl_visit_diffPos,
    foldl_writePage_diffPos hrep fun q hq => hmem q (List.mem_append_left _ hq)]
  rfl

/-! ## `ts_fwrite` -/

/-- Where the scan in `ts_fwrite` has its frontier behind some pages: it passes over a
page whose first byte lies below it, and over records outside of the buffer. -/
def fwriteFrontier (X : Extents (ℕ × MemRec)) (T : RecTree) (buf tail : ℕ) (pages : List ℕ) : ℕ :=
  pages.foldl (fun d page => if getAddr page 0 < d then d else
    X.frontier d ((pageItems T page).filter fun x => buf ≤ X.start x ∧ X.start x ≤ tail)) 0

/-- Every block of a page that `ts_fwrite` does not pass over has a record at or
behind `buf`. -/
def FwriteStops (cmp : Comparator) (M : FileMaps) (mem : ℕ → UInt8) (T : RecTree)
    (buf length : ℕ) : Prop :=
  let tail := wadd buf length
  ∀ pages page later, bufPages buf length = pages ++ page :: later →
    fwriteFrontier (writeExtents cmp M mem tail) T buf tail pages ≤ getAddr page 0 →
      ∀ p ∈ T.findNode page, ∀ e ∈ T.blocks p,
        ∃ r ∈ T.blockRecs e (scanLimit T p e), buf ≤ getAddr page r.pageOffset

/-- The scan in `ts_fwrite` compares the records in the buffer at or behind `diffPos`. -/
theorem foldl_visit_filter (s : Scan) (l : List (ℕ × MemRec)) :
    (l.foldl (visit cmp M mem tail true buf) s).diffPos =
      (writeExtents cmp M mem tail).frontier s.diffPos (l.filter fun x =>
        buf ≤ (writeExtents cmp M mem tail).start x ∧
          (writeExtents cmp M mem tail).start x ≤ tail) := by
  induction l generalizing s with
  | nil => rfl
  | cons x l ih =>
    rw [List.foldl_cons, ih, List.filter_cons]
    by_cases hin : buf ≤ (writeExtents cmp M mem tail).start x ∧
        (writeExtents cmp M mem tail).start x ≤ tail
    · rw [if_pos (decide_eq_true hin), Extents.frontier]
      split
      · rename_i hbelow
        rw [visit_skip (Or.inr (Or.inl hbelow))]
      · rename_i hbelow
        rw [visit_pass, Scan.pass_diffPos]
        rintro (hlt | hlt | ⟨-, hlt⟩) <;> omega
    · rw [if_neg (by simpa using hin), visit_skip]
      rcases not_and_or.1 hin with hlt | hlt
      · exact Or.inl (Nat.not_le.1 hlt)
      · exact Or.inr (Or.inr ⟨rfl, Nat.not_le.1 hlt⟩)

theorem fwritePage_diffPos (hrep : Rep L T) (hfits : (page + 1) * pageSize ≤ wordSize) (s : Scan) :
    (scanPage cmp M mem true (some buf) 0 T buf length tail s page).diffPos =
      if getAddr page 0 < s.diffPos then s.diffPos
      else (writeExtents cmp M mem tail).frontier s.diffPos ((pageItems T page).filter fun x =>
        buf ≤ (writeExtents cmp M mem tail).start x ∧
          (writeExtents cmp M mem tail).start x ≤ tail) := by
  by_cases hskip : getAddr page 0 < s.diffPos
  · rw [scanPage, if_pos hskip, if_pos hskip]
  · rw [if_neg hskip, scanPage_eq cmp hrep hfits hskip]
    cases hp : T.findNode page with
    | none =>
      have hnil : pageItems T page = [] := by rw [pageItems, hp]
      rw [hnil]
      rfl
    | some p => exact foldl_visit_filter s _

theorem foldl_fwritePage_diffPos (hrep : Rep L T) {pages : List ℕ}
    (hfits : ∀ page ∈ pages, (page + 1) * pageSize ≤ wordSize) :
    (pages.foldl (scanPage cmp M mem true (some buf) 0 T buf length tail) (.start 0)).diffPos =
      fwriteFrontier (writeExtents cmp M mem tail) T buf tail pages := by
  induction pages using List.reverseRecOn with
  | nil => rfl
  | append_singleton pages page ih =>
    have hpage := hfits page (List.mem_append_right _ (List.mem_singleton_self page))
    have hpages := fun q hq => hfits q (List.mem_append_left _ hq)
    rw [List.foldl_append, List.foldl_cons, List.foldl_nil,
      fwritePage_diffPos hrep hpage, ih hpages, fwriteFrontier,
      fwriteFrontier, List.foldl_append, List.foldl_cons, List.foldl_nil]

theorem fwriteAccesses_inside_iff (hrep : Rep L T) :
    (∀ a ∈ fwriteAccesses cmp M mem T buf length, a.Inside) ↔
      FwriteStops cmp M mem T buf length := by
  rw [fwriteAccesses, scanAccesses, forall_mem_runLog, meets_total_iff, FwriteStops]
  refine forall₄_congr fun pages page later hsplit => ?_
  have hmem : ∀ q ∈ pages ++ page :: later, (q + 1) * pageSize ≤ wordSize :=
    fun q hq => fits_of_mem_bufPages (hsplit ▸ hq)
  rw [pageAccesses_inside_iff hrep,
    foldl_fwritePage_diffPos hrep fun q hq => hmem q (List.mem_append_left _ hq)]
  refine imp_congr_right fun _ => forall₂_congr fun p hp => ?_
  constructor
  · intro h e he
    obtain ⟨older, newer, hblocks⟩ := List.append_of_mem (List.mem_reverse.2 he)
    exact h older e newer hblocks
  · intro h older e newer hblocks
    refine h e (List.mem_reverse.1 ?_)
    rw [show (T.blocks p).reverse = _ from hblocks]
    exact List.mem_append_right _ (List.mem_cons_self ..)

end Cidl
