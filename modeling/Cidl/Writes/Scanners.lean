import Cidl.Writes.Credit

/-!
# The two write scanners

The scan in `ts_fwrite` is a copy of `do_ts_write` with three differences: it
begins with `diffPos` at 0 and skips what lies below the buffer, it ends a block
at the first record behind the buffer, and it passes over a page when its first
byte lies below `diffPos`, where `do_ts_write` looks at the last one.  The first
two make no difference as long as no record lies behind the buffer
(`Lockstep`).  The third does on a page in the middle of which a match ends
(`Bridged`): `ts_fwrite` passes over it, `do_ts_write` does not.
`scanners_agree_iff` says when the results are the same all the same.
-/

namespace Cidl

open SearchTree RecTree

/-- What a scan passes to `cmpWrite` and adds to the counters is the same. -/
structure SameResult (s t : Scan) : Prop where
  passed : s.passed = t.passed
  sameSize : s.sameSize = t.sameSize
  metadataItem : s.metadataItem = t.metadataItem
  notFoundSize : s.notFoundSize = t.notFoundSize

/-- The same but for the count of what is not found, with `diffPos` at `d` for
`do_ts_write`, and for `ts_fwrite` there too or, as long as no comparison has moved
it, at its beginning. -/
structure Lockstep (buf d : ℕ) (s t : Scan) : Prop where
  passed : s.passed = t.passed
  sameSize : s.sameSize = t.sameSize
  metadataItem : s.metadataItem = t.metadataItem
  compared : s.compared = t.compared
  diffPos : s.diffPos = d
  diffPos' : t.diffPos = d ∨ (t.diffPos = 0 ∧ d = buf)

section

variable {cmp : Comparator} {M : FileMaps} {mem : ℕ → UInt8} {tail : ℕ} {T : RecTree} {L : Libc}
  {buf length d page : ℕ} {s t : Scan}

/-! ## Passing records -/

theorem lockstep_pass (h : Lockstep buf d s t) (x : ℕ × MemRec) :
    Lockstep buf (((writeExtents cmp M mem tail).stop x).getD d) (s.pass cmp M mem tail x)
      (t.pass cmp M mem tail x) := by
  unfold Scan.pass
  cases hs : (writeExtents cmp M mem tail).stop x with
  | none =>
    simp only [Option.getD_none]
    exact ⟨by rw [h.passed], h.sameSize, h.metadataItem, h.compared, h.diffPos, h.diffPos'⟩
  | some e =>
    simp only [Option.getD_some]
    exact ⟨by rw [h.passed], by rw [h.sameSize], by rw [h.metadataItem], by rw [h.compared], rfl,
      Or.inl rfl⟩

/-- Ascending records up to `tail`: what the one scan takes, the other one visits.
What lies below the buffer matters only until `diffPos` has moved. -/
theorem lockstep_run {l : List (ℕ × MemRec)}
    (hasc : l.Pairwise fun x y =>
      (writeExtents cmp M mem tail).start x < (writeExtents cmp M mem tail).start y)
    (hl : ∀ x ∈ l, (writeExtents cmp M mem tail).start x ≤ tail)
    (hlow : t.diffPos = d → ∀ x ∈ l, buf ≤ (writeExtents cmp M mem tail).start x)
    (h : Lockstep buf d s t) :
    Lockstep buf ((writeExtents cmp M mem tail).frontier d l)
      (((writeExtents cmp M mem tail).taken d l).foldl (Scan.pass cmp M mem tail) s)
      (l.foldl (visit cmp M mem tail true buf) t) := by
  induction l generalizing s t d with
  | nil => exact h
  | cons x l ih =>
    obtain ⟨hfirst, hrest⟩ := List.pairwise_cons.1 hasc
    have hl' : ∀ y ∈ l, (writeExtents cmp M mem tail).start y ≤ tail :=
      fun y hy => hl y (List.mem_cons_of_mem _ hy)
    rw [Extents.taken, Extents.frontier, List.foldl_cons]
    split
    · rename_i hx
      rw [visit_skip]
      · exact ih hrest hl' (fun heq y hy => hlow heq y (List.mem_cons_of_mem _ hy)) h
      · have := h.diffPos'
        omega
    · rename_i hx
      have hbuf : buf ≤ (writeExtents cmp M mem tail).start x := by
        rcases h.diffPos' with heq | ⟨-, rfl⟩
        · exact hlow heq x (List.mem_cons_self ..)
        · exact Nat.not_lt.1 hx
      have hnot : ¬ (writeExtents cmp M mem tail).start x < t.diffPos := by
        have := h.diffPos'
        omega
      rw [visit_pass, List.foldl_cons]
      · exact ih hrest hl' (fun _ y hy => hbuf.trans (hfirst y hy).le) (lockstep_pass h x)
      · rintro (hlt | hlt | ⟨-, hlt⟩)
        · exact Nat.not_lt.2 hbuf hlt
        · exact hnot hlt
        · exact Nat.not_lt.2 (hl x (List.mem_cons_self ..)) hlt

theorem foldl_pass_passed (cmp : Comparator) (M : FileMaps) (mem : ℕ → UInt8) (tail : ℕ) (s : Scan)
    (l : List (ℕ × MemRec)) :
    (l.foldl (Scan.pass cmp M mem tail) s).passed =
      s.passed ++ l.map fun x => (x.2, (writeExtents cmp M mem tail).start x) := by
  induction l generalizing s with
  | nil => simp
  | cons x l ih =>
    rw [List.foldl_cons, ih]
    unfold Scan.pass
    dsimp only
    cases (writeExtents cmp M mem tail).stop x <;> simp

theorem pass_notFoundSize (s : Scan) (x : ℕ × MemRec) :
    (s.pass cmp M mem tail x).notFoundSize = s.notFoundSize := by
  unfold Scan.pass
  dsimp only
  cases (writeExtents cmp M mem tail).stop x <;> rfl

theorem foldl_visit_notFoundSize {stopAtTail : Bool} {low : ℕ} (s : Scan)
    (l : List (ℕ × MemRec)) :
    (l.foldl (visit cmp M mem tail stopAtTail low) s).notFoundSize = s.notFoundSize := by
  induction l generalizing s with
  | nil => rfl
  | cons x l ih =>
    rw [List.foldl_cons, ih, visit]
    split
    · rfl
    · exact pass_notFoundSize s x

/-! ## One page -/

/-- One page of `do_ts_write`. -/
abbrev writePage (cmp : Comparator) (M : FileMaps) (mem : ℕ → UInt8) (T : RecTree)
    (buf length : ℕ) : Scan → ℕ → Scan :=
  scanPage cmp M mem false none 4095 T buf length (buf + length)

/-- One page of the scan in `ts_fwrite`. -/
abbrev fwritePage (cmp : Comparator) (M : FileMaps) (mem : ℕ → UInt8) (T : RecTree)
    (buf length : ℕ) : Scan → ℕ → Scan :=
  scanPage cmp M mem true (some buf) 0 T buf length (buf + length)

/-- The effect of a page on what is not found, if it is not passed over. -/
def notFoundOn (T : RecTree) (buf length page : ℕ) (count : ℕ) : ℕ :=
  match T.findNode page with
  | none => addInt count (notFoundLen buf length page)
  | some _ => count

theorem scanPage_notFound (cmp : Comparator) (hrep : Rep L T)
    (hw : (page + 1) * pageSize ≤ wordSize) {stopAtTail : Bool} {skipTo : Option ℕ} {pageEnd : ℤ}
    {s : Scan} :
    (scanPage cmp M mem stopAtTail skipTo pageEnd T buf length tail s page).notFoundSize =
      if getAddr page pageEnd < s.diffPos then s.notFoundSize
      else notFoundOn T buf length page s.notFoundSize := by
  split
  · rename_i hskip
    rw [scanPage, if_pos hskip]
  · rename_i hskip
    rw [scanPage_eq cmp hrep hw hskip, notFoundOn]
    cases T.findNode page with
    | none => dsimp only
    | some p => exact foldl_visit_notFoundSize s _

/-- The records of the pages of a buffer begin in it or at its end. -/
def RecordsIn (T : RecTree) (buf length : ℕ) : Prop :=
  ∀ page ∈ bufPages buf length, ∀ p ∈ T.findNode page, ∀ r ∈ T.records p,
    getAddr page r.pageOffset ≤ buf + length

instance (T : RecTree) (buf length : ℕ) : Decidable (RecordsIn T buf length) :=
  inferInstanceAs (Decidable (∀ page ∈ bufPages buf length, ∀ p ∈ T.findNode page,
    ∀ r ∈ T.records p, getAddr page r.pageOffset ≤ buf + length))

theorem RecordsIn.items (h : RecordsIn T buf length) (hpage : page ∈ bufPages buf length)
    {x : ℕ × MemRec} (hx : x ∈ pageItems T page) : getAddr x.1 x.2.pageOffset ≤ buf + length := by
  unfold pageItems at hx
  split at hx
  · cases hx
  · rename_i p hp
    obtain ⟨r, hr, rfl⟩ := List.mem_map.1 hx
    exact h page hpage p hp r hr

theorem lockstep_forget : Lockstep buf d s.forget t.forget ↔ Lockstep buf d s t :=
  ⟨fun ⟨h₁, h₂, h₃, h₄, h₅, h₆⟩ => ⟨h₁, h₂, h₃, h₄, h₅, h₆⟩,
    fun ⟨h₁, h₂, h₃, h₄, h₅, h₆⟩ => ⟨h₁, h₂, h₃, h₄, h₅, h₆⟩⟩

/-- A page with a node that `ts_fwrite` does not pass over. -/
theorem fwritePage_node (cmp : Comparator) (M : FileMaps) (mem : ℕ → UInt8) (hrep : Rep L T)
    (hfits : (page + 1) * pageSize ≤ wordSize) (hskip : ¬ getAddr page 0 < t.diffPos) {p : ℕ}
    (hp : T.findNode page = some p) : fwritePage cmp M mem T buf length t page =
      (pageItems T page).foldl (visit cmp M mem (buf + length) true buf) t := by
  rw [fwritePage, scanPage_eq cmp hrep hfits hskip, hp]
  rfl

/-- A page without one, which has no records. -/
theorem fwritePage_none (cmp : Comparator) (M : FileMaps) (mem : ℕ → UInt8) (buf length : ℕ)
    (hskip : ¬ getAddr page 0 < t.diffPos) (hp : T.findNode page = none) :
    pageItems T page = [] ∧ fwritePage cmp M mem T buf length t page =
      { t with notFoundSize := addInt t.notFoundSize (notFoundLen buf length page) } := by
  rw [pageItems, fwritePage, scanPage, if_neg hskip, hp]
  exact ⟨rfl, rfl⟩

theorem fwritePage_forget (cmp : Comparator) (M : FileMaps) (mem : ℕ → UInt8) (hrep : Rep L T)
    (hfits : (page + 1) * pageSize ≤ wordSize) (hskip : ¬ getAddr page 0 < t.diffPos) :
    (fwritePage cmp M mem T buf length t page).forget =
      (pageItems T page).foldl (visit cmp M mem (buf + length) true buf) t.forget := by
  cases hp : T.findNode page with
  | none =>
    obtain ⟨hnil, hpage⟩ := fwritePage_none cmp M mem buf length hskip hp
    rw [hnil, hpage]
    exact Scan.forget_count t _
  | some p =>
    rw [fwritePage_node cmp M mem hrep hfits hskip hp]
    exact foldl_visit_forget t _

/-- A page that neither scan passes over. -/
theorem lockstep_both (cmp : Comparator) (hrep : Rep L T) (hin : RecordsIn T buf length)
    (hpage : page ∈ bufPages buf length)
    (hskip : ¬ getAddr page 0 < t.diffPos) (hlow : t.diffPos = d → buf ≤ page * pageSize)
    (h : Lockstep buf d s t) :
    Lockstep buf ((writeExtents cmp M mem (buf + length)).frontier d (pageItems T page))
      (writePage cmp M mem T buf length s page)
      (fwritePage cmp M mem T buf length t page) := by
  have hfits := fits_of_mem_bufPages hpage
  obtain ⟨hs, -⟩ := doTsWrite_page (M := M) (s := s) cmp hrep hfits
  have ht : (fwritePage cmp M mem T buf length t page).forget = _ :=
    fwritePage_forget cmp M mem hrep hfits hskip
  rw [← lockstep_forget, hs, ht, h.diffPos]
  exact lockstep_run (pageItems_ascending hrep hfits) (fun x hx => hin.items hpage hx)
    (fun heq x hx => (hlow heq).trans (pageItems_bounds hrep hfits hx).1) (lockstep_forget.2 h)

/-- A page that only `do_ts_write` scans, without a record that it would take. -/
theorem lockstep_bridged (cmp : Comparator) (hrep : Rep L T)
    (hpage : page ∈ bufPages buf length) (hskip : getAddr page 0 < t.diffPos)
    (hbelow : ∀ x ∈ pageItems T page, (writeExtents cmp M mem (buf + length)).start x < d)
    (h : Lockstep buf d s t) :
    Lockstep buf ((writeExtents cmp M mem (buf + length)).frontier d (pageItems T page))
      (writePage cmp M mem T buf length s page)
      (fwritePage cmp M mem T buf length t page) := by
  have hfits := fits_of_mem_bufPages hpage
  obtain ⟨hs, -⟩ := doTsWrite_page (M := M) (s := s) cmp hrep hfits
  have ht : fwritePage cmp M mem T buf length t page = t := by
    rw [fwritePage, scanPage, if_pos hskip]
  obtain ⟨hnil, hfrontier⟩ := Extents.taken_eq_nil hbelow
  rw [h.diffPos, hnil] at hs
  rw [ht, hfrontier, ← lockstep_forget, hs]
  exact lockstep_forget.2 h

/-! ## Where the scans may differ -/

/-- Where `do_ts_write` has its `diffPos` before a page: where the comparisons for
the pages before have left it. -/
def frontierBefore (cmp : Comparator) (M : FileMaps) (mem : ℕ → UInt8) (T : RecTree)
    (buf length page : ℕ) : ℕ :=
  (writeExtents cmp M mem (buf + length)).frontier buf
    ((pagesFrom (addr2PageNum buf) (page - 1)).flatMap (pageItems T))

/-- That is behind the first byte of the page and not behind its last one: a
comparison that began before the page ends on it. -/
def Bridged (cmp : Comparator) (M : FileMaps) (mem : ℕ → UInt8) (T : RecTree)
    (buf length page : ℕ) : Prop :=
  page * pageSize < frontierBefore cmp M mem T buf length page ∧
    frontierBefore cmp M mem T buf length page < (page + 1) * pageSize

instance (cmp : Comparator) (M : FileMaps) (mem : ℕ → UInt8) (T : RecTree) (buf length page : ℕ) :
    Decidable (Bridged cmp M mem T buf length page) := inferInstanceAs (Decidable (_ ∧ _))

/-- No record of the page lies behind the comparison that ends on it. -/
def NothingBehind (cmp : Comparator) (M : FileMaps) (mem : ℕ → UInt8) (T : RecTree)
    (buf length page : ℕ) : Prop :=
  Bridged cmp M mem T buf length page → ∀ p ∈ T.findNode page, ∀ r ∈ T.records p,
    getAddr page r.pageOffset < frontierBefore cmp M mem T buf length page

instance (cmp : Comparator) (M : FileMaps) (mem : ℕ → UInt8) (T : RecTree) (buf length page : ℕ) :
    Decidable (NothingBehind cmp M mem T buf length page) := inferInstanceAs (Decidable (_ → _))

/-- What `do_ts_write` alone counts as not found. -/
def bridgedLen (cmp : Comparator) (M : FileMaps) (mem : ℕ → UInt8) (T : RecTree)
    (buf length page : ℕ) : ℤ :=
  if Bridged cmp M mem T buf length page ∧ T.findNode page = none then notFoundLen buf length page
  else 0

theorem frontierBefore_succ (hpage : addr2PageNum buf < page) :
    frontierBefore cmp M mem T buf length (page + 1) =
      (writeExtents cmp M mem (buf + length)).frontier (frontierBefore cmp M mem T buf length page)
        (pageItems T page) := by
  have hpages : pagesFrom (addr2PageNum buf) page =
      pagesFrom (addr2PageNum buf) (page - 1) ++ [page] := by
    rw [pagesFrom, pagesFrom, show page + 1 - addr2PageNum buf =
      page - 1 + 1 - addr2PageNum buf + 1 by omega, List.range'_concat]
    congr 2
    omega
  rw [frontierBefore, Nat.add_sub_cancel, hpages, List.flatMap_append, Extents.frontier_append,
    List.flatMap_singleton]
  rfl

theorem NothingBehind.items (h : NothingBehind cmp M mem T buf length page)
    (hb : Bridged cmp M mem T buf length page) {x : ℕ × MemRec} (hx : x ∈ pageItems T page) :
    getAddr x.1 x.2.pageOffset < frontierBefore cmp M mem T buf length page := by
  unfold pageItems at hx
  split at hx
  · cases hx
  · rename_i p hp
    obtain ⟨r, hr, rfl⟩ := List.mem_map.1 hx
    exact h hb p hp r hr

/-- One page behind the first: both scans pass over it, or neither does, or a
comparison ends on it. -/
theorem lockstep_page (cmp : Comparator) (hrep : Rep L T) (hin : RecordsIn T buf length)
    (hpage : page ∈ bufPages buf length)
    (hlater : addr2PageNum buf < page) (hok : NothingBehind cmp M mem T buf length page)
    (h : Lockstep buf (frontierBefore cmp M mem T buf length page) s t) :
    Lockstep buf (frontierBefore cmp M mem T buf length (page + 1))
      (writePage cmp M mem T buf length s page)
      (fwritePage cmp M mem T buf length t page) := by
  have hfits := fits_of_mem_bufPages hpage
  have hfirst := getAddr_firstByte hfits
  have hlast := getAddr_lastByte hfits
  have hbuf : buf < page * pageSize := by
    simp only [addr2PageNum, pageSize] at *
    omega
  have hd := h.diffPos'
  rw [frontierBefore_succ hlater]
  by_cases hskip : getAddr page 0 < t.diffPos
  · refine lockstep_bridged cmp hrep hpage hskip (fun x hx => ?_) h
    by_cases hb : Bridged cmp M mem T buf length page
    · exact hok.items hb hx
    · have hbound := (pageItems_bounds hrep hfits hx).2
      have hge : (page + 1) * pageSize ≤ frontierBefore cmp M mem T buf length page := by
        by_contra hlt
        exact hb ⟨by omega, by omega⟩
      exact Nat.lt_of_lt_of_le hbound hge
  · exact lockstep_both cmp hrep hin hpage hskip (fun _ => hbuf.le) h

/-! ## What is not found -/

theorem addInt_sub (a b : ℕ) (x : ℤ) :
    ((addInt a x : ℤ) - addInt b x) % wordSize = ((a : ℤ) - b) % wordSize := by
  simp only [addInt, wordSize]
  omega

theorem addInt_sub' (a b : ℕ) (x : ℤ) :
    ((addInt a x : ℤ) - b) % wordSize = ((a : ℤ) - b + x) % wordSize := by
  simp only [addInt, wordSize]
  omega

/-- The difference of the two counts changes by what only `do_ts_write` counts. -/
theorem notFound_page (cmp : Comparator) (hrep : Rep L T) (hpage : page ∈ bufPages buf length)
    (hlater : addr2PageNum buf < page)
    (h : Lockstep buf (frontierBefore cmp M mem T buf length page) s t) :
    (((writePage cmp M mem T buf length s page).notFoundSize : ℤ) -
        (fwritePage cmp M mem T buf length t page).notFoundSize) %
        wordSize =
      ((s.notFoundSize : ℤ) - t.notFoundSize + bridgedLen cmp M mem T buf length page) %
        wordSize := by
  have hfits := fits_of_mem_bufPages hpage
  have hfirst := getAddr_firstByte hfits
  have hlast := getAddr_lastByte hfits
  have hbuf : buf < page * pageSize := by
    simp only [addr2PageNum, pageSize] at *
    omega
  have hd := h.diffPos'
  have hs := h.diffPos
  rw [writePage, scanPage_notFound cmp hrep hfits]
  by_cases hskip : getAddr page 0 < t.diffPos
  · have ht : fwritePage cmp M mem T buf length t page = t := by
      rw [fwritePage, scanPage, if_pos hskip]
    have hbridged : getAddr page 4095 < s.diffPos ↔ ¬ Bridged cmp M mem T buf length page := by
      simp only [Bridged, pageSize] at *
      omega
    rw [ht]
    by_cases hb : Bridged cmp M mem T buf length page
    · rw [if_neg (hbridged.not.2 (not_not.2 hb)), notFoundOn, bridgedLen]
      cases hp : T.findNode page with
      | none =>
        rw [if_pos ⟨hb, rfl⟩]
        exact addInt_sub' ..
      | some p =>
        rw [if_neg fun hnone => Option.some_ne_none p hnone.2]
        dsimp only
        rw [Int.add_zero]
    · rw [if_pos (hbridged.2 hb), bridgedLen, if_neg fun hnone => hb hnone.1, Int.add_zero]
  · have hnot : ¬ Bridged cmp M mem T buf length page := by
      simp only [Bridged] at *
      omega
    have hscan : ¬ getAddr page 4095 < s.diffPos := by omega
    rw [if_neg hscan, fwritePage, scanPage_notFound cmp hrep hfits, if_neg hskip, bridgedLen,
      if_neg fun hnone => hnot hnone.1, Int.add_zero, notFoundOn, notFoundOn]
    cases T.findNode page with
    | none => exact addInt_sub ..
    | some p => dsimp only

/-! ## All pages -/

/-- The pages of the buffer behind the first one. -/
def laterPages (buf length : ℕ) : List ℕ :=
  pagesFrom (addr2PageNum buf + 1) (addr2PageNum (buf + length))

theorem mem_bufPages_of_later (hw : buf + length < wordSize)
    (hpage : page ∈ laterPages buf length) :
    page ∈ bufPages buf length ∧ addr2PageNum buf < page := by
  rw [laterPages, mem_pagesFrom] at hpage
  rw [bufPages, wadd_of_lt hw, mem_pagesFrom]
  omega

/-- The run over later pages on none of which `ts_fwrite` misses a record. -/
theorem lockstep_pages (cmp : Comparator) (hrep : Rep L T) (hin : RecordsIn T buf length)
    {k n : ℕ}
    (hpages : ∀ page ∈ List.range' k n, page ∈ bufPages buf length ∧ addr2PageNum buf < page)
    (hok : ∀ page ∈ List.range' k n, NothingBehind cmp M mem T buf length page)
    (h : Lockstep buf (frontierBefore cmp M mem T buf length k) s t) :
    Lockstep buf (frontierBefore cmp M mem T buf length (k + n))
        ((List.range' k n).foldl (writePage cmp M mem T buf length) s)
        ((List.range' k n).foldl (fwritePage cmp M mem T buf length) t) ∧
      ((((List.range' k n).foldl (writePage cmp M mem T buf length) s).notFoundSize : ℤ) -
          ((List.range' k n).foldl (fwritePage cmp M mem T buf length) t).notFoundSize) % wordSize =
        ((s.notFoundSize : ℤ) - t.notFoundSize +
          ((List.range' k n).map (bridgedLen cmp M mem T buf length)).sum) % wordSize := by
  induction n generalizing k s t with
  | zero => exact ⟨h, by simp⟩
  | succ n ih =>
    rw [List.range'_succ] at *
    obtain ⟨hpage, hlater⟩ := hpages k (List.mem_cons_self ..)
    have hstep := lockstep_page cmp hrep hin hpage hlater (hok k (List.mem_cons_self ..)) h
    have hcount := notFound_page cmp hrep hpage hlater h
    obtain ⟨hrun, hsum⟩ := ih (fun page hp => hpages page (List.mem_cons_of_mem _ hp))
      (fun page hp => hok page (List.mem_cons_of_mem _ hp)) hstep
    rw [List.foldl_cons, List.foldl_cons, List.map_cons, List.sum_cons]
    refine ⟨by rw [show k + (n + 1) = k + 1 + n by omega]; exact hrun, ?_⟩
    rw [hsum]
    simp only [wordSize] at *
    omega

theorem foldl_visit_passed {stopAtTail : Bool} {low : ℕ} (s : Scan) (l : List (ℕ × MemRec)) :
    ∃ ys, (l.foldl (visit cmp M mem tail stopAtTail low) s).passed = s.passed ++ ys ∧
      ∀ y ∈ ys, ∃ x ∈ l, y.2 = getAddr x.1 x.2.pageOffset := by
  induction l generalizing s with
  | nil => exact ⟨[], by simp, fun y hy => absurd hy List.not_mem_nil⟩
  | cons x l ih =>
    obtain ⟨ys, hys, hon⟩ := ih (visit cmp M mem tail stopAtTail low s x)
    rw [List.foldl_cons, hys, visit]
    split
    · exact ⟨ys, rfl, fun y hy => (hon y hy).imp fun z hz => ⟨List.mem_cons_of_mem _ hz.1, hz.2⟩⟩
    · have hpass := foldl_pass_passed cmp M mem tail s [x]
      rw [List.foldl_cons, List.foldl_nil, List.map_singleton] at hpass
      refine ⟨(x.2, (writeExtents cmp M mem tail).start x) :: ys, by rw [hpass]; simp, ?_⟩
      intro y hy
      rcases List.mem_cons.1 hy with rfl | hy
      · exact ⟨x, List.mem_cons_self .., rfl⟩
      · exact (hon y hy).imp fun z hz => ⟨List.mem_cons_of_mem _ hz.1, hz.2⟩

theorem passed_count (s : Scan) (k : ℕ) : { s with notFoundSize := k }.passed = s.passed := rfl

/-- What a page adds to the records passed to `cmpWrite` lies on the page. -/
theorem scanPage_passed (cmp : Comparator) (hrep : Rep L T)
    (hfits : (page + 1) * pageSize ≤ wordSize) {stopAtTail : Bool} {skipTo : Option ℕ}
    {pageEnd : ℤ} (s : Scan) : ∃ ys,
      (scanPage cmp M mem stopAtTail skipTo pageEnd T buf length tail s page).passed =
        s.passed ++ ys ∧ ∀ y ∈ ys, addr2PageNum y.2 = page := by
  by_cases hskip : getAddr page pageEnd < s.diffPos
  · rw [scanPage, if_pos hskip]
    exact ⟨[], by simp, fun y hy => absurd hy List.not_mem_nil⟩
  · rw [scanPage_eq cmp hrep hfits hskip]
    cases T.findNode page with
    | none =>
      exact ⟨[], (passed_count s _).trans (List.append_nil _).symm, fun y hy =>
        absurd hy List.not_mem_nil⟩
    | some p =>
      obtain ⟨ys, hys, hon⟩ := foldl_visit_passed (M := M)
        s (pageItems T page)
      refine ⟨ys, hys, fun y hy => ?_⟩
      obtain ⟨x, hx, hyx⟩ := hon y hy
      obtain ⟨h₁, h₂⟩ := pageItems_bounds hrep hfits hx
      rw [hyx]
      simp only [addr2PageNum, pageSize] at *
      omega

theorem foldl_scanPage_passed (cmp : Comparator) (hrep : Rep L T) {stopAtTail : Bool}
    {skipTo : Option ℕ} {pageEnd : ℤ} {pages : List ℕ}
    (hfits : ∀ page ∈ pages, (page + 1) * pageSize ≤ wordSize) (s : Scan) : ∃ ys,
      (pages.foldl (scanPage cmp M mem stopAtTail skipTo pageEnd T buf length tail) s).passed =
        s.passed ++ ys ∧ ∀ y ∈ ys, addr2PageNum y.2 ∈ pages := by
  induction pages generalizing s with
  | nil => exact ⟨[], by simp, fun y hy => absurd hy List.not_mem_nil⟩
  | cons page pages ih =>
    obtain ⟨ys, hys, hon⟩ := scanPage_passed (M := M) cmp
      hrep (hfits page (List.mem_cons_self ..)) s
    obtain ⟨zs, hzs, hon'⟩ := ih (fun q hq => hfits q (List.mem_cons_of_mem _ hq))
      (scanPage cmp M mem stopAtTail skipTo pageEnd T buf length tail s page)
    refine ⟨ys ++ zs, by rw [List.foldl_cons, hzs, hys, List.append_assoc], fun y hy => ?_⟩
    rcases List.mem_append.1 hy with hy | hy
    · exact List.mem_cons.2 (Or.inl (hon y hy))
    · exact List.mem_cons_of_mem _ (hon' y hy)

/-- On a page of which `ts_fwrite` misses a record, `do_ts_write` passes one. -/
theorem exists_passed_of_missed (cmp : Comparator) (hrep : Rep L T)
    (hfits : (page + 1) * pageSize ≤ wordSize)
    (hmissed : ¬ NothingBehind cmp M mem T buf length page)
    (h : Lockstep buf (frontierBefore cmp M mem T buf length page) s t) :
    ∃ y ∈ (writePage cmp M mem T buf length s page).passed, addr2PageNum y.2 = page := by
  obtain ⟨hb, hmissed⟩ := Classical.not_imp.1 hmissed
  push Not at hmissed
  obtain ⟨p, hp, r, hr, hge⟩ := hmissed
  obtain ⟨hs, -⟩ := doTsWrite_page (M := M) (s := s) cmp hrep hfits
  have hitem : (page, r) ∈ pageItems T page := by
    rw [pageItems, Option.mem_def.1 hp]
    exact List.mem_map_of_mem hr
  have hne := Extents.taken_ne_nil
    (X := writeExtents cmp M mem (buf + length)) ⟨(page, r), hitem, hge⟩
  obtain ⟨x, hx⟩ := List.exists_mem_of_ne_nil _ hne
  have hpassed : (writePage cmp M mem T buf length s page).passed =
      (writePage cmp M mem T buf length s page).forget.passed := rfl
  rw [hpassed, hs, h.diffPos, foldl_pass_passed]
  refine ⟨_, List.mem_append_right _ (List.mem_map_of_mem hx), ?_⟩
  obtain ⟨h₁, h₂⟩ := pageItems_bounds hrep hfits (Extents.taken_sublist.subset hx)
  simp only [writeExtents, addr2PageNum, pageSize] at *
  omega

/-- When `ts_fwrite` misses a record, the records passed to `cmpWrite` differ. -/
theorem passed_ne_of_missed (cmp : Comparator) (hrep : Rep L T) (hin : RecordsIn T buf length)
    {k n : ℕ}
    (hpages : ∀ page ∈ List.range' k n, page ∈ bufPages buf length ∧ addr2PageNum buf < page)
    (hmissed : ∃ page ∈ List.range' k n, ¬ NothingBehind cmp M mem T buf length page)
    (h : Lockstep buf (frontierBefore cmp M mem T buf length k) s t)
    (hbefore : ∀ y ∈ t.passed, addr2PageNum y.2 < k) :
    ((List.range' k n).foldl (writePage cmp M mem T buf length) s).passed ≠
      ((List.range' k n).foldl (fwritePage cmp M mem T buf length) t).passed := by
  induction n generalizing k s t with
  | zero => obtain ⟨page, hpage, -⟩ := hmissed; cases hpage
  | succ n ih =>
    rw [List.range'_succ] at *
    obtain ⟨hpage, hlater⟩ := hpages k (List.mem_cons_self ..)
    have hfits : ∀ page ∈ k :: List.range' (k + 1) n, (page + 1) * pageSize ≤ wordSize :=
      fun page hp => fits_of_mem_bufPages (hpages page hp).1
    have hrest := fun page hp => hpages page (List.mem_cons_of_mem k hp)
    rw [List.foldl_cons, List.foldl_cons]
    by_cases hk : NothingBehind cmp M mem T buf length k
    · refine ih hrest ?_ (lockstep_page cmp hrep hin hpage hlater hk h) fun y hy => ?_
      · obtain ⟨page, hp, hnot⟩ := hmissed
        rcases List.mem_cons.1 hp with rfl | hp
        · exact absurd hk hnot
        · exact ⟨page, hp, hnot⟩
      · obtain ⟨ys, hys, hon⟩ := scanPage_passed (M := M)
          cmp hrep (hfits k (List.mem_cons_self ..)) t
        rw [hys] at hy
        rcases List.mem_append.1 hy with hy | hy
        · exact Nat.lt_succ_of_lt (hbefore y hy)
        · exact Nat.lt_succ_of_le (hon y hy).le
    · -- `ts_fwrite` passes over this page, so it passes no record of it to `cmpWrite`
      obtain ⟨y, hy, hon⟩ := exists_passed_of_missed cmp hrep (hfits k (List.mem_cons_self ..)) hk h
      have hskip : fwritePage cmp M mem T buf length t k = t := by
        have hb := (Classical.not_imp.1 hk).1.1
        have hd := h.diffPos'
        have hfirst := getAddr_firstByte (hfits k (List.mem_cons_self ..))
        rw [fwritePage, scanPage, if_pos]
        simp only [addr2PageNum, pageSize] at *
        omega
      obtain ⟨ys, hys, -⟩ := foldl_scanPage_passed (M := M)
        cmp hrep (fun page hp => hfits page (List.mem_cons_of_mem _ hp))
        (writePage cmp M mem T buf length s k)
      obtain ⟨zs, hzs, hon'⟩ := foldl_scanPage_passed (M := M)
        cmp hrep (fun page hp => hfits page (List.mem_cons_of_mem _ hp)) t
      rw [hskip]
      intro heq
      rw [hys, hzs] at heq
      rcases List.mem_append.1 (heq ▸ List.mem_append_left ys hy) with hy | hy
      · have := hbefore y hy
        omega
      · have := List.mem_range'_1.1 (hon' y hy)
        omega

theorem notFoundOn_lt {count : ℕ} (h : count < wordSize) :
    notFoundOn T buf length page count < wordSize := by
  unfold notFoundOn
  split
  · simp only [addInt, wordSize]
    omega
  · exact h

/-- The count is an `unsigned long`. -/
theorem foldl_scanPage_notFoundSize_lt (cmp : Comparator) (M : FileMaps) (mem : ℕ → UInt8)
    (hrep : Rep L T) (stopAtTail : Bool) (skipTo : Option ℕ) (pageEnd : ℤ) (buf length tail : ℕ)
    {pages : List ℕ} (hfits : ∀ page ∈ pages, (page + 1) * pageSize ≤ wordSize) {s : Scan}
    (hs : s.notFoundSize < wordSize) :
    (pages.foldl (scanPage cmp M mem stopAtTail skipTo pageEnd T buf length tail) s).notFoundSize <
      wordSize := by
  induction pages generalizing s with
  | nil => exact hs
  | cons page pages ih =>
    rw [List.foldl_cons]
    refine ih (fun q hq => hfits q (List.mem_cons_of_mem _ hq)) ?_
    rw [scanPage_notFound cmp hrep (hfits page (List.mem_cons_self ..))]
    split
    · exact hs
    · exact notFoundOn_lt hs

/-- After the first page, which neither scan passes over. -/
theorem lockstep_first (cmp : Comparator) (hrep : Rep L T) (hw : buf + length < wordSize)
    (hin : RecordsIn T buf length) :
    Lockstep buf (frontierBefore cmp M mem T buf length (addr2PageNum buf + 1))
        (writePage cmp M mem T buf length (.start buf) (addr2PageNum buf))
        (fwritePage cmp M mem T buf length (.start 0) (addr2PageNum buf)) ∧
      (writePage cmp M mem T buf length (.start buf) (addr2PageNum buf)).notFoundSize =
        (fwritePage cmp M mem T buf length (.start 0) (addr2PageNum buf)).notFoundSize := by
  have hpage : addr2PageNum buf ∈ bufPages buf length := by
    rw [bufPages, wadd_of_lt hw, mem_pagesFrom]
    exact ⟨Nat.le_refl _, Nat.div_le_div_right (Nat.le_add_right _ _)⟩
  have hfits := fits_of_mem_bufPages hpage
  have hskip : ¬ getAddr (addr2PageNum buf) 0 < (Scan.start 0).diffPos := Nat.not_lt_zero _
  have hscan : ¬ getAddr (addr2PageNum buf) 4095 < (Scan.start buf).diffPos := by
    rw [getAddr_lastByte hfits, Scan.start]
    simp only [addr2PageNum, pageSize]
    omega
  have hstart : Lockstep buf buf (.start buf) (.start 0) :=
    ⟨rfl, rfl, rfl, rfl, rfl, Or.inr ⟨rfl, rfl⟩⟩
  have hfrontier : frontierBefore cmp M mem T buf length (addr2PageNum buf + 1) =
      (writeExtents cmp M mem (buf + length)).frontier buf (pageItems T (addr2PageNum buf)) := by
    rw [frontierBefore, Nat.add_sub_cancel, pagesFrom, Nat.add_sub_cancel_left, List.range'_one,
      List.flatMap_singleton]
  refine ⟨?_, ?_⟩
  · rw [hfrontier]
    exact lockstep_both cmp hrep hin hpage hskip (fun heq => heq ▸ Nat.zero_le _) hstart
  · rw [writePage, fwritePage, scanPage_notFound cmp hrep hfits, scanPage_notFound cmp hrep hfits,
      if_neg hscan, if_neg hskip]
    rfl

/-! ## The scanners -/

/-- On every page behind the first of the buffer on which a comparison from before
ends, nothing lies behind its end, and the pages without records on which one ends
add up to nothing. -/
def ScannersOk (cmp : Comparator) (M : FileMaps) (mem : ℕ → UInt8) (T : RecTree) (buf length : ℕ) :
    Prop :=
  (∀ page ∈ laterPages buf length, NothingBehind cmp M mem T buf length page) ∧
    ((laterPages buf length).map (bridgedLen cmp M mem T buf length)).sum % wordSize = 0

instance (cmp : Comparator) (M : FileMaps) (mem : ℕ → UInt8) (T : RecTree) (buf length : ℕ) :
    Decidable (ScannersOk cmp M mem T buf length) := inferInstanceAs (Decidable (_ ∧ _))

/-- For a buffer with no record behind it and any routine that compares, the scan in
`ts_fwrite` and `do_ts_write` pass the same records to `cmpWrite` and add the same
to the counters exactly when `ScannersOk` holds. -/
theorem scanners_agree_iff (hrep : Rep L T) (hw : buf + length < wordSize)
    (hin : RecordsIn T buf length) :
    SameResult (doTsWrite cmp M mem T buf length) (fwriteScan cmp M mem T buf length) ↔
      ScannersOk cmp M mem T buf length := by
  have hle : addr2PageNum buf ≤ addr2PageNum (buf + length) :=
    Nat.div_le_div_right (Nat.le_add_right _ _)
  have hpages : bufPages buf length = addr2PageNum buf :: laterPages buf length := by
    rw [bufPages, wadd_of_lt hw, pagesFrom_eq, if_pos hle, laterPages]
  have hlater : ∀ page ∈ laterPages buf length,
      page ∈ bufPages buf length ∧ addr2PageNum buf < page :=
    fun page hpage => mem_bufPages_of_later hw hpage
  obtain ⟨hfirst, hcount⟩ := lockstep_first (M := M) cmp hrep hw hin
  have hfits : ∀ page ∈ bufPages buf length, (page + 1) * pageSize ≤ wordSize :=
    fun page hpage => fits_of_mem_bufPages hpage
  have hltS := foldl_scanPage_notFoundSize_lt cmp M mem hrep false none 4095 buf length
    (buf + length) hfits (s := .start buf) (show 0 < wordSize by decide)
  have hltF := foldl_scanPage_notFoundSize_lt cmp M mem hrep true (some buf) 0 buf length
    (buf + length) hfits (s := .start 0) (show 0 < wordSize by decide)
  rw [doTsWrite, fwriteScan, wadd_of_lt hw]
  rw [hpages, List.foldl_cons] at hltS hltF ⊢
  rw [List.foldl_cons, ScannersOk]
  obtain ⟨n, hn⟩ : ∃ n, laterPages buf length = List.range' (addr2PageNum buf + 1) n := ⟨_, rfl⟩
  rw [hn] at hlater hltS hltF ⊢
  have hbefore : ∀ y ∈ (fwritePage cmp M mem T buf length (.start 0) (addr2PageNum buf)).passed,
      addr2PageNum y.2 < addr2PageNum buf + 1 := by
    obtain ⟨ys, hys, hon⟩ := scanPage_passed (M := M) cmp hrep
      (hfits (addr2PageNum buf) (by rw [hpages]; exact List.mem_cons_self ..)) (.start 0)
    rw [fwritePage, hys]
    exact fun y hy => Nat.lt_succ_of_le (hon y hy).le
  have hrun := fun hok => lockstep_pages cmp hrep hin hlater hok hfirst
  rw [hcount, Int.sub_self, Int.zero_add] at hrun
  constructor
  · intro h
    have hok : ∀ page ∈ List.range' (addr2PageNum buf + 1) n,
        NothingBehind cmp M mem T buf length page := by
      by_contra hmissed
      push Not at hmissed
      exact passed_ne_of_missed cmp hrep hin hlater hmissed hfirst hbefore h.passed
    refine ⟨hok, ?_⟩
    rw [← (hrun hok).2, writePage, fwritePage, h.notFoundSize, Int.sub_self]
    rfl
  · rintro ⟨hok, hsum⟩
    obtain ⟨hlock, hdiff⟩ := hrun hok
    rw [hsum] at hdiff
    refine ⟨hlock.passed, hlock.sameSize, hlock.metadataItem, ?_⟩
    simp only [writePage, fwritePage, wordSize] at hltS hltF hdiff ⊢
    omega

end

/-- A record at the end of a page whose bytes run over to the next one, as far as
`0x501008`, and there a record `behind` the beginning of the page. -/
def overPageEnd (behind : ℕ) : List Call := openAndMap 3 1 100 0x10000 0x1000 ++
  [.memcpy 0x500ff0 0x10000 32, .memcpy (0x501000 + behind) 0x10100 8, .store 0x501008 1]

/-- The second record lies in the part that matches. -/
theorem scanners_agree_iff_overPageEnd : ∃ s, plainRun (overPageEnd 0) = some s ∧
    Bridged byteComparator s.maps s.mem s.tree 0x500ff0 0x40 0x501 ∧
    SameResult (doTsWrite byteComparator s.maps s.mem s.tree 0x500ff0 0x40)
      (fwriteScan byteComparator s.maps s.mem s.tree 0x500ff0 0x40) := by
  have hrun : (plainRun (overPageEnd 0)).any fun s => decide (
      (∀ p ∈ s.tree.nodes, NodeInv s.tree p) ∧ RecordsIn s.tree 0x500ff0 0x40 ∧
      Bridged byteComparator s.maps s.mem s.tree 0x500ff0 0x40 0x501 ∧
      ScannersOk byteComparator s.maps s.mem s.tree 0x500ff0 0x40) := by
    decide +kernel
  obtain ⟨s, hs, hall⟩ := (Option.any_eq_true _ _).1 hrun
  obtain ⟨hnodes, hin, hbridged, hok⟩ := of_decide_eq_true hall
  have hrep : Rep plainLibc s.tree := ⟨reachable_owned (reachable_plainRun hs), hnodes⟩
  exact ⟨s, hs, hbridged, (scanners_agree_iff hrep (by decide) hin).2 hok⟩

/-- The second record lies behind the match: only `do_ts_write` takes it. -/
theorem scanners_differ_behindMatch : ∃ s, plainRun (overPageEnd 16) = some s ∧
    Rep plainLibc s.tree ∧ RecordsIn s.tree 0x500ff0 0x40 ∧
    (doTsWrite byteComparator s.maps s.mem s.tree 0x500ff0 0x40).passed.length = 2 ∧
    (fwriteScan byteComparator s.maps s.mem s.tree 0x500ff0 0x40).passed.length = 1 ∧
    ¬ SameResult (doTsWrite byteComparator s.maps s.mem s.tree 0x500ff0 0x40)
      (fwriteScan byteComparator s.maps s.mem s.tree 0x500ff0 0x40) := by
  have hrun : (plainRun (overPageEnd 16)).any fun s => decide (
      (∀ p ∈ s.tree.nodes, NodeInv s.tree p) ∧ RecordsIn s.tree 0x500ff0 0x40 ∧
      (doTsWrite byteComparator s.maps s.mem s.tree 0x500ff0 0x40).passed.length = 2 ∧
      (fwriteScan byteComparator s.maps s.mem s.tree 0x500ff0 0x40).passed.length = 1) := by
    decide +kernel
  obtain ⟨s, hs, hall⟩ := (Option.any_eq_true _ _).1 hrun
  obtain ⟨hnodes, hin, htwo, hone⟩ := of_decide_eq_true hall
  have hrep : Rep plainLibc s.tree := ⟨reachable_owned (reachable_plainRun hs), hnodes⟩
  refine ⟨s, hs, hrep, hin, htwo, hone, fun h => ?_⟩
  rw [h.passed, hone] at htwo
  cases htwo

end Cidl
