import Cidl.Writes.Visits

/-!
# What a write counts as not found

For a page without a node `do_ts_write` adds `MIN(PAGESIZE, toTailLen)` to
`ts_write_not_found_size`, with `toTailLen` the distance from the beginning of
the page to the end of the buffer.  That is the number of bytes of the buffer on
the page (`bytesOn`) for every page but the first: there the bytes of the page
before the buffer are counted as well.

* `missedPages` are the pages the scan comes to that have no node.
* `sum_bytesOn` — the bytes on the pages of a buffer are its length.
* `notFound_exact_iff` — the count is exact when the buffer begins at a page
  boundary or its first page has a node.
-/

namespace Cidl

open SearchTree RecTree

section

variable {cmp : Comparator} {M : FileMaps} {mem : ℕ → UInt8} {tail : ℕ} {T : RecTree}
  {buf length page : ℕ} {s : Scan}

/-! ## The count of a scan -/

theorem cmpWrite_notFoundSize (mrp : MemRec) (bufCmpStart : ℕ) (s : Scan) :
    (cmpWrite cmp M mem tail mrp bufCmpStart s).notFoundSize = s.notFoundSize := by
  unfold cmpWrite
  dsimp only
  split
  · rfl
  · split <;> rfl

theorem scanRecs_notFoundSize (stopAtTail : Bool) (arr : ℕ) (is : List ℕ) (s : Scan) :
    (scanRecs cmp M mem stopAtTail T tail page arr is s).notFoundSize = s.notFoundSize := by
  induction is generalizing s with
  | nil => rfl
  | cons i is ih =>
    rw [scanRecs]
    split
    · exact ih s
    · split
      · rfl
      · rw [ih, cmpWrite_notFoundSize]

/-- A page that has a node adds nothing. -/
theorem scanPage_found {p : ℕ} (hp : T.findNode page = some p) (s : Scan) :
    (scanPage cmp M mem false none 4095 T buf length tail s page).notFoundSize =
      s.notFoundSize := by
  have hblocks : ∀ (es : List ℕ) (s : Scan),
      (es.foldl (scanBlock cmp M mem false none T tail page p) s).notFoundSize =
        s.notFoundSize := by
    intro es
    induction es with
    | nil => exact fun s => rfl
    | cons e es ih =>
      intro s
      rw [List.foldl_cons, ih]
      exact scanRecs_notFoundSize false _ _ s
  rw [scanPage, hp]
  split
  · rfl
  · exact hblocks _ s

/-- A page without a node only counts. -/
theorem scanPage_missed (hvisit : s.diffPos ≤ getAddr page 4095) (hp : T.findNode page = none) :
    scanPage cmp M mem false none 4095 T buf length tail s page =
      { s with notFoundSize := addInt s.notFoundSize (notFoundLen buf length page) } := by
  rw [scanPage, if_neg (Nat.not_lt.2 hvisit), hp]

/-- The pages without a node that a scan of `pages` does not pass over. -/
def missedPages (cmp : Comparator) (M : FileMaps) (mem : ℕ → UInt8) (T : RecTree)
    (buf length : ℕ) : List ℕ → Scan → List ℕ
  | [], _ => []
  | page :: pages, s =>
    let rest := missedPages cmp M mem T buf length pages
      (scanPage cmp M mem false none 4095 T buf length (wadd buf length) s page)
    if s.diffPos ≤ getAddr page 4095 ∧ T.findNode page = none then page :: rest else rest

theorem missedPages_sublist (pages : List ℕ) (s : Scan) :
    (missedPages cmp M mem T buf length pages s).Sublist pages := by
  induction pages generalizing s with
  | nil => exact .slnil
  | cons page pages ih =>
    rw [missedPages]
    split
    · exact (ih _).cons_cons page
    · exact (ih _).cons page

theorem addInt_val (a : ℕ) (x : ℤ) : (addInt a x : ℤ) = ((a : ℤ) + x) % wordSize := by
  simp only [addInt, wordSize]
  omega

theorem addInt_lt (a : ℕ) (x : ℤ) : addInt a x < wordSize := by
  simp only [addInt, wordSize]
  omega

/-- The scan counts `notFoundLen` for each of them. -/
theorem foldl_notFoundSize (pages : List ℕ) (hs : s.notFoundSize < wordSize) :
    ((pages.foldl (scanPage cmp M mem false none 4095 T buf length (wadd buf length))
        s).notFoundSize : ℤ) =
      (s.notFoundSize + ((missedPages cmp M mem T buf length pages s).map
        (notFoundLen buf length)).sum) % wordSize := by
  induction pages generalizing s with
  | nil =>
    simp only [List.foldl_nil, missedPages, List.map_nil, List.sum_nil, wordSize] at *
    omega
  | cons page pages ih =>
    rw [List.foldl_cons, missedPages]
    split
    · rename_i hmissed
      have hpage : (scanPage cmp M mem false none 4095 T buf length (wadd buf length) s
          page).notFoundSize = addInt s.notFoundSize (notFoundLen buf length page) := by
        rw [scanPage_missed hmissed.1 hmissed.2]
      rw [ih (by rw [hpage]; exact addInt_lt _ _), hpage, addInt_val, List.map_cons,
        List.sum_cons, Int.emod_add_emod, Int.add_assoc]
    · rename_i hmissed
      have hpage : (scanPage cmp M mem false none 4095 T buf length (wadd buf length) s
          page).notFoundSize = s.notFoundSize := by
        cases hp : T.findNode page with
        | some p => exact scanPage_found hp s
        | none =>
          have hskip : getAddr page 4095 < s.diffPos :=
            Nat.not_le.1 fun h => hmissed ⟨h, hp⟩
          rw [scanPage, if_pos hskip]
      rw [ih (by rwa [hpage]), hpage]

theorem doTsWrite_notFoundSize (cmp : Comparator) (M : FileMaps) (mem : ℕ → UInt8) (T : RecTree)
    (buf length : ℕ) : ((doTsWrite cmp M mem T buf length).notFoundSize : ℤ) =
      (0 + ((missedPages cmp M mem T buf length (bufPages buf length) (.start buf)).map
        (notFoundLen buf length)).sum) % wordSize :=
  foldl_notFoundSize (s := .start buf) (bufPages buf length) (show 0 < wordSize by decide)

/-! ## The bytes of a buffer on its pages -/

/-- How many bytes of the buffer lie on a page. -/
def bytesOn (buf length page : ℕ) : ℕ :=
  min (buf + length) ((page + 1) * pageSize) - max buf (page * pageSize)

/-- The bytes on a run of pages lie between its ends. -/
theorem sum_bytesOn_range (buf length q n : ℕ) :
    ((List.range' q n).map (bytesOn buf length)).sum +
        max buf (min (buf + length) (q * pageSize)) =
      max buf (min (buf + length) ((q + n) * pageSize)) := by
  induction n generalizing q with
  | zero => simp
  | succ n ih =>
    have hrest := ih (q + 1)
    rw [List.range'_succ, List.map_cons, List.sum_cons]
    simp only [bytesOn, pageSize] at *
    omega

/-- The bytes on the pages of a buffer are its length. -/
theorem sum_bytesOn (hw : buf + length < wordSize) :
    ((bufPages buf length).map (bytesOn buf length)).sum = length := by
  have hsum := sum_bytesOn_range buf length (addr2PageNum buf)
    (addr2PageNum (buf + length) + 1 - addr2PageNum buf)
  rw [bufPages, wadd_of_lt hw, pagesFrom]
  simp only [addr2PageNum, pageSize] at *
  omega

/-! ## Where the count is exact -/

theorem fits_of_mem (hw : buf + length < wordSize) (hpage : page ∈ bufPages buf length) :
    addr2PageNum buf ≤ page ∧ page * pageSize ≤ buf + length ∧
      (page + 1) * pageSize ≤ wordSize := by
  rw [bufPages, wadd_of_lt hw] at hpage
  have hfits := page_fits hw hpage
  obtain ⟨hfirst, hlast⟩ := mem_pagesFrom.1 hpage
  simp only [addr2PageNum, pageSize] at *
  omega

/-- Behind the first page what is counted are the bytes of the buffer. -/
theorem notFoundLen_later (hw : buf + length < wordSize) (hlen : length < 2 ^ 31)
    (hpage : page ∈ bufPages buf length) (hlater : addr2PageNum buf ≠ page) :
    notFoundLen buf length page = bytesOn buf length page := by
  obtain ⟨hfirst, hlast, hfits⟩ := fits_of_mem hw hpage
  have hbuf : buf ≤ page * pageSize := by
    simp only [addr2PageNum, pageSize] at *
    omega
  rw [notFoundLen, getAddr_firstByte hfits, wsub_of_le hbuf (by omega),
    wsub_of_le (by omega) (by omega), toInt_of_range (by omega) (by omega)]
  simp only [bytesOn, pageSize] at *
  omega

/-- On the first page the bytes before the buffer are counted, too. -/
theorem notFoundLen_first (hw : buf + length < wordSize) (hlen : length < 2 ^ 31) :
    (notFoundLen buf length (addr2PageNum buf) = bytesOn buf length (addr2PageNum buf) ↔
      addr2PageOffset buf = 0) ∧
    -(2 ^ 32) < notFoundLen buf length (addr2PageNum buf) ∧
    notFoundLen buf length (addr2PageNum buf) < 2 ^ 32 := by
  have hmem : addr2PageNum buf ∈ bufPages buf length := by
    rw [bufPages, wadd_of_lt hw, mem_pagesFrom]
    exact ⟨Nat.le_refl _, Nat.div_le_div_right (Nat.le_add_right _ _)⟩
  obtain ⟨-, -, hfits⟩ := fits_of_mem hw hmem
  rw [addr2PageOffset_eq, notFoundLen, getAddr_firstByte hfits]
  simp only [bytesOn, toInt, Int.bmod, wsub, addr2PageNum, pageSize, wordSize] at *
  omega

/-- The count of a write is exact: the bytes on the pages that the scan comes to
and that have no node, the whole length when no page has one, and never more. -/
def NotFoundExact (cmp : Comparator) (M : FileMaps) (mem : ℕ → UInt8) (T : RecTree)
    (buf length : ℕ) : Prop :=
  (doTsWrite cmp M mem T buf length).notFoundSize =
      ((missedPages cmp M mem T buf length (bufPages buf length) (.start buf)).map
        (bytesOn buf length)).sum ∧
  ((∀ page ∈ bufPages buf length, T.findNode page = none) →
    (doTsWrite cmp M mem T buf length).notFoundSize = length) ∧
  (doTsWrite cmp M mem T buf length).notFoundSize ≤ length

/-- The first page of a buffer and the pages behind it. -/
theorem bufPages_split (hw : buf + length < wordSize) :
    ∃ later, bufPages buf length = addr2PageNum buf :: later ∧
      ∀ page ∈ later, page ∈ bufPages buf length ∧ addr2PageNum buf ≠ page := by
  have hle : addr2PageNum buf ≤ addr2PageNum (buf + length) :=
    Nat.div_le_div_right (Nat.le_add_right _ _)
  obtain ⟨n, hn⟩ : ∃ n, addr2PageNum (buf + length) + 1 - addr2PageNum buf = n + 1 :=
    ⟨addr2PageNum (buf + length) - addr2PageNum buf, by omega⟩
  have hpages : bufPages buf length =
      addr2PageNum buf :: List.range' (addr2PageNum buf + 1) n := by
    rw [bufPages, wadd_of_lt hw, pagesFrom, hn, List.range'_succ]
  refine ⟨_, hpages, fun page hpage => ⟨?_, ?_⟩⟩
  · rw [hpages]
    exact List.mem_cons_of_mem _ hpage
  · have := (List.mem_range'_1.1 hpage).1
    omega

/-- The scan comes to the first page, and what it misses on the later pages is
counted as it is. -/
theorem missedPages_split (cmp : Comparator) (M : FileMaps) (mem : ℕ → UInt8) (T : RecTree)
    (hw : buf + length < wordSize) (hlen : length < 2 ^ 31) :
    ∃ missed : List ℕ,
      missedPages cmp M mem T buf length (bufPages buf length) (.start buf) =
        (if T.findNode (addr2PageNum buf) = none then addr2PageNum buf :: missed else missed) ∧
      (missed.map (notFoundLen buf length)).sum =
        (((missed.map (bytesOn buf length)).sum : ℕ) : ℤ) := by
  obtain ⟨later, hpages, hlater⟩ := bufPages_split hw
  obtain ⟨-, -, hfits⟩ := fits_of_mem hw (by rw [hpages]; exact List.mem_cons_self ..)
  have hvisit : (Scan.start buf).diffPos ≤ getAddr (addr2PageNum buf) 4095 := by
    rw [getAddr_lastByte hfits, Scan.start]
    simp only [addr2PageNum, pageSize]
    omega
  refine ⟨missedPages cmp M mem T buf length later (scanPage cmp M mem false none 4095 T buf length
    (wadd buf length) (.start buf) (addr2PageNum buf)), ?_, ?_⟩
  · rw [hpages, missedPages]
    simp only [hvisit, true_and]
  · rw [Nat.cast_list_sum, List.map_map]
    refine congrArg List.sum (List.map_congr_left fun page hpage => ?_)
    obtain ⟨hmem, hne⟩ := hlater page ((missedPages_sublist later _).subset hpage)
    exact notFoundLen_later hw hlen hmem hne

theorem missed_bytes_le (pages : List ℕ) (hsub : pages.Sublist (bufPages buf length))
    (hw : buf + length < wordSize) : (pages.map (bytesOn buf length)).sum ≤ length := by
  calc (pages.map (bytesOn buf length)).sum
      ≤ ((bufPages buf length).map (bytesOn buf length)).sum :=
        (hsub.map _).sum_le_sum fun _ _ => Nat.zero_le _
    _ = length := sum_bytesOn hw

/-- When no page has a node, the scan comes to all of them. -/
theorem missedPages_all (cmp : Comparator) (M : FileMaps) (mem : ℕ → UInt8)
    (pages : List ℕ) (hnone : ∀ page ∈ pages, T.findNode page = none)
    (hd : ∀ page ∈ pages, s.diffPos ≤ getAddr page 4095) :
    missedPages cmp M mem T buf length pages s = pages := by
  induction pages generalizing s with
  | nil => rfl
  | cons page pages ih =>
    have hpage := hnone page (List.mem_cons_self ..)
    have hvisit := hd page (List.mem_cons_self ..)
    have hrest := ih (s := scanPage cmp M mem false none 4095 T buf length (wadd buf length) s page)
      (fun q hq => hnone q (List.mem_cons_of_mem _ hq)) (by
        rw [scanPage_missed hvisit hpage]
        dsimp only
        exact fun q hq => hd q (List.mem_cons_of_mem _ hq))
    rw [missedPages, if_pos ⟨hvisit, hpage⟩, hrest]

/-- A sum of 64 bits is the true one only if its first part is. -/
theorem sum_exact_iff {first rest : ℕ} {counted : ℤ} (hlt : first + rest < 2 ^ 31)
    (hlow : -(2 ^ 32) < counted) (hhigh : counted < 2 ^ 32) :
    (0 + (counted + rest)) % (wordSize : ℤ) = ((first + rest : ℕ) : ℤ) ↔ counted = first := by
  simp only [wordSize]
  omega

/-- What `do_ts_write` counts as not found is exact when the buffer begins at the
beginning of a page or its first page has a node, and not otherwise. -/
theorem notFound_exact_iff (cmp : Comparator) (M : FileMaps) (mem : ℕ → UInt8) (T : RecTree)
    (buf length : ℕ) (hw : buf + length < wordSize) (hlen : length < 2 ^ 31) :
    NotFoundExact cmp M mem T buf length ↔
      addr2PageOffset buf = 0 ∨ T.findNode (addr2PageNum buf) ≠ none := by
  have hcount := doTsWrite_notFoundSize cmp M mem T buf length
  have hsub : (missedPages cmp M mem T buf length (bufPages buf length) (.start buf)).Sublist
      (bufPages buf length) := missedPages_sublist _ _
  have hle := missed_bytes_le _ hsub hw
  obtain ⟨hfirst, hlow, hhigh⟩ := notFoundLen_first hw hlen
  obtain ⟨missed, hsplit, hsum⟩ := missedPages_split cmp M mem T hw hlen
  -- the sum is exact if and only if the first page is
  have hexact : (doTsWrite cmp M mem T buf length).notFoundSize =
      ((missedPages cmp M mem T buf length (bufPages buf length) (.start buf)).map
        (bytesOn buf length)).sum ↔
      addr2PageOffset buf = 0 ∨ T.findNode (addr2PageNum buf) ≠ none := by
    rw [← Int.natCast_inj, hcount, hsplit]
    rw [hsplit] at hle
    by_cases hp : T.findNode (addr2PageNum buf) = none
    · rw [if_pos hp, List.map_cons, List.sum_cons] at hle
      rw [if_pos hp, List.map_cons, List.map_cons, List.sum_cons, List.sum_cons, hsum, ← hfirst]
      have hiff := sum_exact_iff (Nat.lt_of_le_of_lt hle hlen) hlow hhigh
      simpa [hp] using hiff
    · rw [if_neg hp] at hle ⊢
      rw [hsum, Int.zero_add]
      refine iff_of_true (Int.emod_eq_of_lt (Int.natCast_nonneg _) ?_) (Or.inr hp)
      exact_mod_cast Nat.lt_of_le_of_lt hle (Nat.lt_of_lt_of_le hlen (by decide))
  refine ⟨fun h => hexact.1 h.1, fun h => ?_⟩
  have heq := hexact.2 h
  refine ⟨heq, fun hnone => ?_, heq.trans_le hle⟩
  have hall : missedPages cmp M mem T buf length (bufPages buf length) (.start buf) =
      bufPages buf length := by
    refine missedPages_all cmp M mem _ hnone fun page hpage => ?_
    obtain ⟨hfirst, -, hfits⟩ := fits_of_mem hw hpage
    rw [getAddr_lastByte hfits, Scan.start]
    simp only [addr2PageNum, pageSize] at *
    omega
  rw [heq, hall, sum_bytesOn hw]

end

/-- A write of two untracked pages from the beginning of the first. -/
theorem notFound_exact_iff_pageStart :
    NotFoundExact byteComparator plainInit.maps plainInit.mem plainInit.tree 0x500000 0x2000 :=
  (notFound_exact_iff byteComparator plainInit.maps plainInit.mem plainInit.tree 0x500000 0x2000
    (by decide) (by decide)).2 (Or.inl (by decide +kernel))

/-- A write of 8 bytes, 16 bytes into an untracked page, counts 24. -/
theorem insidePage_overcounts :
    (doTsWrite byteComparator plainInit.maps plainInit.mem plainInit.tree 0x500010 8).notFoundSize =
      24 ∧
    ¬ NotFoundExact byteComparator plainInit.maps plainInit.mem plainInit.tree 0x500010 8 := by
  have hcount : (doTsWrite byteComparator plainInit.maps plainInit.mem plainInit.tree
      0x500010 8).notFoundSize = 24 := by decide +kernel
  refine ⟨hcount, fun h => ?_⟩
  have hle := h.2.2
  rw [hcount] at hle
  exact absurd hle (by decide)

end Cidl
