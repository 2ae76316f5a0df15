import Cidl.Records.Counts
import Cidl.Writes.Visits

/-!
# How much a write is credited

`CreditBounded` is what makes the count of bytes that were already in a file
meaningful: everything compared lies in the buffer, nothing is credited twice,
no length wraps below zero, and so no write is credited with more than its own
length.  `do_ts_write` keeps it as long as no record that `cmpWrite` would
compare lies behind the buffer on its last page (`doTsWrite_credit_iff`).

The loop has the test for such a record, but the test guards an empty
statement: `if((unsigned long)bufCmpStart > (unsigned long) tail) ;`.  The scan
in `ts_fwrite` has a `break` in its place.
-/

namespace Cidl

open SearchTree RecTree

/-- The comparisons of a write lie in its buffer, and so do the lengths it is
credited with. -/
structure CreditBounded (buf length : ℕ) (s : Scan) : Prop where
  /-- Every compared range lies in the buffer. -/
  inside : ∀ c ∈ s.compared, buf ≤ c.bufCmpStart ∧ c.bufCmpStart + c.cmpLen ≤ buf + length
  /-- Neither `tail-bufCmpStart` nor `min(tail,diffPos)-bufCmpStart` wraps. -/
  noWrap : ∀ c ∈ s.compared,
    c.bufCmpStart ≤ buf + length ∧ c.bufCmpStart ≤ min (buf + length) c.diffPos
  /-- What is credited of a range is part of it. -/
  credited : ∀ c ∈ s.compared, c.addLen ≤ c.cmpLen
  /-- The credited ranges are disjoint. -/
  disjoint : s.compared.Pairwise fun c d =>
    c.bufCmpStart + c.addLen ≤ d.bufCmpStart ∨ d.bufCmpStart + d.addLen ≤ c.bufCmpStart
  /-- The counter grows by at most the length of the buffer. -/
  increase : s.sameSize ≤ length

section

variable {cmp : Comparator} {M : FileMaps} {mem : ℕ → UInt8} {tail : ℕ} {T : RecTree} {L : Libc}

/-! ## The comparisons of a pass -/

/-- The comparison made for a record, if there is one. -/
def creditOf (cmp : Comparator) (M : FileMaps) (mem : ℕ → UInt8) (tail : ℕ) (x : ℕ × MemRec) :
    Option Compared :=
  ((writeExtents cmp M mem tail).stop x).map fun diffPos =>
    let bufCmpStart := (writeExtents cmp M mem tail).start x
    ⟨x.2, bufCmpStart, wsub tail bufCmpStart, wsub (min tail diffPos) bufCmpStart, diffPos⟩

theorem foldl_pass_compared (s : Scan) (l : List (ℕ × MemRec)) :
    (l.foldl (Scan.pass cmp M mem tail) s).compared =
      s.compared ++ l.filterMap (creditOf cmp M mem tail) := by
  induction l generalizing s with
  | nil => simp
  | cons x l ih =>
    rw [List.foldl_cons, ih, List.filterMap_cons, creditOf, Scan.pass]
    dsimp only
    cases (writeExtents cmp M mem tail).stop x with
    | none => rfl
    | some e => simp

/-- The counter grows by the sum of what is credited, if that does not wrap. -/
theorem foldl_pass_sameSize {s : Scan} {l : List (ℕ × MemRec)}
    (h : s.sameSize + ((l.filterMap (creditOf cmp M mem tail)).map Compared.addLen).sum <
      wordSize) :
    (l.foldl (Scan.pass cmp M mem tail) s).sameSize =
      s.sameSize + ((l.filterMap (creditOf cmp M mem tail)).map Compared.addLen).sum := by
  induction l generalizing s with
  | nil => rfl
  | cons x l ih =>
    rw [List.filterMap_cons, creditOf] at h ⊢
    rw [List.foldl_cons]
    cases hs : (writeExtents cmp M mem tail).stop x with
    | none =>
      have hpass : (s.pass cmp M mem tail x).sameSize = s.sameSize := by
        rw [Scan.pass]
        simp only [hs]
      rw [hs] at h
      simp only [Option.map_none] at h ⊢
      rw [ih (by rw [hpass]; exact h), hpass]
    | some e =>
      rw [hs] at h
      simp only [Option.map_some, List.map_cons, List.sum_cons] at h ⊢
      have hpass : (s.pass cmp M mem tail x).sameSize =
          s.sameSize + wsub (min tail e) ((writeExtents cmp M mem tail).start x) := by
        rw [Scan.pass]
        simp only [hs]
        exact wadd_of_lt (by omega)
      rw [ih (by rw [hpass]; omega), hpass]
      omega

/-! ## Records inside the buffer -/

theorem within_writeExtents (hcmp : FindsFirst cmp) (mem : ℕ → UInt8) (ht : tail < wordSize)
    (l : List (ℕ × MemRec)) :
    (writeExtents cmp M mem tail).Within tail l := by
  intro x _ e he hx
  rw [hcmp.stop_eq] at he
  obtain ⟨f, -, rfl⟩ := Option.map_eq_some_iff.1 he
  exact matchEnd_bounds hx ht

/-- No wrap takes place for a record that begins in the buffer. -/
theorem creditOf_eq (hcmp : FindsFirst cmp) (ht : tail < wordSize) {x : ℕ × MemRec}
    (hx : (writeExtents cmp M mem tail).start x ≤ tail) {c : Compared}
    (hc : creditOf cmp M mem tail x = some c) : ∃ e, (writeExtents cmp M mem tail).stop x = some e ∧
      c = ⟨x.2, (writeExtents cmp M mem tail).start x, tail - (writeExtents cmp M mem tail).start x,
        e - (writeExtents cmp M mem tail).start x, e⟩ ∧
      (writeExtents cmp M mem tail).start x ≤ e ∧ e ≤ tail := by
  obtain ⟨e, he, rfl⟩ := Option.map_eq_some_iff.1 hc
  obtain ⟨h₁, h₂⟩ := within_writeExtents hcmp mem ht [x] x (List.mem_singleton_self x) e he hx
  refine ⟨e, he, ?_, h₁, h₂⟩
  dsimp only
  rw [wsub_of_le hx ht, Nat.min_eq_right h₂, wsub_of_le h₁ (by omega)]

theorem sum_addLen_eq (hcmp : FindsFirst cmp) (ht : tail < wordSize) {l : List (ℕ × MemRec)}
    (hl : ∀ x ∈ l, (writeExtents cmp M mem tail).stop x ≠ none →
      (writeExtents cmp M mem tail).start x ≤ tail) :
    ((l.filterMap (creditOf cmp M mem tail)).map Compared.addLen).sum =
      (l.map (writeExtents cmp M mem tail).length).sum := by
  induction l with
  | nil => rfl
  | cons x l ih =>
    have ih := ih fun y hy => hl y (List.mem_cons_of_mem _ hy)
    rw [List.map_cons, List.sum_cons, ← ih, Extents.length]
    cases hs : (writeExtents cmp M mem tail).stop x with
    | none =>
      have hnone : creditOf cmp M mem tail x = none := by rw [creditOf, hs]; rfl
      rw [List.filterMap_cons_none hnone]
      simp
    | some e =>
      obtain ⟨c, hc⟩ : ∃ c, creditOf cmp M mem tail x = some c := ⟨_, by rw [creditOf, hs]; rfl⟩
      have hx := hl x (List.mem_cons_self ..) (by rw [hs]; exact Option.some_ne_none e)
      obtain ⟨e', he', rfl, -, -⟩ := creditOf_eq hcmp ht hx hc
      rw [hs] at he'
      cases he'
      rw [List.filterMap_cons_some hc]
      simp

/-- A pass over records none of which is compared behind the buffer. -/
theorem creditBounded_of_noneBeyond (hcmp : FindsFirst cmp) {buf length : ℕ}
    (hw : buf + length < wordSize)
    {l : List (ℕ × MemRec)}
    (hn : (writeExtents cmp M mem (buf + length)).NoneBeyond (buf + length) l) :
    CreditBounded buf length (((writeExtents cmp M mem (buf + length)).taken buf l).foldl
      (Scan.pass cmp M mem (buf + length)) (.start buf)) := by
  have hwithin := within_writeExtents (M := M) hcmp mem hw l
  have hbuf : buf ≤ buf + length := Nat.le_add_right _ _
  have hstart : ∀ x ∈ (writeExtents cmp M mem (buf + length)).taken buf l,
      (writeExtents cmp M mem (buf + length)).stop x ≠ none →
        (writeExtents cmp M mem (buf + length)).start x ≤ buf + length := by
    intro x hx hs
    by_contra hlt
    exact hs (hn x (Extents.taken_sublist.subset hx) (Nat.not_le.1 hlt))
  have hcredit : ∀ x ∈ (writeExtents cmp M mem (buf + length)).taken buf l,
      ∀ c, creditOf cmp M mem (buf + length) x = some c →
        ∃ e, (writeExtents cmp M mem (buf + length)).stop x = some e ∧
          c = ⟨x.2, (writeExtents cmp M mem (buf + length)).start x,
            buf + length - (writeExtents cmp M mem (buf + length)).start x,
            e - (writeExtents cmp M mem (buf + length)).start x, e⟩ ∧
          buf ≤ (writeExtents cmp M mem (buf + length)).start x ∧
          (writeExtents cmp M mem (buf + length)).start x ≤ e ∧ e ≤ buf + length := by
    intro x hx c hc
    obtain ⟨e, he, -⟩ := Option.map_eq_some_iff.1 hc
    have hx' := hstart x hx (by rw [he]; exact Option.some_ne_none e)
    obtain ⟨e, he, rfl, h₁, h₂⟩ := creditOf_eq hcmp hw hx' hc
    exact ⟨e, he, rfl, Extents.le_start_of_mem_taken hwithin hn hbuf hx, h₁, h₂⟩
  have hsum := sum_addLen_eq hcmp hw hstart
  have hlength := Extents.length_taken_le hwithin hn hbuf
  have hfrontier := (Extents.frontier_le hwithin hn hbuf).2
  have hsame := foldl_pass_sameSize (M := M)
    (s := .start buf) (l := (writeExtents cmp M mem (buf + length)).taken buf l)
    (by rw [hsum]; simp only [Scan.start]; omega)
  have hcompared : ∀ c ∈ (((writeExtents cmp M mem (buf + length)).taken buf l).foldl
      (Scan.pass cmp M mem (buf + length)) (.start buf)).compared,
        ∃ x ∈ (writeExtents cmp M mem (buf + length)).taken buf l,
          creditOf cmp M mem (buf + length) x = some c := by
    intro c hc
    rw [foldl_pass_compared, Scan.start, List.nil_append] at hc
    exact List.mem_filterMap.1 hc
  refine ⟨fun c hc => ?_, fun c hc => ?_, fun c hc => ?_, ?_, ?_⟩
  · obtain ⟨x, hx, hc⟩ := hcompared c hc
    obtain ⟨e, -, rfl, h₀, h₁, h₂⟩ := hcredit x hx c hc
    dsimp only
    omega
  · obtain ⟨x, hx, hc⟩ := hcompared c hc
    obtain ⟨e, -, rfl, h₀, h₁, h₂⟩ := hcredit x hx c hc
    dsimp only
    omega
  · obtain ⟨x, hx, hc⟩ := hcompared c hc
    obtain ⟨e, -, rfl, h₀, h₁, h₂⟩ := hcredit x hx c hc
    dsimp only
    omega
  · rw [foldl_pass_compared, Scan.start, List.nil_append, List.pairwise_filterMap]
    refine (Extents.taken_disjoint hwithin hn hbuf).imp_of_mem
      fun {x y} hx hy hxy c hc d hd => Or.inl ?_
    obtain ⟨e, he, rfl, h₀, h₁, h₂⟩ := hcredit x hx c hc
    obtain ⟨e', -, rfl, -, -, -⟩ := hcredit y hy d hd
    have := hxy e he
    dsimp only
    omega
  · rw [hsame, hsum]
    simp only [Scan.start]
    omega

/-! ## `do_ts_write` -/

/-- Only the last page can have records behind the buffer. -/
theorem mem_bufItems_beyond (hrep : Rep L T) {buf length : ℕ} (hw : buf + length < wordSize)
    {x : ℕ × MemRec} : (x ∈ bufItems T buf length ∧
        buf + length < getAddr x.1 x.2.pageOffset) ↔
      ∃ p ∈ T.findNode (addr2PageNum (buf + length)), ∃ r ∈ T.records p,
        buf + length < getAddr (addr2PageNum (buf + length)) r.pageOffset ∧
          x = (addr2PageNum (buf + length), r) := by
  rw [bufItems, bufPages, wadd_of_lt hw, List.mem_flatMap]
  have hmem : ∀ page, x ∈ pageItems T page ↔
      ∃ p ∈ T.findNode page, ∃ r ∈ T.records p, x = (page, r) := by
    intro page
    unfold pageItems
    cases T.findNode page with
    | none => simp
    | some p => simp [itemsOf, eq_comm]
  constructor
  · rintro ⟨⟨page, hpage, hx⟩, hbeyond⟩
    have hbound := (pageItems_bounds hrep (page_fits hw hpage) hx).2
    obtain ⟨p, hp, r, hr, rfl⟩ := (hmem page).1 hx
    have hlast : page = addr2PageNum (buf + length) := by
      have hle := (mem_pagesFrom.1 hpage).2
      simp only [addr2PageNum, pageSize] at *
      omega
    subst hlast
    exact ⟨p, hp, r, hr, hbeyond, rfl⟩
  · rintro ⟨p, hp, r, hr, hbeyond, rfl⟩
    refine ⟨⟨addr2PageNum (buf + length), mem_pagesFrom.2 ⟨?_, Nat.le_refl _⟩, ?_⟩, hbeyond⟩
    · exact Nat.div_le_div_right (Nat.le_add_right _ _)
    · exact (hmem _).2 ⟨p, hp, r, hr, rfl⟩

theorem creditBounded_forget {buf length : ℕ} {s : Scan} :
    CreditBounded buf length s.forget ↔ CreditBounded buf length s :=
  ⟨fun ⟨h₁, h₂, h₃, h₄, h₅⟩ => ⟨h₁, h₂, h₃, h₄, h₅⟩, fun ⟨h₁, h₂, h₃, h₄, h₅⟩ =>
    ⟨h₁, h₂, h₃, h₄, h₅⟩⟩

/-- With a routine that finds the first difference, writing a buffer is credited
soundly exactly when no record of the page of its end that lies behind the end is
one that `cmpWrite` compares. -/
theorem doTsWrite_credit_iff (hcmp : FindsFirst cmp) (hrep : Rep L T) {buf length : ℕ}
    (hw : buf + length < wordSize) :
    CreditBounded buf length (doTsWrite cmp M mem T buf length) ↔
      ∀ p ∈ T.findNode (addr2PageNum (buf + length)), ∀ r ∈ T.records p,
        buf + length < getAddr (addr2PageNum (buf + length)) r.pageOffset →
          comparedTo M r = none := by
  have hstop : ∀ x : ℕ × MemRec,
      (writeExtents cmp M mem (buf + length)).stop x = none ↔ comparedTo M x.2 = none :=
    fun x => Option.map_eq_none_iff
  rw [← creditBounded_forget, doTsWrite_eq cmp hrep hw]
  constructor
  · intro h p hp r hr hbeyond
    by_contra hcompared
    obtain ⟨hx, -⟩ := (mem_bufItems_beyond hrep hw).2 ⟨p, hp, r, hr, hbeyond, rfl⟩
    obtain ⟨y, hy, hbeyond, hne⟩ := Extents.exists_taken_beyond (d := buf)
      (within_writeExtents (M := M) hcmp mem hw (bufItems T buf length))
      (Nat.le_add_right _ _) ⟨_, hx, hbeyond, fun hnone => hcompared ((hstop _).1 hnone)⟩
    obtain ⟨e, he⟩ := Option.ne_none_iff_exists'.1 hne
    obtain ⟨c, hc⟩ : ∃ c, creditOf cmp M mem (buf + length) y = some c :=
      ⟨_, by rw [creditOf, he]; rfl⟩
    have hstart : c.bufCmpStart = (writeExtents cmp M mem (buf + length)).start y := by
      obtain ⟨-, -, rfl⟩ := Option.map_eq_some_iff.1 hc
      rfl
    have hin : c ∈ (((writeExtents cmp M mem (buf + length)).taken buf
      (bufItems T buf length)).foldl
          (Scan.pass cmp M mem (buf + length)) (.start buf)).compared := by
      rw [foldl_pass_compared, Scan.start, List.nil_append]
      exact List.mem_filterMap.2 ⟨y, hy, hc⟩
    exact absurd (hstart ▸ (h.noWrap c hin).1) (Nat.not_le.2 hbeyond)
  · intro h
    refine creditBounded_of_noneBeyond hcmp hw fun x hx hbeyond => (hstop x).2 ?_
    obtain ⟨p, hp, r, hr, hlt, rfl⟩ := (mem_bufItems_beyond hrep hw).1 ⟨hx, hbeyond⟩
    exact h p hp r hr hlt

end

/-- Two records of a mapped file and behind them one of a file that is no longer mapped. -/
def mappedRecords : List Call := openAndMap 3 1 100 0x10000 0x1000 ++
  openAndMap 4 2 200 0x20000 0x1000 ++
  [.memcpy 0x500000 0x10000 8, .memcpy 0x500008 0x10008 8, .memcpy 0x500100 0x20000 8,
    .munmap 0x20000]

theorem doTsWrite_credit_iff_mapped : ∃ s, plainRun mappedRecords = some s ∧
    (doTsWrite byteComparator s.maps s.mem s.tree 0x500000 16).sameSize = 16 ∧
    CreditBounded 0x500000 16 (doTsWrite byteComparator s.maps s.mem s.tree 0x500000 16) := by
  have hrun : (plainRun mappedRecords).any fun s => decide (
      (∀ p ∈ s.tree.nodes, NodeInv s.tree p) ∧
      (doTsWrite byteComparator s.maps s.mem s.tree 0x500000 16).sameSize = 16 ∧
      ∀ p ∈ s.tree.findNode (addr2PageNum (0x500000 + 16)), ∀ r ∈ s.tree.records p,
        0x500000 + 16 < getAddr (addr2PageNum (0x500000 + 16)) r.pageOffset →
          comparedTo s.maps r = none) := by
    decide +kernel
  obtain ⟨s, hs, hall⟩ := (Option.any_eq_true _ _).1 hrun
  obtain ⟨hnodes, hsize, hbeyond⟩ := of_decide_eq_true hall
  have hrep : Rep plainLibc s.tree := ⟨reachable_owned (reachable_plainRun hs), hnodes⟩
  exact ⟨s, hs, hsize, (doTsWrite_credit_iff byteComparator_findsFirst hrep (by decide)).2 hbeyond⟩

/-- A record behind the buffer, of which the first byte has changed since. -/
def recordBeyond : List Call := openAndMap 3 1 100 0x10000 0x1000 ++
  [.memcpy 0x500100 0x10000 8, .store 0x500100 1]

/-- Writing the 16 bytes at the beginning of that page is credited with almost
the whole address space. -/
theorem doTsWrite_credit_wraps : ∃ s, plainRun recordBeyond = some s ∧ Rep plainLibc s.tree ∧
    ¬ CreditBounded 0x500000 16 (doTsWrite byteComparator s.maps s.mem s.tree 0x500000 16) ∧
    (doTsWrite byteComparator s.maps s.mem s.tree 0x500000 16).sameSize = wordSize - 240 := by
  have hrun : (plainRun recordBeyond).any fun s => decide (
      (∀ p ∈ s.tree.nodes, NodeInv s.tree p) ∧
      (doTsWrite byteComparator s.maps s.mem s.tree 0x500000 16).sameSize = wordSize - 240) := by
    decide +kernel
  obtain ⟨s, hs, hall⟩ := (Option.any_eq_true _ _).1 hrun
  obtain ⟨hnodes, hsize⟩ := of_decide_eq_true hall
  have hrep : Rep plainLibc s.tree := ⟨reachable_owned (reachable_plainRun hs), hnodes⟩
  refine ⟨s, hs, hrep, fun h => ?_, hsize⟩
  have hle := h.increase
  rw [hsize] at hle
  exact absurd hle (by decide)

end Cidl
