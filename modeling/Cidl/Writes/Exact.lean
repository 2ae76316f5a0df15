import Cidl.Writes.Inside
import Cidl.Writes.Scanners

/-!
# What the credit of a write stands for

`ts_write_same_size` is to be the number of bytes that a program writes although
the files it copied from have them already.  `Counted` says that a scan has
counted this: the bytes it credits are different bytes of the buffer, each is
the same as the byte of the file at its place, and the counter is their number.

* `exact_doTsWrite`, `exact_fwriteScan` — one comparison credits all bytes up to
  the first one that differs, whatever the tree looks like.
* `doTsWrite_counted` — `do_ts_write` counts such bytes as long as no record that
  it would compare lies behind the buffer, and it misses no record: each is
  compared or begins among bytes that are credited already.
* `fwriteScan_counted` — the scan in `ts_fwrite`, which ends at such a record,
  counts such bytes whatever lies behind the buffer; it may miss records of a page
  that begins among credited bytes.
-/

namespace Cidl

open SearchTree RecTree

/-! ## One comparison -/

/-- `k` is the length of the common prefix of the `n` bytes at `a` and at `f`. -/
structure CommonPrefix (mem : ℕ → UInt8) (a f n k : ℕ) : Prop where
  le : k ≤ n
  agree : ∀ i < k, mem (a + i) = mem (f + i)
  maximal : k < n → mem (a + k) ≠ mem (f + k)

/-- A comparison credits the common prefix of what is left of the buffer and the
file from the record's position on. -/
def Exact (M : FileMaps) (mem : ℕ → UInt8) (tail : ℕ) (c : Compared) : Prop :=
  ∃ f, comparedTo M c.mrp = some f ∧
    CommonPrefix mem c.bufCmpStart f (tail - c.bufCmpStart) c.addLen

section

variable {cmp : Comparator} {M : FileMaps} {mem : ℕ → UInt8} {tail : ℕ} {T : RecTree} {L : Libc}

theorem commonPrefix_matchEnd {a : ℕ} (f : ℕ) (ha : a ≤ tail) (ht : tail < wordSize) :
    CommonPrefix mem a f (tail - a) (matchEnd mem tail a f - a) := by
  have hlen : wsub tail a = tail - a := wsub_of_le ha ht
  unfold matchEnd
  cases hfind : (List.range (wsub tail a)).find? fun i => decide (mem (a + i) ≠ mem (f + i)) with
  | none =>
    rw [Option.elim_none]
    refine ⟨Nat.le_refl _, fun i hi => ?_, fun hlt => absurd hlt (Nat.lt_irrefl _)⟩
    have hall := List.find?_eq_none.1 hfind i (List.mem_range.2 (by omega))
    simpa using hall
  | some k =>
    obtain ⟨hne, hk, hbelow⟩ := List.find?_range_eq_some.1 hfind
    have hk := List.mem_range.1 hk
    rw [Option.elim_some, Nat.add_sub_cancel_left]
    refine ⟨by omega, fun i hi => ?_, fun _ => of_decide_eq_true hne⟩
    simpa using hbelow i hi

/-- Every `cmpWrite` keeps what is credited exact. -/
theorem exact_cmpWrite (hcmp : FindsFirst cmp) (ht : tail < wordSize) (mrp : MemRec)
    (bufCmpStart : ℕ) (s : Scan)
    (h : ∀ c ∈ s.compared, c.bufCmpStart ≤ tail → Exact M mem tail c) :
    ∀ c ∈ (cmpWrite cmp M mem tail mrp bufCmpStart s).compared, c.bufCmpStart ≤ tail →
      Exact M mem tail c := by
  unfold cmpWrite
  dsimp only
  split
  · exact h
  · rename_i x hx
    split
    · rename_i hoff
      intro c hc
      rcases List.mem_append.1 hc with hc | hc
      · exact h c hc
      · rw [List.mem_singleton.1 hc]
        intro hle
        refine ⟨wsub (wadd (M.fileMapTreeNodes x).start mrp.fileOffset)
          (M.fileMapTreeNodes x).offset, ?_, ?_⟩
        · rw [comparedTo, hx]
          exact if_pos hoff
        · dsimp only at hle ⊢
          obtain ⟨h₁, h₂⟩ := @matchEnd_bounds mem tail bufCmpStart (wsub (wadd
            (M.fileMapTreeNodes x).start mrp.fileOffset) (M.fileMapTreeNodes x).offset) hle ht
          rw [addLen_eq, hcmp.getD_eq, Nat.min_eq_right h₂, wsub_of_le h₁ (by omega)]
          exact commonPrefix_matchEnd _ hle ht
    · exact h

/-- What `do_ts_write` credits is exact, for every tree. -/
theorem exact_doTsWrite (hcmp : FindsFirst cmp) (M : FileMaps) (mem : ℕ → UInt8) (T : RecTree)
    (buf length : ℕ) : ∀ c ∈ (doTsWrite cmp M mem T buf length).compared,
      c.bufCmpStart ≤ wadd buf length → Exact M mem (wadd buf length) c :=
  doTsWrite_invariant
    (P := fun s => ∀ c ∈ s.compared, c.bufCmpStart ≤ wadd buf length →
      Exact M mem (wadd buf length) c)
    (fun a => exact_cmpWrite hcmp (wadd_lt buf length) (T.recMem a)) (fun _ _ h => h)
    fun _ hc => absurd hc List.not_mem_nil

/-- What `ts_fwrite` credits is exact, for every tree. -/
theorem exact_fwriteScan (hcmp : FindsFirst cmp) (M : FileMaps) (mem : ℕ → UInt8) (T : RecTree)
    (buf length : ℕ) : ∀ c ∈ (fwriteScan cmp M mem T buf length).compared,
      c.bufCmpStart ≤ wadd buf length → Exact M mem (wadd buf length) c :=
  fwriteScan_invariant
    (P := fun s => ∀ c ∈ s.compared, c.bufCmpStart ≤ wadd buf length →
      Exact M mem (wadd buf length) c)
    (fun a => exact_cmpWrite hcmp (wadd_lt buf length) (T.recMem a)) (fun _ _ h => h)
    fun _ hc => absurd hc List.not_mem_nil

/-! ## The counter -/

/-- The counter is the sum of what is credited, as a machine word. -/
theorem sameSize_cmpWrite (mrp : MemRec) (bufCmpStart : ℕ) (s : Scan)
    (h : s.sameSize = (s.compared.map Compared.addLen).sum % wordSize) :
    (cmpWrite cmp M mem tail mrp bufCmpStart s).sameSize =
      ((cmpWrite cmp M mem tail mrp bufCmpStart s).compared.map Compared.addLen).sum %
        wordSize := by
  unfold cmpWrite
  dsimp only
  split
  · exact h
  · split
    · dsimp only
      rw [List.map_append, List.sum_append, List.map_singleton, List.sum_singleton, h, wadd,
        Nat.mod_add_mod]
    · exact h

theorem sameSize_doTsWrite (cmp : Comparator) (M : FileMaps) (mem : ℕ → UInt8) (T : RecTree)
    (buf length : ℕ) : (doTsWrite cmp M mem T buf length).sameSize =
      ((doTsWrite cmp M mem T buf length).compared.map Compared.addLen).sum % wordSize :=
  doTsWrite_invariant
    (P := fun s => s.sameSize = (s.compared.map Compared.addLen).sum % wordSize)
    (fun a => sameSize_cmpWrite (T.recMem a)) (fun _ _ h => h) rfl

theorem sameSize_fwriteScan (cmp : Comparator) (M : FileMaps) (mem : ℕ → UInt8) (T : RecTree)
    (buf length : ℕ) : (fwriteScan cmp M mem T buf length).sameSize =
      ((fwriteScan cmp M mem T buf length).compared.map Compared.addLen).sum % wordSize :=
  fwriteScan_invariant
    (P := fun s => s.sameSize = (s.compared.map Compared.addLen).sum % wordSize)
    (fun a => sameSize_cmpWrite (T.recMem a)) (fun _ _ h => h) rfl

end

/-! ## The bytes of a scan -/

/-- The addresses of the bytes that a scan credits, comparison by comparison. -/
def creditedBytes (s : Scan) : List ℕ :=
  s.compared.flatMap fun c => List.range' c.bufCmpStart c.addLen

/-- The counter is the number of bytes of the buffer that have been found in a
file, none of them twice. -/
structure Counted (M : FileMaps) (mem : ℕ → UInt8) (buf length : ℕ) (s : Scan) : Prop where
  /-- No byte is credited twice. -/
  nodup : (creditedBytes s).Nodup
  /-- The bytes belong to the buffer. -/
  inBuffer : ∀ a ∈ creditedBytes s, buf ≤ a ∧ a < buf + length
  /-- Each is the byte that the file of a record has at its place. -/
  inFile : ∀ a ∈ creditedBytes s, ∃ c ∈ s.compared, ∃ f, comparedTo M c.mrp = some f ∧
    c.bufCmpStart ≤ a ∧ mem a = mem (f + (a - c.bufCmpStart))
  /-- A comparison ends with the buffer or at a byte that is different. -/
  maximal : ∀ c ∈ s.compared, ∃ f, comparedTo M c.mrp = some f ∧
    (c.bufCmpStart + c.addLen = buf + length ∨
      mem (c.bufCmpStart + c.addLen) ≠ mem (f + c.addLen))
  /-- The counter is their number. -/
  sameSize : s.sameSize = (creditedBytes s).length

section

variable {M : FileMaps} {mem : ℕ → UInt8} {buf length : ℕ} {s : Scan}

theorem length_creditedBytes (s : Scan) :
    (creditedBytes s).length = (s.compared.map Compared.addLen).sum := by
  simp [creditedBytes, List.length_flatMap]

/-- A list of different numbers from an interval is no longer than the interval. -/
theorem length_le_of_inBuffer {l : List ℕ} (hnd : l.Nodup)
    (hl : ∀ a ∈ l, buf ≤ a ∧ a < buf + length) : l.length ≤ length := by
  have hsub : l ⊆ List.range' buf length := fun a ha => List.mem_range'_1.2 (hl a ha)
  have hle := (List.subperm_of_subset hnd hsub).length_le
  rwa [List.length_range'] at hle

theorem mem_creditedBytes {a : ℕ} : a ∈ creditedBytes s ↔
    ∃ c ∈ s.compared, c.bufCmpStart ≤ a ∧ a < c.bufCmpStart + c.addLen := by
  simp only [creditedBytes, List.mem_flatMap, List.mem_range'_1]

/-- Disjoint exact comparisons inside the buffer count its bytes. -/
theorem counted_of_bounded (hw : buf + length < wordSize) {t : Scan}
    (hb : CreditBounded buf length t) (hcompared : t.compared = s.compared)
    (hexact : ∀ c ∈ s.compared, c.bufCmpStart ≤ buf + length → Exact M mem (buf + length) c)
    (hsum : s.sameSize = (s.compared.map Compared.addLen).sum % wordSize) :
    Counted M mem buf length s := by
  obtain ⟨hinside, hnoWrap, hcredited, hdisjoint, -⟩ := hb
  rw [hcompared] at hinside hnoWrap hcredited hdisjoint
  have hnd : (creditedBytes s).Nodup := by
    refine List.nodup_flatMap.2 ⟨fun c _ => List.nodup_range', hdisjoint.imp fun {c d} hcd => ?_⟩
    intro a hc hd
    have hc := List.mem_range'_1.1 hc
    have hd := List.mem_range'_1.1 hd
    omega
  have hin : ∀ a ∈ creditedBytes s, buf ≤ a ∧ a < buf + length := by
    intro a ha
    obtain ⟨c, hc, hle, hlt⟩ := mem_creditedBytes.1 ha
    have h₁ := hinside c hc
    have h₂ := hcredited c hc
    omega
  refine ⟨hnd, hin, fun a ha => ?_, fun c hc => ?_, ?_⟩
  · obtain ⟨c, hc, hle, hlt⟩ := mem_creditedBytes.1 ha
    obtain ⟨f, hf, hcommon⟩ := hexact c hc (hnoWrap c hc).1
    have hagree := hcommon.agree (a - c.bufCmpStart) (by omega)
    rw [Nat.add_sub_cancel' hle] at hagree
    exact ⟨c, hc, f, hf, hle, hagree⟩
  · have hle := (hnoWrap c hc).1
    obtain ⟨f, hf, hcommon⟩ := hexact c hc hle
    refine ⟨f, hf, ?_⟩
    rcases Nat.eq_or_lt_of_le hcommon.le with heq | hlt
    · exact Or.inl (by omega)
    · exact Or.inr (hcommon.maximal hlt)
  · have hle := length_le_of_inBuffer hnd hin
    rw [length_creditedBytes] at hle ⊢
    rw [hsum, Nat.mod_eq_of_lt (by omega)]

end

/-! ## `do_ts_write` -/

/-- The record is compared, or it begins among bytes that are credited. -/
def Accounted (s : Scan) (page : ℕ) (r : MemRec) : Prop :=
  ∃ c ∈ s.compared, (c.mrp = r ∧ c.bufCmpStart = getAddr page r.pageOffset) ∨
    (c.bufCmpStart < getAddr page r.pageOffset ∧
      getAddr page r.pageOffset < c.bufCmpStart + c.addLen)

/-- Every record that begins in the buffer or at its end, and whose file is mapped
at its position, is compared, or it begins among bytes that are credited. -/
def MissesNone (M : FileMaps) (T : RecTree) (buf length : ℕ) (s : Scan) : Prop :=
  ∀ page ∈ bufPages buf length, ∀ p ∈ T.findNode page, ∀ r ∈ T.records p,
    comparedTo M r ≠ none → buf ≤ getAddr page r.pageOffset →
    getAddr page r.pageOffset ≤ buf + length → Accounted s page r

section

variable {cmp : Comparator} {M : FileMaps} {mem : ℕ → UInt8} {T : RecTree} {L : Libc}
  {buf length : ℕ}

/-- The records of a buffer ascend from page to page and on each page. -/
theorem bufItems_ascending (hrep : Rep L T) :
    (bufItems T buf length).Pairwise fun x y =>
      getAddr x.1 x.2.pageOffset < getAddr y.1 y.2.pageOffset := by
  have hfits : ∀ page ∈ bufPages buf length, (page + 1) * pageSize ≤ wordSize :=
    fun page hpage => fits_of_mem_bufPages hpage
  refine List.pairwise_flatMap.2 ⟨fun page hpage => ?_, ?_⟩
  · exact pageItems_ascending hrep (hfits page hpage)
  · have hpages : (bufPages buf length).Pairwise (· < ·) := by
      rw [bufPages, pagesFrom]
      exact List.pairwise_lt_range'
    refine hpages.imp_of_mem fun {page page'} hpage hpage' hlt x hx y hy => ?_
    have h₁ := (pageItems_bounds hrep (hfits page hpage) hx).2
    have h₂ := (pageItems_bounds hrep (hfits page' hpage') hy).1
    have hle : (page + 1) * pageSize ≤ page' * pageSize := Nat.mul_le_mul_right _ hlt
    omega

theorem mem_bufItems {page p : ℕ} {r : MemRec} (hpage : page ∈ bufPages buf length)
    (hp : T.findNode page = some p) (hr : r ∈ T.records p) : (page, r) ∈ bufItems T buf length := by
  refine List.mem_flatMap.2 ⟨page, hpage, ?_⟩
  rw [pageItems, hp]
  exact List.mem_map_of_mem hr

theorem doTsWrite_compared (hrep : Rep L T) (hw : buf + length < wordSize) :
    (doTsWrite cmp M mem T buf length).compared =
      ((writeExtents cmp M mem (buf + length)).taken buf (bufItems T buf length)).filterMap
        (creditOf cmp M mem (buf + length)) := by
  have hforget : (doTsWrite cmp M mem T buf length).forget.compared = _ :=
    congrArg Scan.compared (doTsWrite_eq cmp hrep hw)
  rwa [foldl_pass_compared, Scan.start, List.nil_append] at hforget

/-- In a pass over ascending records none that can be compared is missed. -/
theorem accounted_of_taken (hcmp : FindsFirst cmp) (hw : buf + length < wordSize)
    {l : List (ℕ × MemRec)} {s : Scan} {page : ℕ} {r : MemRec}
    (hasc : l.Pairwise fun x y => getAddr x.1 x.2.pageOffset < getAddr y.1 y.2.pageOffset)
    (hs : s.compared = ((writeExtents cmp M mem (buf + length)).taken buf l).filterMap
      (creditOf cmp M mem (buf + length)))
    (hr : (page, r) ∈ l) (hcompared : comparedTo M r ≠ none)
    (hbuf : buf ≤ getAddr page r.pageOffset) (htail : getAddr page r.pageOffset ≤ buf + length) :
    Accounted s page r := by
  rw [Accounted, hs]
  have hstop : ∃ e, (writeExtents cmp M mem (buf + length)).stop (page, r) = some e :=
    Option.ne_none_iff_exists'.1 fun hnone => hcompared (Option.map_eq_none_iff.1 hnone)
  have htaken := Extents.mem_taken_or_covered (X := writeExtents cmp M mem (buf + length))
    hasc hr hbuf
  rcases htaken with htaken | ⟨x, hx, e, he, hlt, hend⟩
  · obtain ⟨e, he⟩ := hstop
    have hcredit : creditOf cmp M mem (buf + length) (page, r) ≠ none := by simp [creditOf, he]
    obtain ⟨c, hc⟩ := Option.ne_none_iff_exists'.1 hcredit
    have hof : c.mrp = r ∧ c.bufCmpStart = getAddr page r.pageOffset := by
      obtain ⟨-, -, rfl⟩ := Option.map_eq_some_iff.1 hc
      exact ⟨rfl, rfl⟩
    exact ⟨c, List.mem_filterMap.2 ⟨_, htaken, hc⟩, Or.inl hof⟩
  · have he := Option.mem_def.1 he
    have hend : getAddr page r.pageOffset < e := hend
    have hlt : (writeExtents cmp M mem (buf + length)).start x < getAddr page r.pageOffset := hlt
    have hcredit : creditOf cmp M mem (buf + length) x ≠ none := by simp [creditOf, he]
    obtain ⟨c, hc⟩ := Option.ne_none_iff_exists'.1 hcredit
    obtain ⟨e', he', heq, -, -⟩ := creditOf_eq hcmp hw (Nat.le_trans hlt.le htail) hc
    rw [he] at he'
    cases he'
    subst heq
    refine ⟨_, List.mem_filterMap.2 ⟨x, hx, hc⟩, Or.inr ⟨hlt, ?_⟩⟩
    dsimp only
    omega

theorem missesNone_doTsWrite (hcmp : FindsFirst cmp) (hrep : Rep L T)
    (hw : buf + length < wordSize) :
    MissesNone M T buf length (doTsWrite cmp M mem T buf length) :=
  fun _ hpage _ hp _ hr hcompared hbuf htail =>
    accounted_of_taken hcmp hw (bufItems_ascending hrep) (doTsWrite_compared hrep hw)
      (mem_bufItems hpage hp hr) hcompared hbuf htail

/-- Where no record that it would compare lies behind the buffer, `do_ts_write`
counts the bytes of the buffer that it has found in files, and misses no record. -/
theorem doTsWrite_counted (hcmp : FindsFirst cmp) (hrep : Rep L T)
    (hw : buf + length < wordSize)
    (hbeyond : ∀ p ∈ T.findNode (addr2PageNum (buf + length)), ∀ r ∈ T.records p,
      buf + length < getAddr (addr2PageNum (buf + length)) r.pageOffset → comparedTo M r = none) :
    Counted M mem buf length (doTsWrite cmp M mem T buf length) ∧
      MissesNone M T buf length (doTsWrite cmp M mem T buf length) := by
  have hnone : (writeExtents cmp M mem (buf + length)).NoneBeyond (buf + length)
      (bufItems T buf length) := by
    intro x hx hlt
    obtain ⟨p, hp, r, hr, hr', rfl⟩ := (mem_bufItems_beyond hrep hw).1 ⟨hx, hlt⟩
    exact Option.map_eq_none_iff.2 (hbeyond p hp r hr hr')
  have hbounded : CreditBounded buf length (doTsWrite cmp M mem T buf length) := by
    rw [← creditBounded_forget, doTsWrite_eq cmp hrep hw]
    exact creditBounded_of_noneBeyond hcmp hw hnone
  have hexact := exact_doTsWrite hcmp M mem T buf length
  rw [wadd_of_lt hw] at hexact
  exact ⟨counted_of_bounded hw hbounded rfl hexact (sameSize_doTsWrite cmp M mem T buf length),
    missesNone_doTsWrite hcmp hrep hw⟩

end

/-- A concrete run whose last state has been checked. -/
theorem rep_plainRun {cs : List Call} {s : State} (hs : plainRun cs = some s)
    (hnodes : ∀ p ∈ s.tree.nodes, NodeInv s.tree p) : Rep plainLibc s.tree :=
  ⟨reachable_owned (reachable_plainRun hs), hnodes⟩

theorem doTsWrite_counted_mapped : ∃ s, plainRun mappedRecords = some s ∧
    (creditedBytes (doTsWrite byteComparator s.maps s.mem s.tree 0x500000 16)).length = 16 ∧
    Counted s.maps s.mem 0x500000 16
      (doTsWrite byteComparator s.maps s.mem s.tree 0x500000 16) := by
  have hrun : (plainRun mappedRecords).any fun s => decide (
      (∀ p ∈ s.tree.nodes, NodeInv s.tree p) ∧
      (doTsWrite byteComparator s.maps s.mem s.tree 0x500000 16).sameSize = 16 ∧
      ∀ p ∈ s.tree.findNode (addr2PageNum (0x500000 + 16)), ∀ r ∈ s.tree.records p,
        0x500000 + 16 < getAddr (addr2PageNum (0x500000 + 16)) r.pageOffset →
          comparedTo s.maps r = none) := by
    decide +kernel
  obtain ⟨s, hs, hall⟩ := (Option.any_eq_true _ _).1 hrun
  obtain ⟨hnodes, hsize, hbeyond⟩ := of_decide_eq_true hall
  have hcounted : Counted s.maps s.mem 0x500000 16
      (doTsWrite byteComparator s.maps s.mem s.tree 0x500000 16) :=
    (doTsWrite_counted byteComparator_findsFirst (rep_plainRun hs hnodes) (by decide) hbeyond).1
  exact ⟨s, hs, hcounted.sameSize.symm.trans hsize, hcounted⟩

/-! ## `ts_fwrite` -/

/-- The same but for the pages that begin among credited bytes. -/
def MissesBridged (M : FileMaps) (T : RecTree) (buf length : ℕ) (s : Scan) : Prop :=
  ∀ page ∈ bufPages buf length, ∀ p ∈ T.findNode page, ∀ r ∈ T.records p,
    comparedTo M r ≠ none → buf ≤ getAddr page r.pageOffset →
    getAddr page r.pageOffset ≤ buf + length → Accounted s page r ∨
      ∃ c ∈ s.compared, c.bufCmpStart < page * pageSize ∧
        page * pageSize < c.bufCmpStart + c.addLen

/-- A scan of `ts_fwrite` that has gone over the pages before `page`, and of their
records over `l`: all of them begin in the buffer or at its end, and `diffPos` and
the comparisons are those of a pass over them from the beginning of the buffer on. -/
structure FwriteRun (cmp : Comparator) (M : FileMaps) (mem : ℕ → UInt8) (buf length page : ℕ)
    (l : List (ℕ × MemRec)) (s : Scan) : Prop where
  upTo : ∀ x ∈ l, (writeExtents cmp M mem (buf + length)).start x ≤ buf + length
  before : ∀ x ∈ l, (writeExtents cmp M mem (buf + length)).start x < page * pageSize
  ascending : l.Pairwise fun x y => getAddr x.1 x.2.pageOffset < getAddr y.1 y.2.pageOffset
  diffPos : s.diffPos = (writeExtents cmp M mem (buf + length)).frontier buf l ∨
    (s.diffPos = 0 ∧ (writeExtents cmp M mem (buf + length)).frontier buf l = buf)
  compared : s.compared = ((writeExtents cmp M mem (buf + length)).taken buf l).filterMap
    (creditOf cmp M mem (buf + length))

section

variable {cmp : Comparator} {M : FileMaps} {mem : ℕ → UInt8} {T : RecTree} {L : Libc}
  {buf length page : ℕ} {s : Scan} {l : List (ℕ × MemRec)}

theorem le_of_addr2PageNum_lt (h : addr2PageNum buf < page) : buf ≤ page * pageSize := by
  simp only [addr2PageNum, pageSize] at *
  omega

theorem FwriteRun.count (h : FwriteRun cmp M mem buf length page l s) (k : ℕ) :
    FwriteRun cmp M mem buf length page l { s with notFoundSize := k } :=
  ⟨h.upTo, h.before, h.ascending, h.diffPos, h.compared⟩

/-- Another page that adds nothing. -/
theorem FwriteRun.next (h : FwriteRun cmp M mem buf length page l s) :
    FwriteRun cmp M mem buf length (page + 1) l s := by
  refine ⟨h.upTo, fun x hx => (h.before x hx).trans_le ?_, h.ascending, h.diffPos, h.compared⟩
  exact Nat.mul_le_mul_right _ (Nat.le_succ page)

/-- Of the records of a page those behind the buffer are passed over. -/
theorem foldl_visit_upTo (mem : ℕ → UInt8) {tail low : ℕ} (l : List (ℕ × MemRec)) (s : Scan) :
    l.foldl (visit cmp M mem tail true low) s =
      (l.filter fun x => decide ((writeExtents cmp M mem tail).start x ≤ tail)).foldl
        (visit cmp M mem tail true low) s := by
  induction l generalizing s with
  | nil => rfl
  | cons x l ih =>
    rw [List.foldl_cons, ih, List.filter_cons]
    split
    · rfl
    · rename_i hx
      have hx : tail < (writeExtents cmp M mem tail).start x := by simpa using hx
      rw [visit_skip (Or.inr (Or.inr ⟨rfl, hx⟩))]

/-- The records of the page that is next. -/
theorem fwriteRun_records {kept : List (ℕ × MemRec)}
    (h : FwriteRun cmp M mem buf length page l s)
    (hlow : s.diffPos = (writeExtents cmp M mem (buf + length)).frontier buf l →
      buf ≤ page * pageSize)
    (hasc : kept.Pairwise fun x y => getAddr x.1 x.2.pageOffset < getAddr y.1 y.2.pageOffset)
    (hkept : ∀ x ∈ kept, (writeExtents cmp M mem (buf + length)).start x ≤ buf + length)
    (hon : ∀ x ∈ kept, page * pageSize ≤ (writeExtents cmp M mem (buf + length)).start x ∧
      (writeExtents cmp M mem (buf + length)).start x < (page + 1) * pageSize) :
    FwriteRun cmp M mem buf length (page + 1) (l ++ kept)
      (kept.foldl (visit cmp M mem (buf + length) true buf) s) := by
  set d := (writeExtents cmp M mem (buf + length)).frontier buf l with hd
  have hlock : Lockstep buf d { s with diffPos := d } s :=
    ⟨rfl, rfl, rfl, rfl, rfl, h.diffPos⟩
  have hrun := lockstep_run hasc hkept (fun heq x hx => (hlow heq).trans (hon x hx).1) hlock
  have hfrontier : (writeExtents cmp M mem (buf + length)).frontier buf (l ++ kept) =
      (writeExtents cmp M mem (buf + length)).frontier d kept := Extents.frontier_append
  refine ⟨?_, ?_, ?_, ?_, ?_⟩
  · exact List.forall_mem_append.2 ⟨h.upTo, hkept⟩
  · exact List.forall_mem_append.2 ⟨h.next.before, fun x hx => (hon x hx).2⟩
  · refine List.pairwise_append.2 ⟨h.ascending, hasc, fun x hx y hy => ?_⟩
    exact (h.before x hx).trans_le (hon y hy).1
  · rw [hfrontier]
    exact hrun.diffPos'
  · rw [← hrun.compared, foldl_pass_compared, Extents.taken_append, List.filterMap_append,
      h.compared]

/-- A page that begins below `diffPos` begins among bytes that are credited. -/
theorem FwriteRun.bridged (hcmp : FindsFirst cmp) (hw : buf + length < wordSize)
    (h : FwriteRun cmp M mem buf length page l s) (hpage : addr2PageNum buf < page)
    (hskip : page * pageSize < s.diffPos) :
    ∃ c ∈ s.compared, c.bufCmpStart < page * pageSize ∧
      page * pageSize < c.bufCmpStart + c.addLen := by
  have hbuf : buf < page * pageSize := by
    simp only [addr2PageNum, pageSize] at *
    omega
  have hfrontier := h.diffPos
  rcases Extents.frontier_cases (X := writeExtents cmp M mem (buf + length)) (d := buf) (l := l)
    with heq | ⟨x, hx, he⟩
  · omega
  · have hxl := Extents.taken_sublist.subset hx
    have hcredit : creditOf cmp M mem (buf + length) x ≠ none := by simp [creditOf, he]
    obtain ⟨c, hc⟩ := Option.ne_none_iff_exists'.1 hcredit
    obtain ⟨e', he', heq, -, -⟩ := creditOf_eq hcmp hw (h.upTo x hxl) hc
    rw [he] at he'
    cases he'
    subst heq
    have hbefore := h.before x hxl
    refine ⟨_, h.compared ▸ List.mem_filterMap.2 ⟨x, hx, hc⟩, hbefore, ?_⟩
    dsimp only
    omega

/-- A page that `ts_fwrite` has gone over: its records up to the end of the buffer
belong to the pass, or it begins among bytes that are credited. -/
def PageDone (cmp : Comparator) (M : FileMaps) (mem : ℕ → UInt8) (T : RecTree) (buf length : ℕ)
    (l : List (ℕ × MemRec)) (s : Scan) (page : ℕ) : Prop :=
  (∀ x ∈ pageItems T page, (writeExtents cmp M mem (buf + length)).start x ≤ buf + length → x ∈ l) ∨
    ∃ c ∈ s.compared, c.bufCmpStart < page * pageSize ∧
      page * pageSize < c.bufCmpStart + c.addLen

theorem PageDone.mono {l l' : List (ℕ × MemRec)} {s t : Scan} (hl : l ⊆ l')
    (hs : s.compared ⊆ t.compared) (h : PageDone cmp M mem T buf length l s page) :
    PageDone cmp M mem T buf length l' t page :=
  h.imp (fun hall x hx hle => hl (hall x hx hle)) fun ⟨c, hc, hends⟩ => ⟨c, hs hc, hends⟩

/-- One page, whether `ts_fwrite` passes over it or not. -/
theorem fwriteRun_page (hcmp : FindsFirst cmp) (hrep : Rep L T) (hw : buf + length < wordSize)
    (hfits : (page + 1) * pageSize ≤ wordSize)
    (hpage : addr2PageNum buf < page ∨ (l = [] ∧ s.diffPos = 0))
    (h : FwriteRun cmp M mem buf length page l s) :
    ∃ l', l ⊆ l' ∧ s.compared ⊆ (fwritePage cmp M mem T buf length s page).compared ∧
      FwriteRun cmp M mem buf length (page + 1) l' (fwritePage cmp M mem T buf length s page) ∧
      PageDone cmp M mem T buf length l' (fwritePage cmp M mem T buf length s page) page := by
  have hfirst := getAddr_firstByte hfits
  by_cases hskip : getAddr page 0 < s.diffPos
  · have hlater := hpage.resolve_right fun hzero => Nat.not_lt_zero _ (hzero.2 ▸ hskip)
    have heq : fwritePage cmp M mem T buf length s page = s := by
      rw [fwritePage, scanPage, if_pos hskip]
    rw [heq]
    exact ⟨l, List.Subset.refl l, List.Subset.refl _, h.next,
      Or.inr (h.bridged hcmp hw hlater (hfirst ▸ hskip))⟩
  · have hlow : s.diffPos = (writeExtents cmp M mem (buf + length)).frontier buf l →
        buf ≤ page * pageSize := by
      intro heq
      rcases hpage with hlater | ⟨rfl, hzero⟩
      · exact le_of_addr2PageNum_lt hlater
      · have hbuf : s.diffPos = buf := heq
        rw [← hbuf, hzero]
        exact Nat.zero_le _
    set kept := (pageItems T page).filter fun x =>
      decide ((writeExtents cmp M mem (buf + length)).start x ≤ buf + length) with hkept
    have hrun := fwriteRun_records h hlow ((pageItems_ascending hrep hfits).filter _)
      (fun x hx => of_decide_eq_true (List.mem_filter.1 hx).2)
      (fun x hx => pageItems_bounds hrep hfits (List.mem_filter.1 hx).1)
    rw [← hkept] at hrun
    have hgrow : s.compared ⊆ (kept.foldl
      (visit cmp M mem (buf + length) true buf) s).compared := by
      rw [hrun.compared, h.compared, Extents.taken_append, List.filterMap_append]
      exact List.subset_append_left _ _
    have hdone : ∀ x ∈ pageItems T page,
        (writeExtents cmp M mem (buf + length)).start x ≤ buf + length → x ∈ l ++ kept :=
      fun x hx hle => List.mem_append_right l (List.mem_filter.2 ⟨hx, decide_eq_true hle⟩)
    refine ⟨l ++ kept, List.subset_append_left l kept, ?_⟩
    cases hp : T.findNode page with
    | none =>
      obtain ⟨hitems, heq⟩ := fwritePage_none cmp M mem buf length hskip hp
      have hnil : kept = [] := by rw [hkept, hitems, List.filter_nil]
      rw [hnil, List.foldl_nil] at hrun
      rw [hnil] at hdone ⊢
      rw [heq]
      exact ⟨List.Subset.refl _, hrun.count _, Or.inl hdone⟩
    | some p =>
      rw [fwritePage_node cmp M mem hrep hfits hskip hp, foldl_visit_upTo]
      exact ⟨hgrow, hrun, Or.inl hdone⟩

/-- All pages of a range: the first one of the buffer, or pages behind it. -/
theorem fwriteRun_pages (hcmp : FindsFirst cmp) (hrep : Rep L T) (hw : buf + length < wordSize)
    {n : ℕ} (hfits : ∀ q ∈ List.range' page n, (q + 1) * pageSize ≤ wordSize)
    (hpage : addr2PageNum buf < page ∨ (page = addr2PageNum buf ∧ l = [] ∧ s.diffPos = 0))
    (h : FwriteRun cmp M mem buf length page l s) :
    ∃ l', l ⊆ l' ∧
      s.compared ⊆ ((List.range' page n).foldl (fwritePage cmp M mem T buf length) s).compared ∧
      FwriteRun cmp M mem buf length (page + n) l'
        ((List.range' page n).foldl (fwritePage cmp M mem T buf length) s) ∧
      ∀ q ∈ List.range' page n, PageDone cmp M mem T buf length l'
        ((List.range' page n).foldl (fwritePage cmp M mem T buf length) s) q := by
  induction n generalizing page l s with
  | zero => exact ⟨l, List.Subset.refl l, List.Subset.refl _, h, fun q hq => nomatch hq⟩
  | succ n ih =>
    rw [List.range'_succ] at hfits ⊢
    obtain ⟨l₁, hl₁, hs₁, h₁, hdone₁⟩ := fwriteRun_page hcmp hrep hw
      (hfits page (List.mem_cons_self ..)) (hpage.imp_right And.right) h
    obtain ⟨l₂, hl₂, hs₂, h₂, hdone₂⟩ :=
      ih (fun q hq => hfits q (List.mem_cons_of_mem _ hq)) (Or.inl (by omega)) h₁
    rw [List.foldl_cons, show page + (n + 1) = page + 1 + n by omega]
    exact ⟨l₂, List.Subset.trans hl₁ hl₂, List.Subset.trans hs₁ hs₂, h₂,
      List.forall_mem_cons.2 ⟨hdone₁.mono hl₂ hs₂, hdone₂⟩⟩

/-- With a routine that finds the first difference, the scan in `ts_fwrite` counts the
bytes of the buffer that it has found in files, whatever lies behind the buffer, and
it misses records only on pages that begin among these bytes. -/
theorem fwriteScan_counted (hcmp : FindsFirst cmp) (hrep : Rep L T)
    (hw : buf + length < wordSize) :
    Counted M mem buf length (fwriteScan cmp M mem T buf length) ∧
      MissesBridged M T buf length (fwriteScan cmp M mem T buf length) := by
  have hstart : FwriteRun cmp M mem buf length (addr2PageNum buf) [] (.start 0) :=
    ⟨fun x hx => absurd hx List.not_mem_nil, fun x hx => absurd hx List.not_mem_nil,
      List.Pairwise.nil, Or.inr ⟨rfl, rfl⟩, rfl⟩
  have hfits : ∀ page ∈ bufPages buf length, (page + 1) * pageSize ≤ wordSize :=
    fun page hpage => fits_of_mem_bufPages hpage
  have hscan : (bufPages buf length).foldl (fwritePage cmp M mem T buf length) (.start 0) =
      fwriteScan cmp M mem T buf length := by
    rw [fwriteScan, wadd_of_lt hw]
  obtain ⟨n, hn⟩ : ∃ n, bufPages buf length = List.range' (addr2PageNum buf) n := ⟨_, rfl⟩
  obtain ⟨l, -, -, hrun, hdone⟩ := fwriteRun_pages hcmp hrep hw (fun q hq => hfits q (hn ▸ hq))
    (Or.inr ⟨rfl, rfl, rfl⟩) hstart
  rw [← hn, hscan] at hrun hdone
  -- the same comparisons as in a pass over the records of `l`
  have hpass : CreditBounded buf length
      (((writeExtents cmp M mem (buf + length)).taken buf l).foldl
        (Scan.pass cmp M mem (buf + length)) (.start buf)) :=
    creditBounded_of_noneBeyond hcmp hw fun x hx hlt =>
      absurd hlt (Nat.not_lt.2 (hrun.upTo x hx))
  have hcompared : (((writeExtents cmp M mem (buf + length)).taken buf l).foldl
      (Scan.pass cmp M mem (buf + length)) (.start buf)).compared =
        (fwriteScan cmp M mem T buf length).compared := by
    rw [foldl_pass_compared, Scan.start, List.nil_append, hrun.compared]
  have hexact := exact_fwriteScan hcmp M mem T buf length
  rw [wadd_of_lt hw] at hexact
  refine ⟨counted_of_bounded hw hpass hcompared hexact (sameSize_fwriteScan cmp M mem T buf length),
    fun page hpage p hp r hr hcomp hbuf htail => (hdone page hpage).imp_left fun hall => ?_⟩
  have hitem : (page, r) ∈ pageItems T page := by
    rw [pageItems, Option.mem_def.1 hp]
    exact List.mem_map_of_mem hr
  exact accounted_of_taken hcmp hw hrun.ascending hrun.compared
    (hall _ hitem htail) hcomp hbuf htail

end

/-- With a record behind the buffer, where `do_ts_write` goes astray. -/
theorem fwriteScan_counted_recordBeyond : ∃ s, plainRun recordBeyond = some s ∧
    creditedBytes (fwriteScan byteComparator s.maps s.mem s.tree 0x500000 16) = [] ∧
    Counted s.maps s.mem 0x500000 16
      (fwriteScan byteComparator s.maps s.mem s.tree 0x500000 16) := by
  have hrun : (plainRun recordBeyond).any fun s => decide (
      (∀ p ∈ s.tree.nodes, NodeInv s.tree p) ∧
      creditedBytes (fwriteScan byteComparator s.maps s.mem s.tree 0x500000 16) = []) := by
    decide +kernel
  obtain ⟨s, hs, hall⟩ := (Option.any_eq_true _ _).1 hrun
  obtain ⟨hnodes, hnil⟩ := of_decide_eq_true hall
  exact ⟨s, hs, hnil,
    (fwriteScan_counted byteComparator_findsFirst (rep_plainRun hs hnodes) (by decide)).1⟩

end Cidl
