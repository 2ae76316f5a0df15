import Cidl.Mappings.Identity
import Cidl.Mappings.Nodes
import Cidl.Writes.Visits

/-!
# How far a comparison reads into a mapping

`cmpWrite` compares what is left of the buffer, however long that is, with the
file from the record's position on.  It checks that the position is not before
the beginning of the mapping, and nothing about its end.

`WithinMapping` is the check that is not made; `comparesInside_iff` shows for
every comparison of both scanners, in every state of a run, that it is the one
that matters.
-/

namespace Cidl

open SearchTree

/-! ## What a scan compares -/

section

variable {cmp : Comparator} {M : FileMaps} {mem : ℕ → UInt8} {T : RecTree} {P : Scan → Prop}

/-- What every `cmpWrite` of a slot preserves, and every count of what is not
found, both scans preserve. -/
theorem scanPage_invariant {tail : ℕ} {stopAtTail : Bool} {skipTo : Option ℕ} {pageEnd : ℤ}
    {buf length page : ℕ} {s : Scan}
    (hcmp : ∀ a bufCmpStart s, P s → P (cmpWrite cmp M mem tail (T.recMem a) bufCmpStart s))
    (hcount : ∀ k s, P s → P { s with notFoundSize := k }) (hs : P s) :
    P (scanPage cmp M mem stopAtTail skipTo pageEnd T buf length tail s page) := by
  have hrecs : ∀ (arr : ℕ) (is : List ℕ) (s : Scan), P s →
      P (scanRecs cmp M mem stopAtTail T tail page arr is s) := by
    intro arr is
    induction is with
    | nil => exact fun _ hs => hs
    | cons i is ih =>
      intro s hs
      rw [scanRecs]
      split
      · exact ih s hs
      · split
        · exact hs
        · exact ih _ (hcmp _ _ s hs)
  unfold scanPage
  split
  · exact hs
  · split
    · exact List.foldlRecOn _ _ hs fun s hs e _ => hrecs _ _ s hs
    · exact hcount _ s hs

theorem doTsWrite_invariant {buf length : ℕ}
    (hcmp : ∀ a bufCmpStart s, P s →
      P (cmpWrite cmp M mem (wadd buf length) (T.recMem a) bufCmpStart s))
    (hcount : ∀ k s, P s → P { s with notFoundSize := k }) (hs : P (.start buf)) :
    P (doTsWrite cmp M mem T buf length) :=
  List.foldlRecOn _ _ hs fun _ hs _ _ => scanPage_invariant hcmp hcount hs

theorem fwriteScan_invariant {buf length : ℕ}
    (hcmp : ∀ a bufCmpStart s, P s →
      P (cmpWrite cmp M mem (wadd buf length) (T.recMem a) bufCmpStart s))
    (hcount : ∀ k s, P s → P { s with notFoundSize := k }) (hs : P (.start 0)) :
    P (fwriteScan cmp M mem T buf length) :=
  List.foldlRecOn _ _ hs fun _ hs _ _ => scanPage_invariant hcmp hcount hs

end

/-- A comparison of a record that is in a slot with the mapping found by its path,
up to `tail`. -/
structure MadeFrom (M : FileMaps) (T : RecTree) (tail : ℕ) (c : Compared) : Prop where
  slot : ∃ a, c.mrp = T.recMem a
  cmpLen : c.cmpLen = wsub tail c.bufCmpStart
  mapped : ∃ x, tfind (byKey M.nameKey c.mrp.fileName) M.fileMapNameTreeRoot = some x ∧
    (M.fileMapTreeNodes x).offset ≤ c.mrp.fileOffset

theorem madeFrom_cmpWrite {cmp : Comparator} {M : FileMaps} {mem : ℕ → UInt8} {T : RecTree}
    {tail : ℕ} (a : ℤ) (bufCmpStart : ℕ) (s : Scan)
    (h : ∀ c ∈ s.compared, MadeFrom M T tail c) :
    ∀ c ∈ (cmpWrite cmp M mem tail (T.recMem a) bufCmpStart s).compared, MadeFrom M T tail c := by
  unfold cmpWrite
  dsimp only
  split
  · exact h
  · rename_i x hx
    split
    · rename_i hoff
      intro c hc
      rcases List.mem_append.1 hc with hc | hc
      · exact h c hc
      · rw [List.mem_singleton.1 hc]
        exact ⟨⟨a, rfl⟩, rfl, x, hx, hoff⟩
    · exact h

theorem madeFrom_doTsWrite (cmp : Comparator) (M : FileMaps) (mem : ℕ → UInt8) (T : RecTree)
    (buf length : ℕ) :
    ∀ c ∈ (doTsWrite cmp M mem T buf length).compared, MadeFrom M T (wadd buf length) c :=
  doTsWrite_invariant (P := fun s => ∀ c ∈ s.compared, MadeFrom M T (wadd buf length) c)
    madeFrom_cmpWrite (fun _ _ h => h) fun _ hc => absurd hc List.not_mem_nil

theorem madeFrom_fwriteScan (cmp : Comparator) (M : FileMaps) (mem : ℕ → UInt8) (T : RecTree)
    (buf length : ℕ) :
    ∀ c ∈ (fwriteScan cmp M mem T buf length).compared, MadeFrom M T (wadd buf length) c :=
  fwriteScan_invariant (P := fun s => ∀ c ∈ s.compared, MadeFrom M T (wadd buf length) c)
    madeFrom_cmpWrite (fun _ _ h => h) fun _ hc => absurd hc List.not_mem_nil

/-! ## Inside the mapping -/

/-- All bytes that are compared with the buffer belong to the mapping that is
found by the record's path. -/
def ComparesInside (M : FileMaps) (c : Compared) : Prop :=
  ∃ x, tfind (byKey M.nameKey c.mrp.fileName) M.fileMapNameTreeRoot = some x ∧
    ∃ fileCmpStart, comparedTo M c.mrp = some fileCmpStart ∧
      ∀ a, fileCmpStart ≤ a → a < fileCmpStart + c.cmpLen →
        (M.fileMapTreeNodes x).start ≤ a ∧ a < (M.fileMapTreeNodes x).tail

/-- Nothing is left of the buffer, or the file has as much from the record's
position to the end of the mapping. -/
def WithinMapping (M : FileMaps) (tail : ℕ) (c : Compared) : Prop :=
  c.bufCmpStart = tail ∨
    ∃ x ∈ tfind (byKey M.nameKey c.mrp.fileName) M.fileMapNameTreeRoot,
      c.mrp.fileOffset + (tail - c.bufCmpStart) ≤ (M.fileMapTreeNodes x).offset +
        ((M.fileMapTreeNodes x).tail - (M.fileMapTreeNodes x).start)

instance (M : FileMaps) (tail : ℕ) (c : Compared) : Decidable (WithinMapping M tail c) :=
  inferInstanceAs (Decidable (_ ∨ _))

/-- Positions in slots and ends of mappings are machine words. -/
structure WordSized (s : State) : Prop where
  slots : ∀ a, (s.tree.recMem a).fileOffset < wordSize
  nodes : ∀ x, (s.maps.fileMapTreeNodes x).tail < wordSize

/-- A range of addresses that begins at `start + p`, modulo the word size. -/
theorem range_inside_iff {start tail p f : ℕ} (len : ℕ) (htail : tail < wordSize)
    (hp : p < wordSize)
    (hlen : 0 < len) (hf : f = (start + p) % wordSize) :
    (∀ a, f ≤ a → a < f + len → start ≤ a ∧ a < tail) ↔ p + len ≤ tail - start := by
  simp only [wordSize] at *
  constructor
  · intro h
    have hfirst := h f (Nat.le_refl f) (by omega)
    have hlast := h (f + len - 1) (by omega) (by omega)
    omega
  · intro h a h₁ h₂
    omega

theorem comparesInside_of_words {s : State} (h : WordSized s) {tail : ℕ} (ht : tail < wordSize)
    {c : Compared} (hc : MadeFrom s.maps s.tree tail c) (hle : c.bufCmpStart ≤ tail) :
    ComparesInside s.maps c ↔ WithinMapping s.maps tail c := by
  obtain ⟨⟨a, hslot⟩, hlen, x, hx, hoff⟩ := hc
  have hpos : c.mrp.fileOffset < wordSize := hslot ▸ h.slots a
  have htail := h.nodes x
  have hto : comparedTo s.maps c.mrp = some (wsub (wadd (s.maps.fileMapTreeNodes x).start
      c.mrp.fileOffset) (s.maps.fileMapTreeNodes x).offset) := by
    rw [comparedTo, hx]
    exact if_pos hoff
  have hstart : wsub (wadd (s.maps.fileMapTreeNodes x).start c.mrp.fileOffset)
      (s.maps.fileMapTreeNodes x).offset = ((s.maps.fileMapTreeNodes x).start +
        (c.mrp.fileOffset - (s.maps.fileMapTreeNodes x).offset)) % wordSize := by
    simp only [wsub, wadd, wordSize] at *
    omega
  rcases Nat.eq_or_lt_of_le hle with heq | hlt
  · refine iff_of_true ⟨x, hx, _, hto, fun a h₁ h₂ => ?_⟩ (Or.inl heq)
    rw [hlen, heq, wsub_of_le (Nat.le_refl tail) ht] at h₂
    omega
  · have hiff := range_inside_iff (tail - c.bufCmpStart) htail
      (show c.mrp.fileOffset - (s.maps.fileMapTreeNodes x).offset < wordSize by omega)
      (by omega) hstart
    rw [wsub_of_le hle ht] at hlen
    constructor
    · rintro ⟨y, hy, f, hf, hin⟩
      cases hx.symm.trans hy
      cases hto.symm.trans hf
      rw [hlen] at hin
      have hend := hiff.1 hin
      exact Or.inr ⟨x, hx, by omega⟩
    · rintro (heq | ⟨y, hy, hend⟩)
      · omega
      · cases hx.symm.trans hy
        refine ⟨x, hx, _, hto, ?_⟩
        rw [hlen]
        exact hiff.2 (by omega)

/-! ## Runs -/

variable {E : Env} {s s' : State}

theorem tail_lt_step {c : Call} (h : ∀ x, (s.maps.fileMapTreeNodes x).tail < wordSize)
    (hstep : step E c s = some s') (x : ℕ) : (s'.maps.fileMapTreeNodes x).tail < wordSize := by
  rcases node_of_mapsStep (mapsStep_of_step hstep) x with ⟨ret, len, prot, file, off, -, heq⟩ |
    ⟨used, name, heq⟩
  · rw [heq]
    exact wadd_lt ret len
  · rw [heq]
    exact h x

theorem wordSized_step {c : Call} (h : WordSized s) (hstep : step E c s = some s') :
    WordSized s' := by
  refine ⟨?_, tail_lt_step h.nodes hstep⟩
  have hins : ∀ ofa c T T', RecTree.Copies c T → (∀ a, (T.recMem a).fileOffset < wordSize) →
      RecTree.insertRec E.libc ofa c T = some T' → ∀ a, (T'.recMem a).fileOffset < wordSize := by
    rintro ofa c T T' ⟨b, hoff, -⟩ hT hT'
    have hc : c.fileOffset < wordSize := hoff ▸ hT b
    exact slots_insertRec (Q := fun r => r.fileOffset < wordSize) hT hc hT'
  rcases stepWith_tree_record hstep with heq | ⟨ofa, M, x, dest, src, hT⟩ |
    ⟨ofa, dest, src, n, -, hT⟩ | ⟨ofa, ret, ptr, tail, hT⟩
  · rw [heq]
    exact h.slots
  · have hc : (M.recordCall x dest src).fileOffset < wordSize := wadd_lt _ _
    exact slots_insertRec (c := M.recordCall x dest src) (Q := fun r => r.fileOffset < wordSize)
      h.slots hc hT
  · exact RecTree.tsMemcpyTraced_invariant (P := fun T => ∀ a, (T.recMem a).fileOffset < wordSize)
      (hins ofa) h.slots (fun _ _ _ _ _ _ => h.slots) hT
  · exact RecTree.tsRealloc_invariant (P := fun T => ∀ a, (T.recMem a).fileOffset < wordSize)
      (hins ofa) h.slots hT

/-- In every state that a run reaches, a comparison of a write scan stays inside
the mapping if and only if the file has as much left as the buffer, or nothing
is left of the buffer.  What lies in memory before the run are machine words. -/
theorem comparesInside_iff {recMem : ℤ → MemRec} {recBlockEntries : ℕ → RecBlockEntry}
    {recTreeNodes : ℕ → RecTreeNode} {fileMapTreeNodes : ℕ → FileMapTreeNode} {mem : ℕ → UInt8}
    {cs : List Call} (hslots : ∀ a, (recMem a).fileOffset < wordSize)
    (hnodes : ∀ x, (fileMapTreeNodes x).tail < wordSize)
    (h : runAll (step E) cs
      (initState E recMem recBlockEntries recTreeNodes fileMapTreeNodes mem) = some s)
    (buf length : ℕ) :
    (∀ c ∈ (doTsWrite E.cmp s.maps s.mem s.tree buf length).compared,
      c.bufCmpStart ≤ wadd buf length →
        (ComparesInside s.maps c ↔ WithinMapping s.maps (wadd buf length) c)) ∧
    ∀ c ∈ (fwriteScan E.cmp s.maps s.mem s.tree buf length).compared,
      c.bufCmpStart ≤ wadd buf length →
        (ComparesInside s.maps c ↔ WithinMapping s.maps (wadd buf length) c) := by
  have hwords : WordSized s :=
    runAll_invariant (P := WordSized) (fun _ _ _ _ hs hstep => wordSized_step hs hstep)
      ⟨hslots, hnodes⟩ h
  have htail : wadd buf length < wordSize := wadd_lt buf length
  constructor
  · intro c hc hle
    exact comparesInside_of_words hwords htail (madeFrom_doTsWrite _ _ _ _ _ _ c hc) hle
  · intro c hc hle
    exact comparesInside_of_words hwords htail (madeFrom_fwriteScan _ _ _ _ _ _ c hc) hle

/-- The last sixteen bytes of a mapping are copied, and the first sixteen. -/
def bothEnds : List Call := openAndMap 3 1 100 0x10000 0x1000 ++
  [.memcpy 0x500000 0x10ff0 16, .memcpy 0x600000 0x10000 16]

theorem bothEnds_wordSized {s : State} (h : plainRun bothEnds = some s) : WordSized s := by
  refine runAll_invariant (P := WordSized) (fun _ _ _ _ hs hstep => wordSized_step hs hstep) ?_ h
  exact ⟨fun _ => show 0 < wordSize by decide, fun _ => show 0 < wordSize by decide⟩

theorem comparesInside_iff_bothEnds : ∃ s, plainRun bothEnds = some s ∧
    ∃ c ∈ (doTsWrite byteComparator s.maps s.mem s.tree 0x600000 32).compared,
      c.cmpLen = 32 ∧ ComparesInside s.maps c := by
  have hrun : (plainRun bothEnds).any fun s : State => decide (
      ∃ c ∈ (doTsWrite byteComparator s.maps s.mem s.tree 0x600000 32).compared,
        c.bufCmpStart ≤ wadd 0x600000 32 ∧ c.cmpLen = 32 ∧
          WithinMapping s.maps (wadd 0x600000 32) c) := by
    decide +kernel
  obtain ⟨s, hs, hall⟩ := (Option.any_eq_true _ _).1 hrun
  obtain ⟨c, hc, hle, hlen, hwithin⟩ := of_decide_eq_true hall
  refine ⟨s, hs, c, hc, hlen, ?_⟩
  exact ((comparesInside_iff (fun _ => show 0 < wordSize by decide)
    (fun _ => show 0 < wordSize by decide) hs 0x600000 32).1 c hc hle).2 hwithin

/-- A write of 32 bytes from the copy of the last sixteen on compares sixteen
bytes behind the mapping. -/
theorem bothEnds_outside : ∃ s, plainRun bothEnds = some s ∧ Reachable plainEnv s ∧
    ∃ c ∈ (doTsWrite byteComparator s.maps s.mem s.tree 0x500000 32).compared,
      c.bufCmpStart ≤ wadd 0x500000 32 ∧ ¬ ComparesInside s.maps c := by
  have hrun : (plainRun bothEnds).any fun s : State => decide (
      ∃ c ∈ (doTsWrite byteComparator s.maps s.mem s.tree 0x500000 32).compared,
        c.bufCmpStart ≤ wadd 0x500000 32 ∧ ¬ WithinMapping s.maps (wadd 0x500000 32) c) := by
    decide +kernel
  obtain ⟨s, hs, hall⟩ := (Option.any_eq_true _ _).1 hrun
  obtain ⟨c, hc, hle, hnot⟩ := of_decide_eq_true hall
  refine ⟨s, hs, reachable_plainRun hs, c, hc, hle, fun hin => hnot ?_⟩
  exact (comparesInside_of_words (bothEnds_wordSized hs) (wadd_lt _ _)
    (madeFrom_doTsWrite _ _ _ _ _ _ c hc) hle).1 hin

end Cidl
