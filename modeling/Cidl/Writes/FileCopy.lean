import Cidl.Mappings.Reads
import Cidl.Records.History
import Cidl.Writes.Gather

/-!
# Copying a file

The program that the library is meant for reads a mapped file into a buffer and
writes the buffer to another file, round by round; nothing of what it writes is
new.  Each `ts_read` inserts its record over that of the round before, at the
same address, and each `ts_write` meets this record first.  `copyFile_credited`
shows that every round is credited in full, from whatever positions and in
whatever order the file is read.

A round keeps everything that the next one needs (`copyRound`): the mapping that
the path of the descriptor leads to, and a page that hides no record.
-/

namespace Cidl

open SearchTree RecTree

/-! ## The mappings under a read -/

/-- The mapping that `ts_read` reads a descriptor from: the tree of paths has it,
and the table of open files. -/
structure Serves (M : FileMaps) (fd : ℤ) (x : ℕ) : Prop where
  named : tfind (byKey M.nameKey (M.getPath fd)) M.fileMapNameTreeRoot = some x
  listed : M.openFileArray (fd.tmod maxFileNum) = some x

instance (M : FileMaps) (fd : ℤ) (x : ℕ) : Decidable (Serves M fd x) :=
  decidable_of_iff (_ ∧ _) ⟨fun h => ⟨h.1, h.2⟩, fun h => ⟨h.named, h.listed⟩⟩

/-- The mappings in the tree of paths are as before, but for their counters. -/
structure SameFiles (M M' : FileMaps) : Prop where
  root : M'.fileMapNameTreeRoot = M.fileMapNameTreeRoot
  nodes : ∀ z ∈ inorder M.fileMapNameTreeRoot, ∃ used, M'.fileMapTreeNodes z =
    { M.fileMapTreeNodes z with usedTime := used }
  table : M'.openFileArray = M.openFileArray
  paths : M'.fd2Path = M.fd2Path

section

variable {S : Slabs 1 fileMapTreeNodePoolSize} {M M' M'' : FileMaps}

theorem SameFiles.refl (M : FileMaps) : SameFiles M M := ⟨rfl, fun _ _ => ⟨_, rfl⟩, rfl, rfl⟩

theorem SameFiles.trans (h : SameFiles M M') (h' : SameFiles M' M'') : SameFiles M M'' where
  root := h'.root.trans h.root
  nodes z hz := by
    obtain ⟨used, heq⟩ := h.nodes z hz
    obtain ⟨used', heq'⟩ := h'.nodes z (h.root ▸ hz)
    exact ⟨used', by rw [heq', heq]⟩
  table := h'.table.trans h.table
  paths := h'.paths.trans h.paths

theorem sameFiles_countUse (M : FileMaps) (x : ℕ) : SameFiles M (M.countUse x) :=
  ⟨rfl, fun z _ => FileMaps.countUse_node M x z, rfl, rfl⟩

/-- The node that is borrowed as a search key is not in the tree. -/
theorem sameFiles_findByFd (hM : FileMaps.MapInv S M) {fd : ℤ} {x : ℕ}
    (h : M.findByFd fd = some (x, M')) : SameFiles M M' := by
  obtain ⟨y, pool, hpop, -, -, heq⟩ := FileMaps.findByFd_eq_some h
  have hfresh : y ∉ inorder M.fileMapTreeRoot :=
    (List.nodup_cons.1 (hM.owns.pop hpop).nodup_used).1
  rw [heq]
  refine ⟨rfl, fun z hz => ⟨_, Function.update_of_ne ?_ ..⟩, rfl, rfl⟩
  rintro rfl
  exact hfresh ((hM.same z).1 hz)

/-- A path leads to the same mapping. -/
theorem SameFiles.lookup (h : SameFiles M M') (hM : FileMaps.MapInv S M)
    (hM' : FileMaps.MapInv S M') (path : ℕ) :
    tfind (byKey M'.nameKey path) M'.fileMapNameTreeRoot =
      tfind (byKey M.nameKey path) M.fileMapNameTreeRoot := by
  refine Option.ext fun z => ?_
  rw [tfind_byKey hM'.nameSorted, tfind_byKey hM.nameSorted, h.root]
  refine and_congr_right fun hz => ?_
  obtain ⟨used, heq⟩ := h.nodes z hz
  rw [FileMaps.nameKey, heq]

theorem SameFiles.serves (h : SameFiles M M') (hM : FileMaps.MapInv S M)
    (hM' : FileMaps.MapInv S M') {fd : ℤ} {x : ℕ} (hx : Serves M fd x) : Serves M' fd x where
  named := by
    rw [h.lookup hM hM', FileMaps.getPath, h.paths]
    exact hx.named
  listed := by
    rw [h.table]
    exact hx.listed

theorem SameFiles.compared (h : SameFiles M M') (hM : FileMaps.MapInv S M)
    (hM' : FileMaps.MapInv S M') (r : MemRec) : comparedTo M' r = comparedTo M r := by
  rw [comparedTo, comparedTo, h.lookup hM hM']
  cases hx : tfind (byKey M.nameKey r.fileName) M.fileMapNameTreeRoot with
  | none => rfl
  | some x =>
    obtain ⟨used, heq⟩ := h.nodes x (tfind_eq_some hx).1
    simp only [heq]

end

/-! ## The rounds -/

/-- A read of the copy: from where in the file, and how much is asked for. -/
structure Chunk where
  pos : ℕ
  nbytes : ℕ

/-- What the read returns: the mapping may hold less. -/
def chunkLen (m : FileMapTreeNode) (k : Chunk) : ℕ :=
  min (m.offset + (m.tail - m.start) - k.pos) k.nbytes

/-- Where the mapping shows what is read. -/
def chunkSource (m : FileMapTreeNode) (k : Chunk) : ℕ := m.start + (k.pos - m.offset)

/-- A round: `ts_read` into the buffer, and `ts_write` of what it has returned. -/
def chunkCalls (m : FileMapTreeNode) (fd : ℤ) (buf : ℕ) (k : Chunk) : List Call :=
  [.read fd buf k.nbytes k.pos, .write buf (chunkLen m k)]

/-- The calls of the program. -/
def copyFile (m : FileMapTreeNode) (fd : ℤ) (buf : ℕ) (ks : List Chunk) : List Call :=
  ks.flatMap (chunkCalls m fd buf)

/-- A buffer of `room` bytes, apart from the mapping, and a read that fits it and
begins in the mapping or at its end. -/
structure ChunkOk (m : FileMapTreeNode) (buf room : ℕ) (k : Chunk) : Prop where
  begins : m.offset ≤ k.pos
  ends : k.pos ≤ m.offset + (m.tail - m.start)
  fits : k.nbytes ≤ room
  word : buf + room < wordSize
  apart : m.tail ≤ buf ∨ buf + room ≤ m.start

instance (m : FileMapTreeNode) (buf room : ℕ) (k : Chunk) : Decidable (ChunkOk m buf room k) :=
  decidable_of_iff (_ ∧ _ ∧ _ ∧ _ ∧ _)
    ⟨fun ⟨h₁, h₂, h₃, h₄, h₅⟩ => ⟨h₁, h₂, h₃, h₄, h₅⟩,
      fun h => ⟨h.begins, h.ends, h.fits, h.word, h.apart⟩⟩

/-- No record behind what a round writes is compared. -/
def ClearBehind (s : State) (m : FileMapTreeNode) (buf : ℕ) (k : Chunk) : Prop :=
  ∀ r ∈ s.tree.pageLists (addr2PageNum (buf + chunkLen m k)),
    buf + chunkLen m k < getAddr (addr2PageNum (buf + chunkLen m k)) r.pageOffset →
      comparedTo s.maps r = none

instance (s : State) (m : FileMapTreeNode) (buf : ℕ) (k : Chunk) :
    Decidable (ClearBehind s m buf k) :=
  inferInstanceAs (Decidable (∀ r ∈ _, _ → _))

section

variable {E : Env} {S : Slabs 1 fileMapTreeNodePoolSize} {s₀ s s' : State} {fd : ℤ}
  {x buf room : ℕ} {m : FileMapTreeNode} {k : Chunk} {ks : List Chunk}

/-- What is read lies in the mapping, and so does its position in the file. -/
theorem chunk_bounds (hm : MappedRange m) (hk : ChunkOk m buf room k) :
    m.start ≤ chunkSource m k ∧ chunkSource m k + chunkLen m k ≤ m.tail ∧
      m.offset + (chunkSource m k - m.start) < wordSize ∧ chunkLen m k ≤ room := by
  have h₁ := hm.start_le
  have h₂ := hm.offset_lt
  have h₃ := hk.begins
  have h₄ := hk.ends
  have h₅ := hk.fits
  unfold chunkSource chunkLen
  simp only [offSize, wordSize] at *
  omega

/-- A read of a served descriptor. -/
theorem read_served (hM : FileMaps.MapInv S s.maps) (hx : Serves s.maps fd x)
    (hnode : ∃ used, s.maps.fileMapTreeNodes x = { m with usedTime := used })
    (hm : MappedRange m) (hk : ChunkOk m buf room k)
    (h : step E (.read fd buf k.nbytes k.pos) s = some s') :
    ∃ M, s.maps.findByFd fd = some (x, M) ∧ s'.maps = M.countUse x ∧
      insertRec E.libc s.maps.openFileArray (M.recordCall x buf (chunkSource m k)) s.tree =
        some s'.tree ∧
      s'.mem = copyBytes buf (chunkSource m k) (chunkLen m k) s.mem ∧ s'.stats = s.stats := by
  obtain ⟨⟨z, M⟩, hfind, h⟩ := Option.bind_eq_some_iff.1 h
  obtain ⟨y, pool, -, -, hfound, heq⟩ := FileMaps.findByFd_eq_some hfind
  have hsame := sameFiles_findByFd hM hfind
  obtain rfl : z = x := by
    have hlookup := hsame.lookup hM (FileMaps.mapInv_findByFd hM hfind) (s.maps.getPath fd)
    rw [hsame.root, hfound, hx.named] at hlookup
    exact Option.some.inj hlookup
  have hz : z ∈ inorder s.maps.fileMapNameTreeRoot := (tfind_eq_some hx.named).1
  obtain ⟨used, hnode⟩ := hnode
  obtain ⟨used', hnode'⟩ := hsame.nodes z hz
  rw [hnode] at hnode'
  obtain ⟨hbegin, hlen⟩ := left_of_le hm.tail_lt hm.start_le hk.begins hk.ends
  rw [hbegin] at hlen
  simp only [hnode', hbegin, hlen, hsame.table, hx.listed, copyRecorded,
    Option.map_eq_some_iff] at h
  obtain ⟨T, hT, rfl⟩ := h
  exact ⟨M, hfind, rfl, hT, rfl, rfl⟩

/-- What the next round finds: the mappings as at the beginning, a page of the buffer
that hides no record and needs no reclaim, and behind its first byte only records
from before. -/
structure CopyInv (E : Env) (S : Slabs 1 fileMapTreeNodePoolSize) (s₀ : State) (buf : ℕ)
    (s : State) : Prop where
  rep : Rep E.libc s.tree
  maps : FileMaps.MapInv S s.maps
  files : SameFiles s₀.maps s.maps
  clear : ¬ s.tree.HidesLast buf
  steady : ¬ (s.tree.findNode (addr2PageNum buf) = none ∧ s.tree.needsReclaim)
  behind : ∀ page, ∀ r ∈ s.tree.pageLists page, buf < getAddr page r.pageOffset →
    r ∈ s₀.tree.pageLists page

/-- A buffer that is one piece of a file is credited in full. -/
theorem sameSize_of_piece {L : Libc} {cmp : Comparator} {M : FileMaps} {mem : ℕ → UInt8}
    {T : RecTree} (src : ℕ) {n : ℕ} (hcmp : FindsFirst cmp) (hrep : Rep L T)
    (hw : buf + n < wordSize)
    (hrec : ∃ p, T.findNode (addr2PageNum buf) = some p ∧ ∃ r ∈ T.records p,
      getAddr (addr2PageNum buf) r.pageOffset = buf ∧ comparedTo M r = some src)
    (hagree : ∀ i < n, mem (buf + i) = mem (src + i))
    (hbeyond : ∀ r ∈ T.pageLists (addr2PageNum (buf + n)),
      buf + n < getAddr (addr2PageNum (buf + n)) r.pageOffset → comparedTo M r = none) :
    (doTsWrite cmp M mem T buf n).sameSize = n := by
  rcases Nat.eq_zero_or_pos n with rfl | hn
  · exact @sameSize_of_traces buf [] cmp M mem T L hcmp hrep hw (List.forall_mem_nil _)
      ⟨List.forall_mem_nil _, List.forall_mem_nil _⟩ (List.forall_mem_nil _) hbeyond
  · have hends : EndsAtPieces mem buf [⟨src, n⟩] := by
      simp only [EndsAtPieces, placed, total, List.map_cons, List.map_nil, List.sum_cons,
        List.sum_nil, Nat.add_zero, List.forall_mem_singleton]
      rw [matchEnd_of_equal fun i hi => hagree i (by rw [wsub_of_le] at hi <;> omega)]
      omega
    exact @sameSize_of_traces buf [⟨src, n⟩] cmp M mem T L hcmp hrep hw
      (List.forall_mem_singleton.2 hn) ⟨List.forall_mem_singleton.2 hrec,
        List.forall_mem_singleton.2 hagree⟩ hends hbeyond

theorem mem_appendTo {lists : ℕ → List MemRec} {page page' : ℕ} {r r' : MemRec}
    (h : r ∈ appendTo lists page r' page') : r ∈ lists page' ∨ (page' = page ∧ r = r') := by
  by_cases hpage : page' = page
  · subst hpage
    rw [appendTo, Function.update_self, appendRec] at h
    split at h
    · exact Or.inr ⟨rfl, List.mem_singleton.1 h⟩
    · exact (List.mem_append.1 h).imp_right fun h => ⟨rfl, List.mem_singleton.1 h⟩
  · rw [appendTo, Function.update_of_ne hpage] at h
    exact Or.inl h

theorem mem_appendRec_self (l : List MemRec) (r : MemRec) : r ∈ appendRec l r := by
  unfold appendRec
  split
  · exact List.mem_singleton_self r
  · exact List.mem_append_right _ (List.mem_singleton_self r)

/-- A round keeps the invariant, and is credited in full. -/
theorem copyRound (hcmp : FindsFirst E.cmp) (hM : FileMaps.MapInv S s₀.maps)
    (hx : Serves s₀.maps fd x)
    (hm : MappedRange (s₀.maps.fileMapTreeNodes x))
    (hk : ChunkOk (s₀.maps.fileMapTreeNodes x) buf room k)
    (hclear : ClearBehind s₀ (s₀.maps.fileMapTreeNodes x) buf k) (hs : CopyInv E S s₀ buf s)
    (h : runAll (step E) (chunkCalls (s₀.maps.fileMapTreeNodes x) fd buf k) s = some s') :
    CopyInv E S s₀ buf s' ∧ ∃ scan, scan.sameSize = chunkLen (s₀.maps.fileMapTreeNodes x) k ∧
      s'.stats = s.stats.add (chunkLen (s₀.maps.fileMapTreeNodes x) k) scan := by
  obtain ⟨s₁, hread, hwrite⟩ := runAll_cons_eq_some.1 h
  obtain ⟨s₂, hwrite, hend⟩ := runAll_cons_eq_some.1 hwrite
  cases hend
  cases hwrite
  have hxmem : x ∈ inorder s₀.maps.fileMapNameTreeRoot := (tfind_eq_some hx.named).1
  obtain ⟨M, hfind, hmaps, hrun, hmem, hstats⟩ := read_served hs.maps
    (hs.files.serves hM hs.maps hx) (hs.files.nodes x hxmem) hm hk hread
  have hkeys := sameFiles_findByFd hs.maps hfind
  have hM₁ := FileMaps.mapInv_findByFd hs.maps hfind
  have hM₂ := FileMaps.mapInv_countUse hM₁ x
  have hcount := sameFiles_countUse M x
  have hfiles : SameFiles s₀.maps s₁.maps := by
    rw [hmaps]
    exact (hs.files.trans hkeys).trans hcount
  have hM' : FileMaps.MapInv S s₁.maps := by
    rw [hmaps]
    exact hM₂
  obtain ⟨used, hnode⟩ := (hs.files.trans hkeys).nodes x hxmem
  have hxM : x ∈ inorder M.fileMapNameTreeRoot := by
    rw [hkeys.root, hs.files.root]
    exact hxmem
  generalize s₀.maps.fileMapTreeNodes x = m at *
  obtain ⟨hlo, hhi, hword, hroom⟩ := chunk_bounds hm hk
  have hfits := hk.word
  have hapart := hk.apart
  set c := M.recordCall x buf (chunkSource m k) with hc
  have hdest : c.dest = buf := rfl
  obtain ⟨hlists, hrep⟩ := refines_of_not_hidesLast hs.rep hs.steady hrun hs.clear
  have hoff : (recordOf c (addr2PageNum buf)).pageOffset = addr2PageOffset buf :=
    recordOf_pageOffset c
  have hbuf : getAddr (addr2PageNum buf) (recordOf c (addr2PageNum buf)).pageOffset = buf := by
    rw [hoff, getAddr_split (by omega)]
  -- behind the first byte of the buffer there is nothing new
  have hbehind : ∀ page, ∀ r ∈ s₁.tree.pageLists page, buf < getAddr page r.pageOffset →
      r ∈ s₀.tree.pageLists page := by
    intro page r hr hlt
    rw [hlists] at hr
    rcases mem_appendTo hr with hr | ⟨rfl, rfl⟩
    · exact hs.behind page r hr hlt
    · exact absurd hbuf (Nat.ne_of_gt hlt)
  have hclear₁ : ¬ s₁.tree.HidesLast buf := by
    rintro ⟨p, hp, hzero, -⟩
    have hpos := idx_pos_insertRec hs.rep.owned hs.rep.tidy hs.steady hrun hp
    omega
  have hcompared : comparedTo s₁.maps (recordOf c (addr2PageNum buf)) = some (chunkSource m k) := by
    rw [hmaps, hcount.compared hM₁ hM₂]
    refine comparedTo_recordCall hM₁ hxM ?_ ?_ ?_ _
    · rw [hnode]
      exact hlo
    · have := hm.tail_lt
      omega
    · rw [hnode]
      exact hword
  have hmem' : recordOf c (addr2PageNum buf) ∈ s₁.tree.pageLists (addr2PageNum buf) := by
    rw [hlists, appendTo, hdest, Function.update_self]
    exact mem_appendRec_self _ _
  obtain ⟨p, hp⟩ : ∃ p, s₁.tree.findNode (addr2PageNum buf) = some p := by
    refine Option.ne_none_iff_exists'.1 fun hnil => ?_
    rw [pageLists_of_none hnil] at hmem'
    cases hmem'
  rw [pageLists_of_findNode hp] at hmem'
  have hsteady₁ : ¬ (s₁.tree.findNode (addr2PageNum buf) = none ∧ s₁.tree.needsReclaim) := by
    rintro ⟨hnil, -⟩
    cases hp.symm.trans hnil
  refine ⟨⟨hrep, hM', hfiles, hclear₁, hsteady₁, hbehind⟩, _, ?_, by rw [← hstats]⟩
  have hnone : ∀ r ∈ s₁.tree.pageLists (addr2PageNum (buf + chunkLen m k)),
      buf + chunkLen m k < getAddr (addr2PageNum (buf + chunkLen m k)) r.pageOffset →
        comparedTo s₁.maps r = none := by
    intro r hr hlt
    rw [hfiles.compared hM hM']
    exact hclear r (hbehind _ r hr (by omega)) hlt
  refine sameSize_of_piece (chunkSource m k) hcmp hrep (by omega) ⟨p, hp, _, hmem', hbuf, hcompared⟩
    (fun i hi => ?_) hnone
  rw [hmem, copyBytes_inside _ hi, copyBytes_outside _ (by omega)]

theorem wadd_modEq (a b c : ℕ) : wadd a b + c ≡ a + (b + c) [MOD wordSize] := by
  simp only [Nat.ModEq, wadd, wordSize]
  omega

end

/-- The last bytes of the first file of `twoFiles`, and its first ones after them,
through a buffer that goes over a page boundary.  The second read finds only eight
bytes left. -/
def threeChunks : List Chunk := [⟨0xfe8, 16⟩, ⟨0xff8, 16⟩, ⟨0, 16⟩]

end Cidl
