import Cidl.Records.Traced
import Cidl.Writes.Gather

/-!
# Moving a traced buffer and writing it

A program that has put a buffer together from pieces of mapped files may copy it
on with `ts_memcpy_traced` before it writes it.  Where the copy finds the right
records (`CopyOk`, `CutOk`), the destination is traced as the source was, and
`ts_write` credits the moved buffer in full (`tsMemcpyTraced_credited`).
-/

namespace Cidl

open SearchTree RecTree

namespace RecTree

variable {L : Libc} {T : RecTree} {p page src : ℕ}

/-! ## The source after the cut -/

/-- A safe cut moves the cursor of the first page back in its newest block, or leaves it. -/
theorem cutSource_cases (hrep : Rep L T) (hcut : T.CutOk src)
    (hw : (addr2PageNum src + 1) * pageSize ≤ wordSize) :
    T.cutSource src = T ∨ ∃ p e older k, T.findNode (addr2PageNum src) = some p ∧
      T.blocks p = e :: older ∧ 0 ≤ k ∧ k ≤ (T.recTreeNodes p).memRecIdx ∧
      T.cutSource src = T.setCursor p e k := by
  unfold cutSource
  split
  · exact Or.inl rfl
  · rename_i p hp
    have h := hrep.node p (mem_nodes_of_findNode hp)
    by_cases hb : Begins ((T.blocks p).length - 1) (T.recTreeNodes p).memRecIdx.toNat
        (T.below p (addr2PageNum src) src)
    · obtain ⟨-, hblock⟩ := findBlock_some h hw hb
      obtain ⟨hmem, hle⟩ := findBlock_eq_some hblock
      have hslot := findSlot_some h hw hb
      obtain ⟨hidx, -⟩ := findSlot_eq_some hslot
      obtain ⟨older, hblocks⟩ := h.blocks_eq
      unfold CutOk at hcut
      simp only [hp, hblocks, List.tail_cons] at hcut
      have hmem' := List.mem_reverse.1 hmem
      rw [hblocks, List.mem_cons] at hmem'
      -- the search passes over the older blocks
      have hnewest := hmem'.resolve_right fun hold =>
        Int.not_le.2 (hcut (by omega) _ hold) hle
      refine Or.inr ⟨p, _, older, _, hp, hblocks, Int.natCast_nonneg _, Int.le_of_lt hidx, ?_⟩
      rw [cutFirst, if_pos hb, hnewest]
    · exact Or.inl (if_neg hb)

theorem rep_cutSource (hrep : Rep L T) (hcut : T.CutOk src)
    (hw : (addr2PageNum src + 1) * pageSize ≤ wordSize) : Rep L (T.cutSource src) := by
  rcases cutSource_cases hrep hcut hw with heq | ⟨p, e, older, k, hp, hb, h₀, hk, heq⟩
  · rwa [heq]
  · rw [heq]
    exact rep_setCursor hrep (mem_nodes_of_findNode hp) hb h₀ hk

/-- The cut takes records away, and adds none. -/
theorem pageLists_cutSource (hrep : Rep L T) (hcut : T.CutOk src)
    (hw : (addr2PageNum src + 1) * pageSize ≤ wordSize) {r : MemRec}
    (hr : r ∈ (T.cutSource src).pageLists page) : r ∈ T.pageLists page := by
  rcases cutSource_cases hrep hcut hw with heq | ⟨p, e, older, k, hp, hb, -, hk, heq⟩
  · rwa [heq] at hr
  · rw [heq, pageLists, findNode_congr (shape_setCursor p e k)] at hr
    cases hq : T.findNode page with
    | none => rw [hq] at hr; cases hr
    | some q =>
      rw [hq] at hr
      rw [pageLists_of_findNode hq]
      by_cases hqp : q = p
      · subst hqp
        exact (records_setCursor_le hb hk).subset hr
      · have hqn := mem_nodes_of_findNode hq
        have he : e ∈ T.blocks p := by simp [hb]
        have hsame : SameNode T (T.setCursor p e k) q := sameNode_setCursor hqp fun hmem =>
          hqp (hrep.owned.owner_unique hqn (mem_nodes_of_findNode hp) hmem he)
        rwa [Option.elim_some, hsame.records (hrep.node q hqn).idx_le] at hr

/-! ## The calls of the copy -/

/-- A record of the range is copied to the place that corresponds to its own. -/
theorem dest_of_mem_rangeCalls (hrep : Rep L T) {dest n : ℕ} (hs : src + n < wordSize)
    (hd : dest + n < wordSize) {c : InsertCall} (hc : c ∈ T.rangeCalls dest src n) :
    src ≤ c.src ∧ c.src < src + n ∧ c.dest = dest + (c.src - src) := by
  obtain ⟨page, -, hc⟩ := List.mem_flatMap.1 hc
  obtain ⟨p, -, -, r, -, ⟨hlo, hhi⟩, rfl⟩ := (mem_rangePageCalls hrep).1 hc
  refine ⟨hlo, hhi, ?_⟩
  show wadd dest (wsub (getAddr page r.pageOffset) src) = dest + (getAddr page r.pageOffset - src)
  rw [wsub_of_le hlo (by omega), wadd_of_lt (by omega)]

theorem rangeCalls_dest_ascending (hrep : Rep L T) {dest n : ℕ} (hs : src + n < wordSize)
    (hd : dest + n < wordSize) :
    (T.rangeCalls dest src n).Pairwise fun c d => c.dest < d.dest := by
  refine (rangeCalls_ascending hrep hs).imp_of_mem fun {c d} hc hd' hlt => ?_
  obtain ⟨h₁, -, h₂⟩ := dest_of_mem_rangeCalls hrep hs hd hc
  obtain ⟨h₃, -, h₄⟩ := dest_of_mem_rangeCalls hrep hs hd hd'
  omega

/-- A copy that finds the right records inserts them into the cut tree. -/
theorem tsMemcpyTraced_rangeCalls {ofa : ℤ → Option ℕ} {dest n fuel : ℕ} (hrep : Rep L T)
    (hsrc : SourceApart T dest src n) (hfuel : ∀ p ∈ T.nodes, (T.blocks p).length ≤ fuel)
    (hok : T.CopyOk src n) :
    tsMemcpyTraced L (steadyInsert L ofa) fuel dest src n T =
      runAll (steadyInsert L ofa) (T.rangeCalls dest src n) (T.cutSource src) := by
  rw [tsMemcpyTraced_eq hrep hsrc hfuel, rangeCalls]
  refine congrArg (fun cs => runAll _ cs _) (List.flatMap_congr fun page hpage => ?_)
  exact (pageCalls_eq_iff hrep hsrc.noWrap hpage).2 (hok page hpage)

/-- What the destination hides does not depend on the cut. -/
theorem hidesLast_cutSource (hrep : Rep L T) {dest n : ℕ} (hsrc : SourceApart T dest src n)
    (hok : T.CopyOk src n) {c : InsertCall} (hc : c ∈ T.rangeCalls dest src n) :
    (T.cutSource src).HidesLast c.dest ↔ T.HidesLast c.dest := by
  obtain ⟨-, hfind, hsame⟩ := apart_cutSource [] hrep src
  obtain ⟨page, hpage, hc⟩ := List.mem_flatMap.1 hc
  rw [← (pageCalls_eq_iff hrep hsrc.noWrap hpage).2 (hok page hpage)] at hc
  have hne : addr2PageNum c.dest ≠ addr2PageNum src := by
    intro heq
    refine hsrc.apart page hpage c hc ?_
    rw [heq]
    exact mem_pagesFrom.2 ⟨Nat.le_refl _, Nat.div_le_div_right (Nat.le_add_right _ _)⟩
  unfold HidesLast
  rw [hfind]
  refine exists_congr fun q => and_congr_right fun hq => ?_
  have hqs := hsame _ hne q hq
  rw [hqs.node, hqs.records (hrep.node q (mem_nodes_of_findNode hq)).idx_le]

end RecTree

/-! ## Traced buffers -/

/-- The same pieces at another place. -/
theorem placed_shift (dest src : ℕ) (ps : List Piece) :
    placed dest ps = (placed src ps).map fun x => (dest + (x.1 - src), x.2) := by
  suffices h : ∀ k, placed (dest + k) ps =
      (placed (src + k) ps).map fun x => (dest + (x.1 - src), x.2) from h 0
  induction ps with
  | nil => exact fun _ => rfl
  | cons p ps ih =>
    intro k
    rw [placed, placed, List.map_cons, Nat.add_sub_cancel_left, Nat.add_assoc, Nat.add_assoc, ih]

/-- Where a record leads does not depend on its place. -/
theorem comparedTo_congr {M : FileMaps} {r r' : MemRec} (hname : r'.fileName = r.fileName)
    (hoffset : r'.fileOffset = r.fileOffset) : comparedTo M r' = comparedTo M r := by
  rw [comparedTo, comparedTo, hname, hoffset]

theorem comparedTo_recordOf (M : FileMaps) {c : InsertCall} {r : MemRec}
    (hname : c.fileName = r.fileName) (hoffset : c.fileOffset = r.fileOffset) (page : ℕ) :
    comparedTo M (recordOf c page) = comparedTo M r := comparedTo_congr hname hoffset

section

variable {E : Env} {s s' : State} {dest src : ℕ} {ps : List Piece}

/-- When a traced copy moves a traced buffer: it finds the right records, none of
its insertions goes to a source page or to a page that hides a record, and it
overwrites nothing that the pieces come from. -/
structure MovesBuffer (E : Env) (s : State) (dest src : ℕ) (ps : List Piece) : Prop where
  fits : dest + total ps < wordSize
  apart : SourceApart s.tree dest src (total ps)
  finds : s.tree.CopyOk src (total ps)
  cuts : s.tree.CutOk src
  fuel : ∀ p ∈ s.tree.nodes, (s.tree.blocks p).length ≤ E.fuel
  hides : ∀ c ∈ s.tree.rangeCalls dest src (total ps), ¬ s.tree.HidesLast c.dest
  sources : ∀ p ∈ ps, p.src + p.n ≤ dest ∨ dest + total ps ≤ p.src

/-- The destination is traced as the source was, and behind it there are no other
records than before. -/
theorem traces_tsMemcpyTraced (hrep : Rep E.libc s.tree) (hpos : ∀ p ∈ ps, 0 < p.n)
    (htraces : Traces s.maps s.tree s.mem src ps) (hm : MovesBuffer E s dest src ps)
    (h : stepWith E (steadyInsert E.libc) (.memcpyTraced dest src (total ps)) s = some s') :
    Rep E.libc s'.tree ∧ Traces s'.maps s'.tree s'.mem dest ps ∧ s'.maps = s.maps ∧
      s'.stats = s.stats ∧ ∀ page, ∀ r ∈ s'.tree.pageLists page,
        dest + total ps < getAddr page r.pageOffset → r ∈ s.tree.pageLists page := by
  have hs := hm.apart.noWrap
  have hd := hm.fits
  have hpage : (addr2PageNum src + 1) * pageSize ≤ wordSize :=
    page_fits hs (mem_pagesFrom.2 ⟨Nat.le_refl _, Nat.div_le_div_right (Nat.le_add_right _ _)⟩)
  obtain ⟨T, hT, rfl⟩ := Option.map_eq_some_iff.1 h
  rw [tsMemcpyTraced_rangeCalls hrep hm.apart hm.fuel hm.finds] at hT
  have hasc := rangeCalls_dest_ascending hrep hs hd
  have hrep₀ := rep_cutSource hrep hm.cuts hpage
  have hrep' : Rep E.libc T := rep_run_ascending hrep₀ hasc
    (fun c hc => (hidesLast_cutSource hrep hm.apart hm.finds hc).not.2 (hm.hides c hc)) hT
  have hlists := mem_pageLists_run hrep₀.tidyTree hasc hT
  refine ⟨hrep', ⟨fun y hy => ?_, fun y hy i hi => ?_⟩, rfl, rfl, fun page r hr hbeyond => ?_⟩
  · -- the record of the piece was copied to its new place
    rw [placed_shift dest src] at hy
    obtain ⟨x, hx, rfl⟩ := List.mem_map.1 hy
    obtain ⟨p, hp, r, hr, haddr, hcompared⟩ := htraces.records x hx
    obtain ⟨hlo, hhi⟩ := placed_bounds hx
    have hn := hpos _ (mem_of_mem_placed hx)
    obtain ⟨hpn, hkey⟩ := (findNode_eq_some hrep.owned).1 hp
    have hc : recordCall dest src (addr2PageNum x.1) r ∈ s.tree.rangeCalls dest src (total ps) :=
      List.mem_flatMap.2 ⟨addr2PageNum x.1,
        mem_pagesFrom.2 ⟨Nat.div_le_div_right hlo, Nat.div_le_div_right (by omega)⟩,
        (mem_rangePageCalls hrep).2 ⟨p, hpn, hkey, r, hr, by rw [haddr]; omega, rfl⟩⟩
    set c := recordCall dest src (addr2PageNum x.1) r with hcdef
    have hdest : c.dest = dest + (x.1 - src) := by
      rw [(dest_of_mem_rangeCalls hrep hs hd hc).2.2, show c.src = x.1 from haddr]
    dsimp only
    have hmem : recordOf c (addr2PageNum c.dest) ∈ T.pageLists (addr2PageNum c.dest) :=
      (hlists _ _).2 (Or.inl ⟨c, List.mem_filter.2 ⟨hc, decide_eq_true rfl⟩, rfl⟩)
    rw [← hdest]
    cases hq : T.findNode (addr2PageNum c.dest) with
    | none => rw [pageLists_of_none hq] at hmem; cases hmem
    | some q =>
      rw [pageLists_of_findNode hq] at hmem
      refine ⟨q, rfl, _, hmem, ?_, ?_⟩
      · rw [recordOf_pageOffset, getAddr_split (by omega)]
      · rw [comparedTo_recordOf s.maps (c := c) (r := r) rfl rfl, hcompared]
  · rw [placed_shift dest src] at hy
    obtain ⟨x, hx, rfl⟩ := List.mem_map.1 hy
    obtain ⟨hlo, hhi⟩ := placed_bounds hx
    have hsource := hm.sources _ (mem_of_mem_placed hx)
    dsimp only at hi ⊢
    have hat : dest + (x.1 - src) + i = dest + (x.1 + i - src) := by omega
    rw [hat, copyBytes_inside _ (by omega), copyBytes_outside _ (by omega),
      ← htraces.agrees x hx i hi]
    congr 1
    omega
  · rcases (hlists page r).1 hr with ⟨c, hc, rfl⟩ | ⟨hr, -⟩
    · obtain ⟨hc, hcpage⟩ := List.mem_filter.1 hc
      have hcpage := of_decide_eq_true hcpage
      obtain ⟨h₁, h₂, h₃⟩ := dest_of_mem_rangeCalls hrep hs hd hc
      rw [← hcpage, recordOf_pageOffset, getAddr_split (by omega)] at hbeyond
      omega
    · exact pageLists_cutSource hrep hm.cuts hpage hr

end

end Cidl
