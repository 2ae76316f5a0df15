import Cidl.Records.Kept
import Cidl.Writes.Relocate

/-!
# Growing a traced buffer

A program that has put a buffer together may ask `ts_realloc` for a larger block
before it writes it.  The C library carries the bytes over to the new block, and
`ts_realloc` moves the records, all but one exactly at the beginning of the old
block.  That one belongs to the first piece; `ts_write` of the grown buffer
credits all pieces but this one (`tsRealloc_credited`).
-/

namespace Cidl

open SearchTree RecTree

/-- What `realloc` does to the bytes of a block that it moves: `n` of them are
stored again at `ret`. -/
def carryBytes (ret ptr n : ℕ) (mem : ℕ → UInt8) : List Call :=
  (List.range n).map fun i => .store (ret + i) (mem (ptr + i))

/-- A call of `ts_realloc` for a block of `n` bytes that moves. -/
def grow (ret ptr n : ℕ) (mem : ℕ → UInt8) : List Call :=
  .realloc ret ptr (ptr + n) :: carryBytes ret ptr n mem

section

variable {E : Env} {insert : Insert} {s s' : State} {ret ptr n : ℕ} {p : Piece} {ps : List Piece}

theorem carryBytes_run (mem : ℕ → UInt8) :
    runAll (stepWith E insert) (carryBytes ret ptr n mem) s = some { s with
      mem := fun a => if ret ≤ a ∧ a < ret + n then mem (ptr + (a - ret)) else s.mem a } := by
  induction n with
  | zero =>
    refine congrArg (fun mem => some { s with mem := mem }) (funext fun a => ?_)
    rw [if_neg (by omega)]
  | succ n ih =>
    rw [carryBytes] at ih ⊢
    rw [List.range_succ, List.map_append, runAll_append, ih, Option.bind_some, List.map_singleton,
      runAll_cons]
    refine congrArg (fun mem => some { s with mem := mem }) (funext fun a => ?_)
    by_cases ha : a = ret + n
    · subst ha
      rw [Function.update_self, if_pos (by omega), Nat.add_sub_cancel_left]
    · rw [Function.update_of_ne ha]
      exact if_congr (by omega) rfl rfl

/-- The call moves the records and copies the bytes. -/
theorem grow_run (h : runAll (stepWith E insert) (grow ret ptr n s.mem) s = some s') :
    ∃ T, s.tree.tsRealloc E.libc (insert s.maps.openFileArray) E.fuel ret ptr (ptr + n) = some T ∧
      s' = { s with tree := T, mem := copyBytes ret ptr n s.mem } := by
  obtain ⟨t, ht, hcarry⟩ := runAll_cons_eq_some.1 h
  obtain ⟨T, hT, rfl⟩ := Option.map_eq_some_iff.1 ht
  rw [carryBytes_run] at hcarry
  cases hcarry
  exact ⟨T, hT, rfl⟩

/-- When a block with a traced buffer moves to a place of its own: no record is
moved to a page that hides one, and the new block takes no place that the pieces
come from. -/
structure GrowsBuffer (s : State) (ret ptr : ℕ) (ps : List Piece) : Prop where
  source : ptr + total ps < wordSize
  fits : ret + total ps < wordSize
  block : NewBlock ret ptr (ptr + total ps)
  hides : ∀ c ∈ s.tree.allMoves ret ptr (ptr + total ps), ¬ s.tree.HidesLast c.dest
  sources : ∀ p ∈ ps, p.src + p.n ≤ ret ∨ ret + total ps ≤ p.src

/-- The new block is traced as the old one was from the second piece on.  Its
records are those moved from inside of the old block and those there before. -/
theorem traces_tsRealloc (hrep : Rep E.libc s.tree) (hpos : ∀ q ∈ p :: ps, 0 < q.n)
    (htraces : Traces s.maps s.tree s.mem ptr (p :: ps))
    (hg : GrowsBuffer s ret ptr (p :: ps))
    (h : runAll (stepWith E (steadyInsert E.libc)) (grow ret ptr (total (p :: ps)) s.mem) s =
      some s') :
    Rep E.libc s'.tree ∧ Traces s'.maps s'.tree s'.mem (ret + p.n) ps ∧ s'.maps = s.maps ∧
      s'.stats = s.stats ∧ ∀ page, ∀ r ∈ s'.tree.pageLists page,
        (∃ page' ∈ pagesFrom (addr2PageNum ptr) (addr2PageNum (ptr + total (p :: ps))),
          ∃ q ∈ s.tree.pageLists page', RecTree.Inside ptr (ptr + total (p :: ps)) page' q ∧
            getAddr page r.pageOffset = ret + (getAddr page' q.pageOffset - ptr) ∧
            comparedTo s.maps r = comparedTo s.maps q) ∨ r ∈ s.tree.pageLists page := by
  obtain ⟨T, hT, rfl⟩ := grow_run h
  have hrun := tsRealloc_moved hrep hg.source hg.block hT
  have hret := hg.block.noWrap
  have hasc := allMoves_ascending hrep hg.source hret
  have hrep' : Rep E.libc T := rep_run_ascending hrep hasc hg.hides hrun
  have hlists := mem_pageLists_run hrep.tidyTree hasc hrun
  have hp : 0 < p.n := hpos p (List.mem_cons_self ..)
  have hfits := hg.fits
  rw [total_cons] at hfits
  refine ⟨hrep', ⟨fun y hy => ?_, fun y hy i hi => ?_⟩, rfl, rfl, fun page r hr => ?_⟩
  · -- the record of the piece lies strictly inside, so it was moved
    rw [placed_shift (ret + p.n) (ptr + p.n)] at hy
    obtain ⟨x, hx, rfl⟩ := List.mem_map.1 hy
    obtain ⟨hlo, hhi⟩ := placed_bounds hx
    have hn := hpos _ (List.mem_cons_of_mem _ (mem_of_mem_placed hx))
    obtain ⟨q, hq, r, hr, haddr, hcompared⟩ := htraces.records x (List.mem_cons_of_mem _ hx)
    have hin : RecTree.Inside ptr (ptr + total (p :: ps)) (addr2PageNum x.1) r := by
      rw [RecTree.Inside, haddr, total_cons]
      omega
    have hcall : moveCall ret ptr (addr2PageNum x.1) r ∈
        s.tree.allMoves ret ptr (ptr + total (p :: ps)) := by
      refine List.mem_flatMap.2 ⟨addr2PageNum x.1, ?_,
        mem_moveCalls.2 ⟨r, (pageLists_of_findNode hq).symm ▸ hr, hin, rfl⟩⟩
      rw [RecTree.Inside, haddr] at hin
      exact mem_pagesFrom_of_addr hin.1.le hin.2
    obtain ⟨hmem, hat⟩ := recordAt_moveCall hin hg.source hret rfl ((hlists _ _).2 (Or.inl
      ⟨_, List.mem_filter.2 ⟨hcall, decide_eq_true rfl⟩, rfl⟩))
    have hplace : ret + p.n + (x.1 - (ptr + p.n)) = ret + (getAddr (addr2PageNum x.1) r.pageOffset
        - ptr) := by omega
    obtain ⟨q', hq', -, hrecords⟩ := hrep'.pageList hmem
    dsimp only
    rw [hplace]
    refine ⟨q', hq', _, hrecords ▸ hmem, hat, ?_⟩
    rw [comparedTo_recordOf s.maps (r := r) rfl rfl, hcompared]
  · rw [placed_shift (ret + p.n) (ptr + p.n)] at hy
    obtain ⟨x, hx, rfl⟩ := List.mem_map.1 hy
    obtain ⟨hlo, hhi⟩ := placed_bounds hx
    have hsource := hg.sources _ (List.mem_cons_of_mem _ (mem_of_mem_placed hx))
    rw [total_cons] at hsource ⊢
    dsimp only at hi ⊢
    have hat : ret + p.n + (x.1 - (ptr + p.n)) + i = ret + (x.1 + i - ptr) := by omega
    rw [hat, copyBytes_inside _ (by omega), copyBytes_outside _ (by omega),
      ← htraces.agrees x (List.mem_cons_of_mem _ hx) i hi]
    congr 1
    omega
  · rcases (hlists page r).1 hr with ⟨c, hc, rfl⟩ | ⟨hr, -⟩
    · obtain ⟨hc, hcpage⟩ := List.mem_filter.1 hc
      have hcpage := of_decide_eq_true hcpage
      obtain ⟨page', hpage', hc⟩ := List.mem_flatMap.1 hc
      obtain ⟨q, hq, hin, rfl⟩ := mem_moveCalls.1 hc
      have hdest := moveCall_dest hin hg.source hret
      refine Or.inl ⟨page', hpage', q, hq, hin, ?_, comparedTo_recordOf s.maps rfl rfl page⟩
      rw [← hcpage, recordOf_pageOffset, getAddr_split, hdest]
      have := hin.1
      have := hin.2
      omega
    · exact Or.inr hr

end

end Cidl
