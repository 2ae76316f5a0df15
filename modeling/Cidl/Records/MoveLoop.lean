import Cidl.Lib.Loop
import Cidl.Records.Bounds
import Cidl.Records.Traced

/-!
# The loop of `ts_realloc` over the blocks of a page

The do-while loop over the blocks of a page has no bound in the source.  Here it
is a transition system, one iteration a step (`PageLoop.next`), and
`PageLoop.dom_iff_run` connects that to the loop of the model, which has one.

* An iteration that finds the slot at its limit at or behind `tail` does
  `continue` without taking the next block (`Probes`): it is repeated for ever.
* Otherwise the loop goes on to the block in front.  That is a newer one of the
  same page, as long as the insertions of the iteration do not hand the block
  itself out again with others in front of it, and for that an iteration makes
  too few insertions (`Held`), unless one of them reclaims garbage.
* The place of the block in the list of the page grows, and the list cannot
  outgrow the pool (`rank`), so the loop ends (`advances_iff`).

Where the insertions of each iteration are known before the loop begins, it
follows a script (`Follows`).  Then a loop that returns has made these
insertions, and whether an iteration probes is a question about a run of them.
-/

namespace Cidl

open SearchTree Shape StateTransition

namespace RecTree

variable {L : Libc} {T T' U : RecTree} {ofa : ℤ → Option ℕ} {p q e : ℕ} {B : ℕ}

/-! ## The loop as a transition system -/

/-- The block loop on one page: what stays fixed while it runs. -/
structure PageLoop where
  ret : ℕ
  ptr : ℕ
  tail : ℕ
  start : ℕ
  node : ℕ
  res : RecTree → ℕ
  mostRecBlock : ℕ

namespace PageLoop

variable (l : PageLoop) (insert : InsertCall → RecTree → Option RecTree)

/-- `uplimit`, in the iteration for the block `e`. -/
def uplimit (T : RecTree) (e : ℕ) : ℤ :=
  if e = l.mostRecBlock then (T.recTreeNodes (l.res T)).memRecIdx else memRecPerEntry

/-- The slot at the limit lies at or behind `tail`, and the iteration does
`continue`. -/
def Probes (x : ℕ × RecTree) : Prop :=
  l.tail ≤ getAddr l.start
    (x.2.slot (x.2.recBlockEntries x.1).recArr (l.uplimit x.2 x.1)).pageOffset

instance (x : ℕ × RecTree) : Decidable (l.Probes x) := inferInstanceAs (Decidable (_ ≤ _))

/-- The loop over the records of the block. -/
def pass (x : ℕ × RecTree) : Option RecTree :=
  moveRecs insert l.ret l.ptr l.tail l.start (x.2.recBlockEntries x.1).recArr
    (List.range (l.uplimit x.2 x.1).toNat) x.2

/-- One iteration: from a block and the state it is looked at in to the next. -/
def next (x : ℕ × RecTree) : Option (ℕ × RecTree) :=
  if l.Probes x then some x
  else (l.pass insert x).bind fun T => (T.tailqPrev x.1).map fun e => (e, T)

/-- The loop of the model, with its bound. -/
def run (fuel : ℕ) (e : Option ℕ) (T : RecTree) : Option RecTree :=
  moveBlocks insert l.ret l.ptr l.tail l.start l.res l.mostRecBlock fuel e T

variable {l insert} {x y z : ℕ × RecTree}

theorem run_succ (fuel e : ℕ) (T : RecTree) : l.run insert (fuel + 1) (some e) T =
    if l.Probes (e, T) then l.run insert fuel (some e) T
    else (l.pass insert (e, T)).bind fun U => l.run insert fuel (U.tailqPrev e) U := rfl

theorem next_of_probes (h : l.Probes x) : l.next insert x = some x := if_pos h

theorem next_eq (h : ¬ l.Probes x) : l.next insert x =
    (l.pass insert x).bind fun T => (T.tailqPrev x.1).map fun e => (e, T) := if_neg h

/-- What an iteration does that has a next one. -/
theorem next_eq_some (h : ¬ l.Probes x) (hnext : l.next insert x = some y) :
    l.pass insert x = some y.2 ∧ y.2.tailqPrev x.1 = some y.1 := by
  rw [next_eq h] at hnext
  obtain ⟨U, hU, hprev⟩ := Option.bind_eq_some_iff.1 hnext
  obtain ⟨e', he', rfl⟩ := Option.map_eq_some_iff.1 hprev
  exact ⟨hU, he'⟩

/-- The two ways an iteration can be the last one. -/
theorem next_eq_none (h : l.next insert x = none) : ¬ l.Probes x ∧ (l.pass insert x = none ∨
    ∃ U, l.pass insert x = some U ∧ U.tailqPrev x.1 = none) := by
  have hprobe : ¬ l.Probes x := by
    intro hprobe
    rw [next_of_probes hprobe] at h
    exact Option.some_ne_none _ h
  refine ⟨hprobe, ?_⟩
  rw [next_eq hprobe] at h
  cases hU : l.pass insert x with
  | none => exact Or.inl rfl
  | some U =>
    rw [hU] at h
    exact Or.inr ⟨U, rfl, Option.map_eq_none_iff.1 h⟩

/-- The loop of the model returns from every state that the loop comes through
on its way to a last block. -/
theorem run_of_reaches (h : Reaches (l.next insert) x y) (hprobe : ¬ l.Probes y)
    (hpass : l.pass insert y = some U) (hlast : U.tailqPrev y.1 = none) :
    ∃ fuel, l.run insert fuel (some x.1) x.2 = some U := by
  induction h using Relation.ReflTransGen.head_induction_on with
  | refl =>
    refine ⟨1, ?_⟩
    rw [run_succ, if_neg hprobe, hpass, Option.bind_some, hlast]
    rfl
  | head hnext _ ih =>
    obtain ⟨fuel, hfuel⟩ := ih
    refine ⟨fuel + 1, ?_⟩
    rename_i a b _
    rw [run_succ]
    by_cases ha : l.Probes a
    · rw [next_of_probes ha] at hnext
      cases hnext
      rw [if_pos ha]
      exact hfuel
    · obtain ⟨hU, hprev⟩ := next_eq_some ha hnext
      rw [if_neg ha, hU, Option.bind_some, hprev]
      exact hfuel

@[simp] theorem run_none (fuel : ℕ) : l.run insert fuel none T = some T := by
  cases fuel <;> rfl

/-- The first iteration of a loop that returns. -/
theorem run_eq_some {fuel : ℕ} (h : l.run insert fuel (some e) T = some T') :
    ¬ l.Probes (e, T) ∧ ∃ fuel' U, l.pass insert (e, T) = some U ∧
      l.run insert fuel' (U.tailqPrev e) U = some T' := by
  induction fuel with
  | zero => cases h
  | succ fuel ih =>
    rw [run_succ] at h
    split at h
    · exact ih h
    · rename_i hprobe
      obtain ⟨U, hU, hrun⟩ := Option.bind_eq_some_iff.1 h
      exact ⟨hprobe, fuel, U, hU, hrun⟩

/-- A loop that returns does so with any greater bound. -/
theorem run_mono {fuel fuel' : ℕ} {e : Option ℕ} (hle : fuel ≤ fuel')
    (h : l.run insert fuel e T = some T') : l.run insert fuel' e T = some T' := by
  induction fuel generalizing fuel' e T with
  | zero =>
    cases e with
    | none => rwa [run_none] at h ⊢
    | some e => cases h
  | succ fuel ih =>
    obtain ⟨k, rfl⟩ := Nat.exists_eq_add_of_le' hle
    cases e with
    | none => rwa [run_none] at h ⊢
    | some e =>
      rw [show k + (fuel + 1) = (k + fuel) + 1 from rfl, run_succ]
      rw [run_succ] at h
      have hle' : fuel ≤ k + fuel := Nat.le_add_left fuel k
      split at h
      · rename_i hprobe
        rw [if_pos hprobe]
        exact ih hle' h
      · rename_i hprobe
        rw [if_neg hprobe]
        obtain ⟨U, hU, hrun⟩ := Option.bind_eq_some_iff.1 h
        exact Option.bind_eq_some_iff.2 ⟨U, hU, ih hle' hrun⟩

theorem dom_of_run {fuel : ℕ} (h : l.run insert fuel (some e) T = some T') :
    (eval (l.next insert) (e, T)).Dom := by
  induction fuel generalizing e T with
  | zero => cases h
  | succ fuel ih =>
    rw [run_succ] at h
    split at h
    · exact ih h
    · rename_i hprobe
      obtain ⟨U, hU, hrun⟩ := Option.bind_eq_some_iff.1 h
      have hnext : l.next insert (e, T) = (l.pass insert (e, T)).bind fun U =>
          (U.tailqPrev e).map fun e => (e, U) := next_eq hprobe
      rw [hU, Option.bind_some] at hnext
      cases hprev : U.tailqPrev e with
      | none =>
        rw [hprev] at hnext
        exact dom_of_none hnext
      | some e' =>
        rw [hprev] at hnext hrun
        exact dom_of_next hnext (ih hrun)

/-- The loop ends where the model's loop returns for some bound, or where an
insertion ends the program. -/
theorem dom_iff_run : (eval (l.next insert) (e, T)).Dom ↔
    (∃ fuel T', l.run insert fuel (some e) T = some T') ∨
      ∃ y, Reaches (l.next insert) (e, T) y ∧ ¬ l.Probes y ∧ l.pass insert y = none := by
  constructor
  · intro hdom
    obtain ⟨y, hy, hnone⟩ := dom_iff.1 hdom
    obtain ⟨hprobe, hfail | ⟨U, hU, hlast⟩⟩ := next_eq_none hnone
    · exact Or.inr ⟨y, hy, hprobe, hfail⟩
    · obtain ⟨fuel, hrun⟩ := run_of_reaches hy hprobe hU hlast
      exact Or.inl ⟨fuel, U, hrun⟩
  · rintro (⟨fuel, T', hrun⟩ | ⟨y, hy, hprobe, hfail⟩)
    · exact dom_of_run hrun
    · refine dom_iff.2 ⟨y, hy, ?_⟩
      rw [next_eq hprobe, hfail]
      rfl

end PageLoop

/-! ## Where the block of an iteration is -/

/-- Where the block `e` of the page of `node` is after `n` insertions: in its
place in front of `older`; given back; or given back and handed out again, then
as the first block of a node, with at most `n` records. -/
def Held (node e : ℕ) (older : List ℕ) (n : ℤ) (T : RecTree) : Prop :=
  (node ∈ T.nodes ∧ ∃ front, T.blocks node = front ++ e :: older) ∨
  (T.recBlockEntries e).queue = none ∨
  ∃ q ∈ T.nodes, (T.blocks q).head? = some e ∧ (T.recTreeNodes q).memRecIdx ≤ n

theorem queue_withdrawBlocks {h : ℕ} {es : List ℕ} (hT : withdrawBlocks h es T = some T') :
    ∀ e, e ∈ es ∨ (T.recBlockEntries e).queue = none → (T'.recBlockEntries e).queue = none := by
  induction es generalizing T with
  | nil =>
    cases hT
    exact fun e he => he.resolve_left List.not_mem_nil
  | cons f es ih =>
    obtain ⟨U, hU, hrest⟩ := runAll_cons_eq_some.1 hT
    obtain ⟨ap, ep, -, -, rfl⟩ := withdrawBlock_eq_some.1 hU
    intro e he
    refine ih hrest e ?_
    by_cases hef : e = f
    · refine Or.inr ?_
      rw [hef]
      simp [tailqRemove, setEntry]
    · rcases he with he | he
      · exact Or.inl ((List.mem_cons.1 he).resolve_left hef)
      · refine Or.inr ?_
        simpa [tailqRemove, setEntry, setQueue, hef] using he

theorem queue_setCursor (f : ℕ) (idx : ℤ) (e : ℕ) :
    ((T.setCursor p f idx).recBlockEntries e).queue = (T.recBlockEntries e).queue :=
  congrFun (congrArg Shape.queueOf (shape_setCursor p f idx)) e

/-- Another node with the block in front. -/
theorem held_of_head {node n : ℕ} {older : List ℕ} (hq : q ∈ T.nodes)
    (hb : (T.blocks q).head? = some e) (hidx : (T.recTreeNodes q).memRecIdx ≤ n) :
    Held node e older n T := Or.inr (Or.inr ⟨q, hq, hb, hidx⟩)

/-- Clearing a page gives back all in front of the block, or the block too. -/
theorem held_clearPage {node dest n : ℕ} {older : List ℕ}
    (ho : Owned L T.shape) (hp : p ∈ T.nodes) (hheld : Held node e older n T)
    (h : clearPage p dest T = some T') : Held node e older n T' := by
  rcases clearPage_blocks ho hp h with ⟨-, rfl⟩ | ⟨-, newer, oldest, U, hb, hU, rfl⟩
  · exact hheld
  obtain ⟨hoU, w⟩ := owned_withdrawBlocks ho hp hb hU
  have hgone := queue_withdrawBlocks hU
  have hpU : U.blocks p = [oldest] := w.blocks
  have hsame : ∀ q ∈ T.nodes, q ≠ p → U.blocks q = T.blocks q := fun q hq hne =>
    (sameNode_withdrawn ho hp hq hne hb w).blocks
  have hnodes : (U.setCursor p oldest 0).nodes = T.nodes := by simp [RecTree.nodes, ← w.nodes]
  rcases hheld with ⟨hnode, front, hfront⟩ | hqueue | ⟨q, hq, hhead, hidx⟩
  · by_cases hne : node = p
    · subst hne
      rcases List.eq_nil_or_concat' older with rfl | ⟨older', last, rfl⟩
      · -- the oldest block stays
        have heq : newer ++ [oldest] = front ++ [e] := hb.symm.trans hfront
        obtain ⟨-, rfl⟩ := List.append_inj' heq rfl |>.imp id List.singleton_inj.1
        refine Or.inl ⟨hnodes ▸ hp, [], ?_⟩
        rw [blocks_setCursor, hpU]
        rfl
      · refine Or.inr (Or.inl ?_)
        rw [queue_setCursor]
        refine hgone e (Or.inl ?_)
        have heq : newer ++ [oldest] = (front ++ e :: older') ++ [last] := by
          rw [← hb, hfront]
          simp
        obtain ⟨rfl, -⟩ := List.append_inj' heq rfl
        simp
    · refine Or.inl ⟨hnodes ▸ hnode, front, ?_⟩
      rw [blocks_setCursor, hsame node hnode hne, hfront]
  · refine Or.inr (Or.inl ?_)
    rw [queue_setCursor]
    exact hgone e (Or.inr hqueue)
  · by_cases hne : q = p
    · subst hne
      rw [hb] at hhead
      cases newer with
      | nil =>
        cases hhead
        refine held_of_head (hnodes ▸ hq) ?_ ?_
        · rw [blocks_setCursor, hpU]
          rfl
        · rw [setCursor_node]
          exact Int.natCast_nonneg n
      | cons f newer =>
        cases hhead
        refine Or.inr (Or.inl ?_)
        rw [queue_setCursor]
        exact hgone e (Or.inl (List.mem_cons_self ..))
    · refine held_of_head (hnodes ▸ hq) ?_ ?_
      · rw [blocks_setCursor, hsame q hq hne]
        exact hhead
      · rw [show (U.setCursor p oldest 0).recTreeNodes q = U.recTreeNodes q from
          Function.update_of_ne hne _ _, w.recTreeNodes]
        exact hidx

/-- A new node may get the block, if it is free. -/
theorem held_newTreeNode {node pageNum n : ℕ} {older : List ℕ} (ho : Owned L T.shape)
    (hnew : T.findNode pageNum = none) (hheld : Held node e older n T)
    (h : newTreeNode L pageNum T = some (p, T')) : Held node e older n T' := by
  obtain ⟨-, -, hsame⟩ := cleared_newTreeNode ho h
  have hmem : ∀ q, q ∈ T'.nodes ↔ q = p ∨ q ∈ T.nodes := fun q => by
    rw [(owned_newTreeNode ho hnew h).2.mem_iff, List.mem_cons]
  rcases hheld with ⟨hnode, front, hfront⟩ | hqueue | ⟨q, hq, hhead, hidx⟩
  · refine Or.inl ⟨(hmem node).2 (Or.inr hnode), front, ?_⟩
    rw [(hsame node hnode).blocks, hfront]
  · have hp := (hmem p).2 (Or.inl rfl)
    obtain ⟨head, f, arr, np, hp', ep, ap, -, -, -, -, rfl⟩ := newTreeNode_eq_some h
    by_cases hef : e = f
    · subst hef
      refine held_of_head hp ?_ ?_
      · simp [RecTree.blocks, Shape.blocks, shape, withNode]
      · simp [withNode]
    · refine Or.inr (Or.inl ?_)
      simpa [withNode, hef] using hqueue
  · refine held_of_head ((hmem q).2 (Or.inr hq)) ?_ ?_
    · rw [(hsame q hq).blocks]
      exact hhead
    · rw [(hsame q hq).node]
      exact hidx

/-- Writing a record puts no block in front of one that was handed out less
than a block of insertions ago. -/
theorem held_writeRec {node pageNum n : ℕ} {older : List ℕ} {c : InsertCall}
    (ho : Owned L T.shape) (hp : T.findNode pageNum = some p) (hn : n < memRecPerEntry)
    (hheld : Held node e older n T) (h : writeRec L c pageNum p T = some T') :
    Held node e older (n + 1 : ℕ) T' := by
  have hpn := mem_nodes_of_findNode hp
  rcases writeRec_eq_some hp h with ⟨-, rfl⟩ | ⟨hfull, f, arr, ep, ap, hf, ha, rfl⟩
  · rcases hheld with ⟨hnode, front, hfront⟩ | hqueue | ⟨q, hq, hhead, hidx⟩
    · refine Or.inl ⟨by simpa [RecTree.nodes] using hnode, front, ?_⟩
      rw [blocks_setCursor]
      exact hfront
    · refine Or.inr (Or.inl ?_)
      rw [queue_setCursor]
      exact hqueue
    · refine held_of_head (q := q) (by simpa [RecTree.nodes] using hq) ?_ ?_
      · rw [blocks_setCursor]
        exact hhead
      · by_cases hne : q = p
        · subst hne
          rw [setCursor_node]
          push_cast
          exact Int.add_le_add_right hidx 1
        · refine le_of_eq_of_le (congrArg RecTreeNode.memRecIdx (Function.update_of_ne hne _ _)) ?_
          push_cast
          exact hidx.trans (by omega)
  · have hsame : ∀ q ∈ T.nodes, q ≠ p → (withBlock (recordOf c pageNum) p f arr ep ap T).blocks q =
        T.blocks q := fun q hq hne => (sameNode_withBlock ho hpn hq hne hf ha).blocks
    rcases hheld with ⟨hnode, front, hfront⟩ | hqueue | ⟨q, hq, hhead, hidx⟩
    · by_cases hne : node = p
      · subst hne
        refine Or.inl ⟨hnode, f :: front, ?_⟩
        rw [blocks_withBlock, hfront]
        rfl
      · refine Or.inl ⟨hnode, front, ?_⟩
        rw [hsame node hnode hne, hfront]
    · by_cases hef : e = f
      · subst hef
        refine held_of_head hpn ?_ ?_
        · rw [blocks_withBlock]
          rfl
        · simp [withBlock]
      · refine Or.inr (Or.inl ?_)
        simpa [withBlock, hef] using hqueue
    · have hne : q ≠ p := by
        rintro rfl
        have : (n : ℤ) < memRecPerEntry := by exact_mod_cast hn
        omega
      refine held_of_head hq ?_ ?_
      · rw [hsame q hq hne]
        exact hhead
      · refine le_of_eq_of_le (congrArg RecTreeNode.memRecIdx (Function.update_of_ne hne _ _)) ?_
        push_cast
        exact hidx.trans (by omega)

theorem held_steadyInsert {node n : ℕ} {older : List ℕ} {c : InsertCall} (ho : Owned L T.shape)
    (hn : n < memRecPerEntry) (hheld : Held node e older n T)
    (h : steadyInsert L ofa c T = some T') : Held node e older (n + 1 : ℕ) T' := by
  obtain ⟨hsteady, h⟩ := steadyInsert_eq_some h
  have hoU : Owned L (T.logCall c).shape := ho
  have hheldU : Held node e older n (T.logCall c) := hheld
  have hsteadyU : ¬ ((T.logCall c).findNode (addr2PageNum c.dest) = none ∧
      (T.logCall c).needsReclaim) := hsteady
  clear ho hheld hsteady
  simp only [insertRec] at h
  generalize T.logCall c = U at h hoU hheldU hsteadyU
  split at h
  · rename_i p hp
    obtain ⟨V, hV, h⟩ := Option.bind_eq_some_iff.1 h
    have hpn := mem_nodes_of_findNode hp
    exact held_writeRec (owned_clearPage hoU hpn hV).1 (findNode_clearPage hoU hp hV) hn
      (held_clearPage hoU hpn hheldU hV) h
  · rename_i hnew
    obtain ⟨⟨p, V⟩, hV, h⟩ := Option.bind_eq_some_iff.1 h
    obtain ⟨hoV, hpV⟩ := owned_addTreeNode hoU hnew hV
    obtain ⟨W, hW, hV⟩ := Option.bind_eq_some_iff.1 hV
    rw [reclaimIfNeeded, if_neg fun hneeds => hsteadyU ⟨hnew, hneeds⟩] at hW
    cases hW
    exact held_writeRec hoV hpV hn (held_newTreeNode hoU hnew hheldU hV) h

/-- The insertions of one iteration are at most as many as a block has slots. -/
theorem held_moveRecs {node n ret ptr tail start arr : ℕ} {older is : List ℕ}
    (ho : Owned L T.shape) (hn : n + is.length ≤ memRecPerEntry) (hheld : Held node e older n T)
    (h : moveRecs (steadyInsert L ofa) ret ptr tail start arr is T = some T') :
    Owned L T'.shape ∧ ∃ n' : ℕ, Held node e older n' T' := by
  induction is generalizing T n with
  | nil =>
    cases h
    exact ⟨ho, n, hheld⟩
  | cons i is ih =>
    rw [List.length_cons] at hn
    simp only [moveRecs] at h
    split at h
    · exact ih ho (by omega) hheld h
    · split at h
      · cases h
        exact ⟨ho, n, hheld⟩
      · obtain ⟨U, hU, h⟩ := Option.bind_eq_some_iff.1 h
        have hoU := owned_insertRec ho (steadyInsert_eq_some hU).2
        exact ih hoU (by omega) (held_steadyInsert ho (by omega) hheld hU) h

/-- The block is at its place, or no other one follows it. -/
theorem Held.tailqPrev {node : ℕ} {older : List ℕ} {n : ℤ} (ho : Owned L T.shape)
    (h : Held node e older n T) :
    T.tailqPrev e = none ∨ (node ∈ T.nodes ∧ ∃ front, T.blocks node = front ++ e :: older) := by
  rcases h with hplace | hqueue | ⟨q, hq, hhead, -⟩
  · exact Or.inr hplace
  · refine Or.inl ?_
    rw [RecTree.tailqPrev, hqueue]
    rfl
  · obtain ⟨rest, hb⟩ := List.head?_eq_some_iff.1 hhead
    exact Or.inl (tailqPrev_first ho hq hb)

/-! ## The end of the loop -/

namespace PageLoop

variable (insert : InsertCall → RecTree → Option RecTree) (l : PageLoop)

/-- After the insertions of the iteration the block is where it was, with the
same blocks behind it in the list of the page, or it is the last one to look at. -/
def Stays (x : ℕ × RecTree) (U : RecTree) : Prop :=
  U.tailqPrev x.1 = none ∨ (l.node ∈ U.nodes ∧ ∃ front front' older,
    x.2.blocks l.node = front ++ x.1 :: older ∧ U.blocks l.node = front' ++ x.1 :: older)

/-- The next block is the next newer one in the list of the page, and all blocks
behind it are what they were. -/
def Newer (x y : ℕ × RecTree) : Prop :=
  l.node ∈ y.2.nodes ∧ ∃ front front' older, x.2.blocks l.node = front ++ x.1 :: older ∧
    y.2.blocks l.node = front' ++ y.1 :: x.1 :: older

/-- What the loop should do from `x` on: end, and before that move to a strictly
newer block in every iteration. -/
def Advances (x : ℕ × RecTree) : Prop :=
  (eval (l.next insert) x).Dom ∧
    ∀ y z, Reaches (l.next insert) x y → l.next insert y = some z → l.Newer y z

variable {insert l} {x y z : ℕ × RecTree}

/-- The states of the loop: the block is one of the page, and the cell of the
node still names it. -/
structure Runs (L : Libc) (l : PageLoop) (B : ℕ) (y : ℕ × RecTree) : Prop where
  bounded : Bounded L B y.2
  node : l.node ∈ y.2.nodes
  block : y.1 ∈ y.2.blocks l.node
  cell : ∀ V : RecTree, V.walks = y.2.walks → l.res V = l.node

/-- The limit is not behind the end of a block. -/
theorem Runs.uplimit_le (h : Runs L l B y) : l.uplimit y.2 y.1 ≤ memRecPerEntry := by
  unfold uplimit
  split
  · rw [h.cell y.2 rfl]
    exact h.bounded.idx_le l.node h.node
  · exact le_rfl

/-- Without a reclaim the block stays, or is the last one. -/
theorem stays_of_pass (h : Runs L l B y) (hpass : l.pass (steadyInsert L ofa) y = some U) :
    l.Stays y U := by
  obtain ⟨front, older, hb⟩ := List.append_of_mem h.block
  have hheld : Held l.node y.1 older (0 : ℕ) y.2 := Or.inl ⟨h.node, front, hb⟩
  have hlen : 0 + (List.range (l.uplimit y.2 y.1).toNat).length ≤ memRecPerEntry := by
    have := h.uplimit_le
    rw [List.length_range]
    omega
  obtain ⟨hoU, n, hheld'⟩ := held_moveRecs h.bounded.owned hlen hheld hpass
  rcases hheld'.tailqPrev hoU with hlast | ⟨hnode, front', hb'⟩
  · exact Or.inl hlast
  · exact Or.inr ⟨hnode, front, front', older, hb, hb'⟩

/-- The next block of one that has stayed is the next newer one. -/
theorem Stays.newer (h : l.Stays y U) (ho : Owned L U.shape) {e' : ℕ}
    (hprev : U.tailqPrev y.1 = some e') : l.Newer y (e', U) := by
  rcases h with hlast | ⟨hnode, front, front', older, hb, hb'⟩
  · rw [hlast] at hprev
    cases hprev
  · refine ⟨hnode, front, ?_⟩
    rcases List.eq_nil_or_concat' front' with rfl | ⟨front', f, rfl⟩
    · rw [tailqPrev_first ho hnode hb'] at hprev
      cases hprev
    · rw [List.append_assoc, List.singleton_append] at hb'
      rw [tailqPrev_older ho hnode hb'] at hprev
      cases hprev
      exact ⟨front', older, hb, hb'⟩

/-- What the insertions of an iteration preserve without a reclaim. -/
theorem bounded_pass (hB : 2 ^ 32 ≤ B) (h : Bounded L B y.2)
    (hpass : l.pass (steadyInsert L ofa) y = some U) : Bounded L B U ∧ U.walks = y.2.walks := by
  refine moveRecs_invariant (P := fun V => Bounded L B V ∧ V.walks = y.2.walks) ?_ ⟨h, rfl⟩ hpass
  rintro _ _ V W ⟨hV, hwalks⟩ hW
  exact ⟨bounded_insertRec hB hV (steadyInsert_eq_some hW).2,
    (walks_steadyInsert hV.owned hW).trans hwalks⟩

/-- An iteration that does not probe moves on to a newer block. -/
theorem newer_of_next (hB : 2 ^ 32 ≤ B) (h : Runs L l B y) (hprobe : ¬ l.Probes y)
    (hnext : l.next (steadyInsert L ofa) y = some z) : l.Newer y z ∧ Runs L l B z := by
  obtain ⟨hpass, hprev⟩ := next_eq_some hprobe hnext
  obtain ⟨hbounded, hwalks⟩ := bounded_pass hB h.bounded hpass
  have hnewer : l.Newer y z := (stays_of_pass h hpass).newer hbounded.owned hprev
  have ⟨hnode, _, _, _, _, hb'⟩ := hnewer
  exact ⟨hnewer, hbounded, hnode, by simp [hb'], fun V hV => h.cell V (hV.trans hwalks)⟩

/-- The place of the block in the list of the page, from the oldest one on. -/
def rank (l : PageLoop) (y : ℕ × RecTree) : ℕ := (y.2.blocks l.node).reverse.idxOf y.1

theorem rank_eq (ho : Owned L y.2.shape) (hnode : l.node ∈ y.2.nodes) {front older : List ℕ}
    (hb : y.2.blocks l.node = front ++ y.1 :: older) : l.rank y = older.length := by
  have hnd := ho.nodup_blocks hnode
  rw [show y.2.shape.blocks l.node = _ from hb] at hnd
  have hnot : y.1 ∉ older.reverse := by
    rw [List.mem_reverse]
    exact (List.nodup_cons.1 (List.nodup_append.1 hnd).2.1).1
  rw [rank, hb, List.reverse_append, List.reverse_cons, List.append_assoc,
    List.idxOf_append_of_notMem hnot]
  simp

theorem rank_lt_of_newer (hy : Runs L l B y) (hz : Runs L l B z) (h : l.Newer y z) :
    l.rank y < l.rank z := by
  obtain ⟨hnode, front, front', older, hb, hb'⟩ := h
  rw [rank_eq hy.bounded.owned hy.node hb, rank_eq hz.bounded.owned hnode hb', List.length_cons]
  exact Nat.lt_succ_self _

theorem rank_le (hy : Runs L l B y) : l.rank y ≤ B := by
  have := List.idxOf_le_length (l := (y.2.blocks l.node).reverse) (a := y.1)
  rw [List.length_reverse] at this
  exact this.trans (hy.bounded.length_blocks_le hy.node)

/-- The loop does what it should exactly when no iteration probes. -/
theorem advances_iff (hB : 2 ^ 32 ≤ B) (hx : Runs L l B x) : l.Advances (steadyInsert L ofa) x ↔
    ∀ y, Reaches (l.next (steadyInsert L ofa)) x y → ¬ l.Probes y := by
  constructor
  · rintro ⟨hdom, -⟩ y hy hprobe
    exact not_dom_of_stuck hy (next_of_probes hprobe) hdom
  · intro hprobe
    have hruns : ∀ y, Reaches (l.next (steadyInsert L ofa)) x y → Runs L l B y := by
      intro y hy
      induction hy with
      | refl => exact hx
      | tail hy hnext ih => exact (newer_of_next hB ih (hprobe _ hy) hnext).2
    refine ⟨?_, fun y z hy hnext => (newer_of_next hB (hruns y hy) (hprobe y hy) hnext).1⟩
    refine dom_of_climbs (P := Reaches (l.next (steadyInsert L ofa)) x) l.rank B
      (fun y hy => rank_le (hruns y hy)) (fun y z hy hnext => ?_) Relation.ReflTransGen.refl
    obtain ⟨hnewer, hz⟩ := newer_of_next hB (hruns y hy) (hprobe y hy) hnext
    exact ⟨hy.tail hnext, rank_lt_of_newer (hruns y hy) hz hnewer⟩

end PageLoop

/-! ## A loop whose insertions are known -/

/-- An iteration for the block `block` of the page `page`, with the insertions
that it makes. -/
structure MoveStep where
  page : ℕ
  node : ℕ
  block : ℕ
  calls : List InsertCall

namespace PageLoop

variable {insert : InsertCall → RecTree → Option RecTree} {l : PageLoop}
  {script pre rest : List MoveStep} {I : ℕ → RecTree → Prop} {P : RecTree → Prop} {b : MoveStep}

/-- The iterations of the loop are those of the script, as long as none of them
probes.  `I j` holds of the state before the iteration number `j`, and `P` of the
state after the last one. -/
structure Follows (l : PageLoop) (insert : InsertCall → RecTree → Option RecTree)
    (script : List MoveStep) (I : ℕ → RecTree → Prop) (P : RecTree → Prop) : Prop where
  pass : ∀ pre b rest U, script = pre ++ b :: rest → I pre.length U →
    l.pass insert (b.block, U) = runAll insert b.calls U
  next : ∀ pre b rest U V, script = pre ++ b :: rest → I pre.length U →
    runAll insert b.calls U = some V →
      V.tailqPrev b.block = rest.head?.map MoveStep.block ∧ (rest ≠ [] → I (pre.length + 1) V) ∧
        (rest = [] → P V)

theorem Follows.imp (h : l.Follows insert script I P) {P' : RecTree → Prop}
    (himp : ∀ U, P U → P' U) : l.Follows insert script I P' where
  pass := h.pass
  next pre b rest U V hs hI hcalls := by
    obtain ⟨hprev, hnext, hlast⟩ := h.next pre b rest U V hs hI hcalls
    exact ⟨hprev, hnext, fun hnil => himp V (hlast hnil)⟩

/-- An iteration that is not the last one. -/
theorem Follows.next_cons (h : l.Follows insert script I P) {b' : MoveStep}
    (hs : script = pre ++ b :: b' :: rest) (hI : I pre.length U)
    (hcalls : runAll insert b.calls U = some T') :
    script = (pre ++ [b]) ++ b' :: rest ∧ T'.tailqPrev b.block = some b'.block ∧
      I (pre ++ [b]).length T' := by
  obtain ⟨hprev, hnext, -⟩ := h.next pre b _ U T' hs hI hcalls
  refine ⟨by simp [hs], hprev, ?_⟩
  rw [List.length_append]
  exact hnext (List.cons_ne_nil _ _)

/-- The last iteration. -/
theorem Follows.next_nil (h : l.Follows insert script I P) (hs : script = pre ++ [b])
    (hI : I pre.length U) (hcalls : runAll insert b.calls U = some T') :
    T'.tailqPrev b.block = none ∧ P T' := by
  obtain ⟨hprev, -, hlast⟩ := h.next pre b [] U T' hs hI hcalls
  exact ⟨hprev, hlast rfl⟩

/-- A loop that returns has made the insertions of the script. -/
theorem Follows.run_eq (h : l.Follows insert script I P) (hs : script = pre ++ b :: rest)
    (hI : I pre.length U) {fuel : ℕ} (hrun : l.run insert fuel (some b.block) U = some T') :
    runAll insert ((b :: rest).flatMap MoveStep.calls) U = some T' ∧ P T' := by
  induction rest generalizing pre b fuel U with
  | nil =>
    obtain ⟨-, fuel, V, hV, hrest⟩ := run_eq_some hrun
    rw [h.pass pre b [] U hs hI] at hV
    obtain ⟨hprev, hP⟩ := h.next_nil hs hI hV
    rw [hprev, run_none] at hrest
    cases hrest
    rw [List.flatMap_singleton]
    exact ⟨hV, hP⟩
  | cons b' rest ih =>
    obtain ⟨-, fuel, V, hV, hrest⟩ := run_eq_some hrun
    rw [h.pass pre b _ U hs hI] at hV
    obtain ⟨hs', hprev, hIV⟩ := h.next_cons hs hI hV
    rw [hprev] at hrest
    obtain ⟨hcalls, hP⟩ := ih hs' hIV hrest
    refine ⟨?_, hP⟩
    rw [List.flatMap_cons, runAll_append, hV]
    exact hcalls

/-- It returns if none of them probes and they succeed. -/
theorem Follows.run_isSome (h : l.Follows insert script I P) (hs : script = pre ++ b :: rest)
    (hI : I pre.length U)
    (hm : Meets (fun b V => ¬ l.Probes (b.block, V)) (fun b => runAll insert b.calls) (b :: rest) U)
    (hcalls : runAll insert ((b :: rest).flatMap MoveStep.calls) U = some T') :
    ∃ fuel, l.run insert fuel (some b.block) U = some T' := by
  induction rest generalizing pre b U with
  | nil =>
    rw [List.flatMap_singleton] at hcalls
    refine ⟨1, ?_⟩
    rw [run_succ, if_neg hm.1, h.pass pre b [] U hs hI, hcalls, Option.bind_some,
      (h.next_nil hs hI hcalls).1, run_none]
  | cons b' rest ih =>
    rw [List.flatMap_cons, runAll_append] at hcalls
    obtain ⟨V, hV, hrest⟩ := Option.bind_eq_some_iff.1 hcalls
    obtain ⟨hs', hprev, hIV⟩ := h.next_cons hs hI hV
    obtain ⟨fuel, hfuel⟩ := ih hs' hIV (hm.2 V hV) hrest
    refine ⟨fuel + 1, ?_⟩
    rw [run_succ, if_neg hm.1, h.pass pre b _ U hs hI, hV, Option.bind_some, hprev]
    exact hfuel

/-- No iteration probes if none does in the run of the insertions. -/
theorem Follows.probes_iff (h : l.Follows insert script I P) (hs : script = pre ++ b :: rest)
    (hI : I pre.length U) : (∀ y, Reaches (l.next insert) (b.block, U) y → ¬ l.Probes y) ↔
      Meets (fun b V => ¬ l.Probes (b.block, V)) (fun b => runAll insert b.calls)
        (b :: rest) U := by
  induction rest generalizing pre b U with
  | nil =>
    refine ⟨fun hprobe => ⟨hprobe _ Relation.ReflTransGen.refl, fun _ _ => trivial⟩,
      fun hm y hy => ?_⟩
    rcases Relation.ReflTransGen.cases_head hy with rfl | ⟨z, hz, -⟩
    · exact hm.1
    · -- it is the last block
      obtain ⟨hpass, hprev⟩ := next_eq_some hm.1 hz
      rw [h.pass pre b [] U hs hI] at hpass
      rw [(h.next_nil hs hI hpass).1] at hprev
      cases hprev
  | cons b' rest ih =>
    constructor
    · intro hprobe
      have hfirst := hprobe _ Relation.ReflTransGen.refl
      refine ⟨hfirst, fun V (hV : runAll insert b.calls U = some V) => ?_⟩
      obtain ⟨hs', hprev, hIV⟩ := h.next_cons hs hI hV
      refine (ih hs' hIV).1 fun y hy => hprobe y (Relation.ReflTransGen.head ?_ hy)
      rw [Option.mem_def, next_eq hfirst, h.pass pre b _ U hs hI, hV, Option.bind_some, hprev]
      rfl
    · intro hm y hy
      rcases Relation.ReflTransGen.cases_head hy with rfl | ⟨z, hz, hrest⟩
      · exact hm.1
      · obtain ⟨hpass, hprev⟩ := next_eq_some hm.1 hz
        rw [h.pass pre b _ U hs hI] at hpass
        obtain ⟨hs', hprev', hIV⟩ := h.next_cons hs hI hpass
        rw [hprev'] at hprev
        obtain ⟨e, V⟩ := z
        cases hprev
        exact (ih hs' hIV).2 (hm.2 V hpass) y hrest

end PageLoop

/-! ## The loops of one call -/

/-- The block loop of `ts_realloc(ptr, size, tail)` on a page, when `realloc`
has returned `ret`. -/
def loopOf (L : Libc) (ret ptr tail start node : ℕ) (T : RecTree) : PageLoop where
  ret := ret
  ptr := ptr
  tail := tail
  start := start
  node := node
  res := T.reread L node
  mostRecBlock := (T.recTreeNodes node).recModEntry

theorem movePage_eq {insert : InsertCall → RecTree → Option RecTree}
    {fuel ret ptr tail start node : ℕ} (h : T.findNode start = some node) :
    movePage L insert fuel ret ptr tail start T =
      (T.tailqLast (T.recTreeNodes node).listHead).bind fun e =>
        (loopOf L ret ptr tail start node T).run insert fuel (some e) T := by
  simp only [movePage, h]
  rfl

theorem movePage_fuel {insert : InsertCall → RecTree → Option RecTree}
    {fuel fuel' ret ptr tail start : ℕ} (hle : fuel ≤ fuel')
    (h : movePage L insert fuel ret ptr tail start T = some T') :
    movePage L insert fuel' ret ptr tail start T = some T' := by
  cases hnode : T.findNode start with
  | none =>
    simp only [movePage, hnode] at h ⊢
    exact h
  | some node =>
    rw [movePage_eq hnode] at h ⊢
    obtain ⟨e, he, hrun⟩ := Option.bind_eq_some_iff.1 h
    exact Option.bind_eq_some_iff.2 ⟨e, he, PageLoop.run_mono hle hrun⟩

/-- A call for `pages` comes to the loop `l` on one of them, at the oldest block
of its node. -/
def ComesTo (L : Libc) (insert : InsertCall → RecTree → Option RecTree) (ret ptr tail : ℕ)
    (pages : List ℕ) (T : RecTree) (l : PageLoop) (x : ℕ × RecTree) : Prop :=
  ∃ fuel pre start post node, pages = pre ++ start :: post ∧
    runAll (movePage L insert fuel ret ptr tail) pre T = some x.2 ∧
    x.2.findNode start = some node ∧
    x.2.tailqLast (x.2.recTreeNodes node).listHead = some x.1 ∧
    l = loopOf L ret ptr tail start node x.2

theorem runs_of_comesTo (hB : 2 ^ 32 ≤ B) (hT : Bounded L B T) {ret ptr tail : ℕ}
    {pages : List ℕ} {l : PageLoop} {x : ℕ × RecTree}
    (h : ComesTo L (steadyInsert L ofa) ret ptr tail pages T l x) : l.Runs L B x := by
  obtain ⟨fuel, pre, start, post, node, -, hpre, hnode, hlast, rfl⟩ := h
  refine ⟨?_, mem_nodes_of_findNode hnode, List.mem_of_mem_getLast? hlast,
    fun V hV => reread_of_walks L node hV⟩
  refine runAll_invariant (fun page _ U V hU hV => ?_) hT hpre
  exact movePage_invariant (P := Bounded L B)
    (fun _ _ _ _ hT h => bounded_insertRec hB hT (steadyInsert_eq_some h).2) hU hV

/-- The loops for a list of pages: the one for the first page, and those that
come after it. -/
theorem comesTo_cons {insert : InsertCall → RecTree → Option RecTree} {ret ptr tail page : ℕ}
    {pages : List ℕ} {l : PageLoop} {x : ℕ × RecTree} :
    ComesTo L insert ret ptr tail (page :: pages) T l x ↔
      (x.2 = T ∧ ∃ node, T.findNode page = some node ∧
        T.tailqLast (T.recTreeNodes node).listHead = some x.1 ∧
        l = loopOf L ret ptr tail page node T) ∨
      ∃ fuel V, movePage L insert fuel ret ptr tail page T = some V ∧
        ComesTo L insert ret ptr tail pages V l x := by
  constructor
  · rintro ⟨fuel, pre, start, post, node, hpages, hpre, hnode, hlast, hl⟩
    cases pre with
    | nil =>
      obtain ⟨rfl, rfl⟩ := List.cons.inj hpages
      cases hpre
      exact Or.inl ⟨rfl, node, hnode, hlast, hl⟩
    | cons other pre =>
      obtain ⟨rfl, rfl⟩ := List.cons.inj hpages
      obtain ⟨V, hV, hrest⟩ := runAll_cons_eq_some.1 hpre
      exact Or.inr ⟨fuel, V, hV, fuel, pre, start, post, node, rfl, hrest, hnode, hlast, hl⟩
  · rintro (⟨rfl, node, hnode, hlast, hl⟩ |
      ⟨fuel, V, hV, fuel', pre, start, post, node, rfl, hpre, hnode, hlast, hl⟩)
    · exact ⟨0, [], page, pages, node, rfl, rfl, hnode, hlast, hl⟩
    · -- a bound that is enough for all pages
      refine ⟨max fuel fuel', page :: pre, start, post, node, rfl, ?_, hnode, hlast, hl⟩
      refine runAll_cons_eq_some.2 ⟨V, movePage_fuel (le_max_left _ _) hV, ?_⟩
      exact runAll_mono (fun _ _ _ _ h => movePage_fuel (le_max_right _ _) h) hpre

end RecTree

end Cidl
