import Cidl.Records.Kept

/-!
# Whether `ts_realloc` returns

On every page the loop of `ts_realloc` over the blocks ends, moving to a
strictly newer block each time, exactly when no iteration that it comes to finds
the slot at its limit at or behind `tail`.

For a block that has stayed, or whose records leave the pages that the loop has
still to walk over (`MovesAway`), the tree before the call says what these
iterations are: `moveScript` lists them for all pages, each with the insertions
that it makes.  So the condition is one on that tree: in a run of these
insertions, the slot at the limit of each block lies below `tail` when the block
is looked at (`LimitBelow`).

`tsRealloc_advances_iff` says both, for calls up to the first insertion that
reclaims garbage.
-/

namespace Cidl

open SearchTree Shape StateTransition

namespace RecTree

variable {L : Libc} {T T' U V : RecTree} {ofa : ℤ → Option ℕ} {p page : ℕ} {pages : List ℕ}
  {ret ptr tail : ℕ} {b : MoveStep}

/-! ## The iterations of a call -/

/-- The iterations for a page. -/
def pageScript (T : RecTree) (ret ptr tail page : ℕ) : List MoveStep :=
  match T.findNode page with
  | none => []
  | some p =>
    if ret = ptr then T.stayedSteps ptr tail page p
    else T.moveSteps ret ptr tail page p (T.oldestFirst p)

/-- The iterations for all pages of the block from `ptr` to `tail`. -/
def moveScript (T : RecTree) (ret ptr tail : ℕ) : List MoveStep :=
  (pagesFrom (addr2PageNum ptr) (addr2PageNum tail)).flatMap (T.pageScript ret ptr tail)

/-- When the iteration `b` begins in `U`, the slot at its limit lies below
`tail`.  The limit of the block that was current in `T`, before the call, is read
from its node. -/
def LimitBelow (T : RecTree) (tail : ℕ) (b : MoveStep) (U : RecTree) : Prop :=
  getAddr b.page (U.slot (U.recBlockEntries b.block).recArr
    (if b.block = (T.recTreeNodes b.node).recModEntry then (U.recTreeNodes b.node).memRecIdx
      else memRecPerEntry)).pageOffset < tail

instance (T : RecTree) (tail : ℕ) (b : MoveStep) (U : RecTree) :
    Decidable (T.LimitBelow tail b U) := inferInstanceAs (Decidable (_ < _))

/-- No record inside the block is moved to its own page, nor to a later page of the
block. -/
def MovesAway (T : RecTree) (ret ptr tail : ℕ) : Prop :=
  ∀ page ∈ pagesFrom (addr2PageNum ptr) (addr2PageNum tail), ∀ r ∈ T.pageLists page,
    Inside ptr tail page r → addr2PageNum (moveCall ret ptr page r).dest < page ∨
      addr2PageNum tail < addr2PageNum (moveCall ret ptr page r).dest

/-- All of a block that goes to pages of its own moves away. -/
theorem NewBlock.movesAway (h : NewBlock ret ptr tail) (htail : tail < wordSize) :
    T.MovesAway ret ptr tail := by
  intro page hpage r hr hin
  have hoff := h.movesOff htail (T.pageLists page) r hr hin
  rw [mem_pagesFrom] at hoff hpage
  omega

theorem MovesAway.movesOff (h : T.MovesAway ret ptr tail)
    (hsub : page :: pages ⊆ pagesFrom (addr2PageNum ptr) (addr2PageNum tail))
    (hlater : ∀ other ∈ pages, page < other) :
    MovesOff (page :: pages) ret ptr tail page (T.pageLists page) := by
  intro r hr hin hmem
  have hend := (mem_pagesFrom.1 (hsub hmem)).2
  rcases h page (hsub (List.mem_cons_self ..)) r hr hin with hbefore | hbehind
  · rcases List.mem_cons.1 hmem with heq | hother
    · omega
    · exact Nat.lt_asymm hbefore (hlater _ hother)
  · omega

theorem pageScript_none (h : T.findNode page = none) : T.pageScript ret ptr tail page = [] := by
  rw [pageScript, h]

theorem pageScript_some (h : T.findNode page = some p) : T.pageScript ret ptr tail page =
    if ret = ptr then T.stayedSteps ptr tail page p
    else T.moveSteps ret ptr tail page p (T.oldestFirst p) := by
  rw [pageScript, h]

theorem of_mem_moveSteps {es : List ℕ} (h : b ∈ T.moveSteps ret ptr tail page p es) :
    b.page = page ∧ b.node = p := by
  obtain ⟨e, -, rfl⟩ := List.mem_map.1 h
  exact ⟨rfl, rfl⟩

theorem of_mem_pageScript (h : T.findNode page = some p)
    (hb : b ∈ T.pageScript ret ptr tail page) : b.page = page ∧ b.node = p := by
  rw [pageScript_some h] at hb
  split at hb
  · unfold stayedSteps at hb
    split at hb
    · exact of_mem_moveSteps hb
    · rcases List.mem_append.1 hb with hb | hb
      · exact of_mem_moveSteps hb
      · rw [List.mem_singleton.1 hb]
        exact ⟨rfl, rfl⟩
  · exact of_mem_moveSteps hb

/-- The first iteration is for the oldest block. -/
theorem head_pageScript (ret ptr tail : ℕ) (h : T.findNode page = some p) (ht : Tidy T p) :
    (T.pageScript ret ptr tail page).head?.map MoveStep.block = (T.oldestFirst p).head? := by
  rw [pageScript_some h]
  split
  · exact head_stayedSteps ht
  · exact head_moveSteps T ret ptr tail page p _

/-! ## The iterations in a tree that is the same on the page -/

theorem SameNode.untilInside (h : SameNode T U p) (ht : Tidy T p) {es : List ℕ}
    (hes : ∀ e ∈ es, e ∈ T.blocks p) :
    U.untilInside ptr tail page p es = T.untilInside ptr tail page p es := by
  induction es with
  | nil => rfl
  | cons e es ih =>
    obtain ⟨he, hes⟩ := List.forall_mem_cons.1 hes
    rw [RecTree.untilInside, RecTree.untilInside, h.validRecs ht he, ih hes]

theorem untilInside_subset (es : List ℕ) : T.untilInside ptr tail page p es ⊆ es := by
  induction es with
  | nil => exact List.Subset.refl _
  | cons e es ih =>
    unfold untilInside
    split
    · exact List.cons_subset_cons e ih
    · exact List.cons_subset_cons e (List.nil_subset es)

theorem SameNode.moveSteps (h : SameNode T U p) (ht : Tidy T p) {es : List ℕ}
    (hes : ∀ e ∈ es, e ∈ T.blocks p) :
    U.moveSteps ret ptr tail page p es = T.moveSteps ret ptr tail page p es := by
  refine List.map_congr_left fun e he => ?_
  rw [moveStep, moveStep, h.validRecs ht (hes e he)]

theorem SameNode.stayedSteps (h : SameNode T U p) (ht : Tidy T p) :
    U.stayedSteps ptr tail page p = T.stayedSteps ptr tail page p := by
  have hold : U.oldestFirst p = T.oldestFirst p := by rw [oldestFirst, oldestFirst, h.blocks]
  have hmem : ∀ e ∈ T.oldestFirst p, e ∈ T.blocks p := fun e he => List.mem_reverse.1 he
  rw [RecTree.stayedSteps, RecTree.stayedSteps, appendSteps, appendSteps, lastStep, lastStep,
    h.records ht.idx_le, h.node, hold, h.untilInside ht hmem,
    h.moveSteps ht fun e he => hmem e (untilInside_subset _ he),
    h.moveSteps ht fun e he => hmem e (List.dropLast_subset _ he)]

/-! ## The loop on one page -/

/-- What the loop on a page does, in a tree that is on this page and the later
ones what it was before the call. -/
theorem follows_page (ofa : ℤ → Option ℕ) (hrep : Rep L T) (hU : TidyTree L U)
    (ha : Apart L (page :: pages) T U)
    (hlater : ∀ other ∈ pages, page < other)
    (hsub : page :: pages ⊆ pagesFrom (addr2PageNum ptr) (addr2PageNum tail))
    (htail : tail < wordSize) (hblock : ret = ptr ∨ T.MovesAway ret ptr tail)
    (hp : T.findNode page = some p) :
    ∃ I, I 0 U ∧ (loopOf L ret ptr tail page p U).Follows (steadyInsert L ofa)
      (T.pageScript ret ptr tail page) I fun V => Apart L pages T V := by
  have hpage : page ∈ page :: pages := List.mem_cons_self ..
  have hw := page_fits_of_mem htail (hsub hpage)
  have hinv := hrep.node p (mem_nodes_of_findNode hp)
  have hsame := ha.same page hpage p hp
  rw [pageScript_some hp]
  split
  · rename_i heq
    subst heq
    have hpU : U.findNode page = some p := (ha.find page hpage).trans hp
    obtain ⟨I, hI, hfollows⟩ := follows_stayed ofa hU hpU (hsame.nodeInv hinv) hw htail
    rw [hsame.stayedSteps hinv.tidy] at hfollows
    refine ⟨I, hI, hfollows.imp fun V ⟨htidy, hon, _⟩ => ?_⟩
    exact (ha.subset (List.subset_cons_self page pages)).onPage htidy.owned hon
      fun hmem => Nat.lt_irrefl _ (hlater page hmem)
  · rename_i hne
    have hoff : MovesOff (page :: pages) ret ptr tail page (T.records p) := by
      have hoff := (hblock.resolve_left hne).movesOff hsub hlater
      rwa [pageLists_of_findNode hp] at hoff
    have hfollows := follows_moves ofa ha hpage hp hinv
      (hrep.owned.nodup_blocks (mem_nodes_of_findNode hp)) hw hoff
    exact ⟨_, ha, hfollows.imp fun V hV => hV.subset (List.subset_cons_self page pages)⟩

/-- An iteration probes when its limit is not below `tail`. -/
theorem probes_iff_not_below (hsame : SameNode T U p) (hwalks : V.walks = U.walks)
    (hpage : b.page = page) (hnode : b.node = p) :
    ¬ (loopOf L ret ptr tail page p U).Probes (b.block, V) ↔ T.LimitBelow tail b V := by
  have hlimit : (loopOf L ret ptr tail page p U).uplimit V b.block =
      if b.block = (T.recTreeNodes b.node).recModEntry then (V.recTreeNodes b.node).memRecIdx
      else memRecPerEntry := by
    unfold PageLoop.uplimit loopOf
    dsimp only
    rw [reread_of_walks L p hwalks, hsame.node, hnode]
  unfold PageLoop.Probes LimitBelow
  rw [hlimit, hpage]
  exact Nat.not_le

/-- Without a reclaim the walks stay. -/
theorem owned_walks_runAll {cs : List InsertCall} (hU : Owned L U.shape)
    (h : runAll (steadyInsert L ofa) cs U = some V) : Owned L V.shape ∧ V.walks = U.walks := by
  refine runAll_invariant (P := fun V => Owned L V.shape ∧ V.walks = U.walks) ?_ ⟨hU, rfl⟩ h
  rintro c - W W' ⟨hW, hwalks⟩ hW'
  exact ⟨owned_insertRec hW (steadyInsert_eq_some hW').2,
    (walks_steadyInsert hW hW').trans hwalks⟩

theorem meets_limit_iff (ofa : ℤ → Option ℕ) (ret ptr tail : ℕ) (ho : Owned L U.shape)
    (hsame : SameNode T U p)
    (hp : T.findNode page = some p) :
    Meets (fun b V => ¬ (loopOf L ret ptr tail page p U).Probes (b.block, V))
        (fun b => runAll (steadyInsert L ofa) b.calls) (T.pageScript ret ptr tail page) U ↔
      Meets (T.LimitBelow tail) (fun b => runAll (steadyInsert L ofa) b.calls)
        (T.pageScript ret ptr tail page) U := by
  refine meets_congr (P := fun V => Owned L V.shape ∧ V.walks = U.walks) ?_ ?_ ⟨ho, rfl⟩
  · rintro b V W ⟨hV, hwalks⟩ hW
    obtain ⟨hW, hwalks'⟩ := owned_walks_runAll hV hW
    exact ⟨hW, hwalks'.trans hwalks⟩
  · rintro b hb V ⟨-, hwalks⟩
    obtain ⟨hpage, hnode⟩ := of_mem_pageScript hp hb
    exact probes_iff_not_below hsame hwalks hpage hnode

/-- The loop on a page whose oldest block is `e`: whether an iteration probes, and
what the loop has done when it returns. -/
structure ScriptedPage (L : Libc) (ofa : ℤ → Option ℕ) (T : RecTree) (ret ptr tail page p : ℕ)
    (pages : List ℕ) (U : RecTree) (e : ℕ) : Prop where
  oldest : U.tailqLast (U.recTreeNodes p).listHead = some e
  probes : (∀ y, Reaches ((loopOf L ret ptr tail page p U).next (steadyInsert L ofa)) (e, U) y →
      ¬ (loopOf L ret ptr tail page p U).Probes y) ↔
    Meets (T.LimitBelow tail) (fun b => runAll (steadyInsert L ofa) b.calls)
      (T.pageScript ret ptr tail page) U
  calls : ∀ fuel V,
    (loopOf L ret ptr tail page p U).run (steadyInsert L ofa) fuel (some e) U = some V →
      runAll (steadyInsert L ofa) ((T.pageScript ret ptr tail page).flatMap MoveStep.calls) U =
        some V
  returns : Meets (T.LimitBelow tail) (fun b => runAll (steadyInsert L ofa) b.calls)
      (T.pageScript ret ptr tail page) U → ∀ V,
    runAll (steadyInsert L ofa) ((T.pageScript ret ptr tail page).flatMap MoveStep.calls) U =
      some V →
    Apart L pages T V ∧ ∃ fuel,
      (loopOf L ret ptr tail page p U).run (steadyInsert L ofa) fuel (some e) U = some V

theorem scriptedPage (ofa : ℤ → Option ℕ) (hrep : Rep L T) (hU : TidyTree L U)
    (ha : Apart L (page :: pages) T U)
    (hlater : ∀ other ∈ pages, page < other)
    (hsub : page :: pages ⊆ pagesFrom (addr2PageNum ptr) (addr2PageNum tail))
    (htail : tail < wordSize) (hblock : ret = ptr ∨ T.MovesAway ret ptr tail)
    (hp : T.findNode page = some p) : ∃ e, ScriptedPage L ofa T ret ptr tail page p pages U e := by
  have htidy := hrep.tidy p (mem_nodes_of_findNode hp)
  have hsame := ha.same page (List.mem_cons_self ..) p hp
  obtain ⟨I, hI, hfollows⟩ := follows_page ofa hrep hU ha hlater hsub htail hblock hp
  -- the first iteration of the script is for the oldest block
  obtain ⟨older, hblocks⟩ := htidy.blocks_eq
  have hne : T.oldestFirst p ≠ [] := by simp [oldestFirst, hblocks]
  have hfirst : (T.oldestFirst p).head? = some ((T.oldestFirst p).head hne) :=
    List.head?_eq_some_head hne
  have hhead := (head_pageScript ret ptr tail hp htidy).trans hfirst
  obtain ⟨b, hb, hblock'⟩ := Option.map_eq_some_iff.1 hhead
  obtain ⟨rest, hscript⟩ := List.head?_eq_some_iff.1 hb
  rw [← hblock'] at hfirst
  have hmeets := meets_limit_iff ofa ret ptr tail ha.owned hsame hp
  rw [hscript] at hfollows hmeets
  refine ⟨b.block, hsame.tailqLast.trans hfirst, ?_, fun fuel V hrun => ?_, fun hm V hV => ?_⟩
  · rw [hscript, ← hmeets]
    exact hfollows.probes_iff (List.nil_append _).symm hI
  · rw [hscript]
    exact (hfollows.run_eq (List.nil_append _).symm hI hrun).1
  · rw [hscript] at hm hV
    obtain ⟨fuel, hrun⟩ := hfollows.run_isSome (List.nil_append _).symm hI (hmeets.2 hm) hV
    exact ⟨(hfollows.run_eq (List.nil_append _).symm hI hrun).2, fuel, hrun⟩

/-! ## The whole call -/

/-- Every loop that the call comes to does what it should. -/
def LoopsAdvance (L : Libc) (ofa : ℤ → Option ℕ) (ret ptr tail : ℕ) (T : RecTree) : Prop :=
  ∀ l x, ComesTo L (steadyInsert L ofa) ret ptr tail
    (pagesFrom (addr2PageNum ptr) (addr2PageNum tail)) T l x → l.Advances (steadyInsert L ofa) x

/-- No iteration that the call comes to probes. -/
def NoProbes (L : Libc) (ofa : ℤ → Option ℕ) (ret ptr tail : ℕ) (T : RecTree) : Prop :=
  ∀ l x, ComesTo L (steadyInsert L ofa) ret ptr tail
      (pagesFrom (addr2PageNum ptr) (addr2PageNum tail)) T l x →
    ∀ y, Reaches (l.next (steadyInsert L ofa)) x y → ¬ l.Probes y

/-- The limits of all iterations of the script lie below `tail`. -/
def LimitsBelow (L : Libc) (ofa : ℤ → Option ℕ) (ret ptr tail : ℕ) (T : RecTree) : Prop :=
  Meets (T.LimitBelow tail) (fun b => runAll (steadyInsert L ofa) b.calls)
    (T.moveScript ret ptr tail) T

/-- No iteration that the call comes to on `pages`, from `U` on, probes. -/
def NeverProbes (L : Libc) (ofa : ℤ → Option ℕ) (ret ptr tail : ℕ) (pages : List ℕ)
    (U : RecTree) : Prop :=
  ∀ l x, ComesTo L (steadyInsert L ofa) ret ptr tail pages U l x →
    ∀ y, Reaches (l.next (steadyInsert L ofa)) x y → ¬ l.Probes y

theorem neverProbes_nil : NeverProbes L ofa ret ptr tail [] U := by
  rintro l x ⟨-, pre, start, post, -, hnil, -⟩
  simp at hnil

theorem neverProbes_cons_none (hfind : U.findNode page = none) :
    NeverProbes L ofa ret ptr tail (page :: pages) U ↔ NeverProbes L ofa ret ptr tail pages U := by
  have hmove : ∀ fuel, movePage L (steadyInsert L ofa) fuel ret ptr tail page U = some U :=
    fun fuel => by simp only [movePage, hfind]
  refine forall₂_congr fun l x => imp_congr_left ?_
  rw [comesTo_cons]
  constructor
  · rintro (⟨-, node, hnode, -⟩ | ⟨fuel, V, hV, hx⟩)
    · rw [hfind] at hnode
      cases hnode
    · rw [hmove] at hV
      cases hV
      exact hx
  · exact fun hx => Or.inr ⟨0, U, hmove 0, hx⟩

/-- On a page with a node: the iterations for this page, and then those for the
later ones. -/
theorem neverProbes_cons_some {e : ℕ} (hfind : U.findNode page = some p)
    (hpage : ScriptedPage L ofa T ret ptr tail page p pages U e) :
    NeverProbes L ofa ret ptr tail (page :: pages) U ↔
      Meets (T.LimitBelow tail) (fun b => runAll (steadyInsert L ofa) b.calls)
          (T.pageScript ret ptr tail page) U ∧
        ∀ V, runAll (steadyInsert L ofa)
            ((T.pageScript ret ptr tail page).flatMap MoveStep.calls) U = some V →
          NeverProbes L ofa ret ptr tail pages V := by
  have hmove : ∀ fuel, movePage L (steadyInsert L ofa) fuel ret ptr tail page U =
      (loopOf L ret ptr tail page p U).run (steadyInsert L ofa) fuel (some e) U :=
    fun fuel => by rw [movePage_eq hfind, hpage.oldest, Option.bind_some]
  refine ⟨fun h => ?_, fun ⟨hm, hlater⟩ l x hx => ?_⟩
  · have hm := hpage.probes.1 fun y hy =>
      h _ (e, U) (comesTo_cons.2 (Or.inl ⟨rfl, p, hfind, hpage.oldest, rfl⟩)) y hy
    refine ⟨hm, fun V hV l x hx => h l x (comesTo_cons.2 ?_)⟩
    obtain ⟨-, fuel, hrun⟩ := hpage.returns hm V hV
    exact Or.inr ⟨fuel, V, (hmove fuel).trans hrun, hx⟩
  · rcases comesTo_cons.1 hx with ⟨hxU, node, hnode, hlast, rfl⟩ | ⟨fuel, V, hV, hx⟩
    · rw [hfind] at hnode
      cases hnode
      rw [hpage.oldest] at hlast
      obtain ⟨e', U'⟩ := x
      cases hxU
      cases hlast
      exact hpage.probes.2 hm
    · rw [hmove] at hV
      exact hlater V (hpage.calls fuel V hV) l x hx

theorem noProbes_iff (hrep : Rep L T) (htail : tail < wordSize)
    (hblock : ret = ptr ∨ T.MovesAway ret ptr tail) :
    NoProbes L ofa ret ptr tail T ↔ LimitsBelow L ofa ret ptr tail T := by
  have hasc : (pagesFrom (addr2PageNum ptr) (addr2PageNum tail)).Pairwise fun i j => i < j :=
    List.pairwise_lt_range' 1
  -- the pages from some page on, when those before have been dealt with
  suffices hpages : ∀ pages, pages ⊆ pagesFrom (addr2PageNum ptr) (addr2PageNum tail) →
      (pages.Pairwise fun i j => i < j) → ∀ U, TidyTree L U → Apart L pages T U →
      (NeverProbes L ofa ret ptr tail pages U ↔
        Meets (T.LimitBelow tail) (fun b => runAll (steadyInsert L ofa) b.calls)
          (pages.flatMap (T.pageScript ret ptr tail)) U) from
    hpages _ (List.Subset.refl _) hasc T hrep.tidyTree
      (Apart.refl hrep.owned hrep.tidyTree.placed)
  clear hasc
  intro pages hsub hasc
  induction pages with
  | nil => exact fun U _ _ => iff_of_true neverProbes_nil trivial
  | cons page pages ih =>
    intro U hU ha
    obtain ⟨hlater, hasc⟩ := List.pairwise_cons.1 hasc
    have hrest := ih (fun other hother => hsub (List.mem_cons_of_mem _ hother)) hasc
    have hfind := ha.find page (List.mem_cons_self ..)
    rw [List.flatMap_cons]
    cases hp : T.findNode page with
    | none =>
      rw [neverProbes_cons_none (hfind.trans hp), pageScript_none hp, List.nil_append]
      exact hrest U hU (ha.subset (List.subset_cons_self page pages))
    | some p =>
      obtain ⟨e, hpage⟩ := scriptedPage ofa hrep hU ha hlater hsub htail hblock hp
      rw [neverProbes_cons_some (hfind.trans hp) hpage, meets_append]
      refine and_congr_right fun hm => forall_congr' fun V => ?_
      rw [runAll_groups]
      refine imp_congr_right fun hV => ?_
      obtain ⟨haV, fuel, hrun⟩ := hpage.returns hm V hV
      have hmove : movePage L (steadyInsert L ofa) fuel ret ptr tail page U = some V := by
        rw [movePage_eq (hfind.trans hp), hpage.oldest, Option.bind_some, hrun]
      have htidy : TidyTree L V :=
        movePage_invariant (P := TidyTree L) (fun _ _ _ _ hT h => hT.steadyInsert h) hU hmove
      exact hrest V htidy haV

/-- On every page the block loop of `ts_realloc` ends, moving to a strictly newer
block each time, exactly when no iteration that it comes to probes; for a block
that has stayed, or whose records move away, exactly when the limits of all
iterations lie below `tail` in a run of their insertions. -/
theorem tsRealloc_advances_iff (hrep : Rep L T) (ret ptr tail : ℕ) :
    (LoopsAdvance L ofa ret ptr tail T ↔ NoProbes L ofa ret ptr tail T) ∧
    (tail < wordSize → ret = ptr ∨ T.MovesAway ret ptr tail →
      (LoopsAdvance L ofa ret ptr tail T ↔ LimitsBelow L ofa ret ptr tail T)) := by
  have hT : Bounded L (max (2 ^ 32) T.recBlockEntryPool.size) T :=
    ⟨hrep.owned, fun q hq => (hrep.node q hq).idx_le, le_max_right _ _⟩
  have hadvances : LoopsAdvance L ofa ret ptr tail T ↔ NoProbes L ofa ret ptr tail T :=
    forall₃_congr fun l x h =>
      PageLoop.advances_iff (le_max_left _ _) (runs_of_comesTo (le_max_left _ _) hT h)
  exact ⟨hadvances, fun htail hblock => hadvances.trans (noProbes_iff hrep htail hblock)⟩

end RecTree

/-- A page with two blocks, all records of which are moved. -/
theorem tsRealloc_advances_iff_twoBlocks : ∃ s, plainRun (onePage 40) = some s ∧
    (s.tree.moveScript 0x900000 0x4ff000 0x500800).length = 2 ∧
    RecTree.LoopsAdvance plainLibc s.maps.openFileArray 0x900000 0x4ff000 0x500800 s.tree := by
  have hrun : (plainRun (onePage 40)).any fun s =>
      decide ((∀ p ∈ s.tree.nodes, RecTree.NodeInv s.tree p) ∧
        (s.tree.moveScript 0x900000 0x4ff000 0x500800).length = 2) &&
      (runAll (guarded (s.tree.LimitBelow 0x500800) fun b =>
        runAll (RecTree.steadyInsert plainLibc s.maps.openFileArray) b.calls)
        (s.tree.moveScript 0x900000 0x4ff000 0x500800) s.tree).isSome := by
    decide +kernel
  obtain ⟨s, hs, hall⟩ := (Option.any_eq_true _ _).1 hrun
  obtain ⟨hstate, hlimits⟩ := Bool.and_eq_true_iff.1 hall
  obtain ⟨hnodes, htwo⟩ := of_decide_eq_true hstate
  obtain ⟨T', hT'⟩ := Option.isSome_iff_exists.1 hlimits
  refine ⟨s, hs, htwo, ((RecTree.tsRealloc_advances_iff (rep_of_check hs hnodes) _ _ _).2
    (by decide) (Or.inr (newBlock_moved.movesAway (by decide)))).2 ?_⟩
  exact (meets_of_checked (fun _ _ _ h => guarded_eq_some h) hT').1

/-- A block that ends where a page with a record begins: the slot behind that
record is never below the end of the block. -/
theorem tsRealloc_neverReturns : ∃ s, plainRun (onePage 1) = some s ∧ Reachable plainEnv s ∧
    RecTree.Rep plainLibc s.tree ∧
    (∃ l x, RecTree.ComesTo plainLibc (RecTree.insertRec plainLibc s.maps.openFileArray)
        0x900000 0x4ff000 0x500000 [0x4ff, 0x500] s.tree l x ∧
      l.next (RecTree.insertRec plainLibc s.maps.openFileArray) x = some x ∧
      ¬ l.Advances (RecTree.insertRec plainLibc s.maps.openFileArray) x) ∧
    ∀ fuel, s.tree.tsRealloc plainLibc (RecTree.insertRec plainLibc s.maps.openFileArray) fuel
      0x900000 0x4ff000 0x500000 = none := by
  have hrun : (plainRun (onePage 1)).any fun s =>
      decide ((∀ p ∈ s.tree.nodes, RecTree.NodeInv s.tree p) ∧ s.tree.findNode 0x4ff = none) &&
      (s.tree.findNode 0x500).any fun p =>
        (s.tree.tailqLast (s.tree.recTreeNodes p).listHead).any fun e =>
          decide ((RecTree.loopOf plainLibc 0x900000 0x4ff000 0x500000 0x500 p s.tree).Probes
            (e, s.tree)) := by
    decide +kernel
  obtain ⟨s, hs, hall⟩ := (Option.any_eq_true _ _).1 hrun
  obtain ⟨hstate, hpage⟩ := Bool.and_eq_true_iff.1 hall
  obtain ⟨hnodes, hnone⟩ := of_decide_eq_true hstate
  obtain ⟨p, hp, hblock⟩ := (Option.any_eq_true _ _).1 hpage
  obtain ⟨e, he, hprobe⟩ := (Option.any_eq_true _ _).1 hblock
  have hprobe' := of_decide_eq_true hprobe
  set l := RecTree.loopOf plainLibc 0x900000 0x4ff000 0x500000 0x500 p s.tree with hl
  have hnext : l.next (RecTree.insertRec plainLibc s.maps.openFileArray) (e, s.tree) =
      some (e, s.tree) := RecTree.PageLoop.next_of_probes hprobe'
  have hdom := not_dom_of_stuck Relation.ReflTransGen.refl hnext
  have hfirst : ∀ fuel, RecTree.movePage plainLibc
    (RecTree.insertRec plainLibc s.maps.openFileArray) fuel
      0x900000 0x4ff000 0x500000 0x4ff s.tree = some s.tree := fun fuel => by
    simp only [RecTree.movePage, hnone]
  refine ⟨s, hs, reachable_plainRun hs, rep_of_check hs hnodes,
    ⟨l, (e, s.tree), ⟨0, [0x4ff], 0x500, [], p, rfl, ?_, hp, he, rfl⟩, hnext,
      fun h => hdom h.1⟩, fun fuel => ?_⟩
  · rw [runAll_cons, hfirst]
    rfl
  · rw [RecTree.tsRealloc, show pagesFrom (addr2PageNum 0x4ff000) (addr2PageNum 0x500000) =
      [0x4ff, 0x500] from rfl, runAll_cons, hfirst, Option.bind_some, runAll_cons,
      RecTree.movePage_eq hp, he, Option.bind_some]
    cases hU : l.run (RecTree.insertRec plainLibc s.maps.openFileArray) fuel (some e) s.tree with
    | none => rfl
    | some U => exact absurd (RecTree.PageLoop.dom_of_run hU) hdom

end Cidl
