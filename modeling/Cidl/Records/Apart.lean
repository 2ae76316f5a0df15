import Cidl.Records.Frame
import Cidl.Records.Invariant

/-!
# Insertions away from some pages

What insertions leave alone on pages that they do not write to.  As long as no
reclaim takes place (`steadyInsert`), an insertion changes the node of its own
page only (`onPage_insertRec`).  `Apart pages T₀ T` says that the nodes of the
given pages are in `T` what they were in `T₀`, and `apart_steadyInsert` is the
step that keeps it.

For the other nodes nothing of their order is needed, only that each appends
into one of its own blocks (`Placed`).
-/

namespace Cidl

open SearchTree Shape

namespace RecTree

variable {L : Libc} {T T' T'' T₀ : RecTree} {ofa : ℤ → Option ℕ} {p q page : ℕ}

/-! ## Changes on one page -/

/-- The nodes of a tree are found by their pages. -/
theorem findNode_eq_some (ho : Owned L T.shape) :
    T.findNode page = some p ↔ p ∈ T.nodes ∧ (T.recTreeNodes p).pageNum = page :=
  tfind_byKey ho.sorted page p

/-- `T'` is `T` but for the page `page`, whose node may have changed or be new. -/
structure OnPage (T T' : RecTree) (page : ℕ) : Prop where
  placed : ∀ q ∈ T'.nodes, Placed T' q
  others : ∀ q ∈ T.nodes, (T.recTreeNodes q).pageNum ≠ page → q ∈ T'.nodes ∧ SameNode T T' q
  fresh : ∀ q ∈ T'.nodes, (T'.recTreeNodes q).pageNum ≠ page →
    q ∈ T.nodes ∧ (T.recTreeNodes q).pageNum ≠ page
  walks : T'.walks = T.walks

theorem OnPage.refl (hall : ∀ q ∈ T.nodes, Placed T q) (page : ℕ) : OnPage T T page where
  placed := hall
  others q hq _ := ⟨hq, SameNode.refl T q⟩
  fresh _ hq hne := ⟨hq, hne⟩
  walks := rfl

theorem OnPage.trans (h : OnPage T T' page) (h' : OnPage T' T'' page) : OnPage T T'' page where
  placed := h'.placed
  others q hq hne := by
    obtain ⟨hq', hsame⟩ := h.others q hq hne
    obtain ⟨hq'', hsame'⟩ := h'.others q hq' (by rw [hsame.node]; exact hne)
    exact ⟨hq'', hsame.trans hsame'⟩
  fresh q hq hne := by
    obtain ⟨hq', hne'⟩ := h'.fresh q hq hne
    exact h.fresh q hq' hne'
  walks := h'.walks.trans h.walks

/-- The nodes of other pages are found as before. -/
theorem OnPage.findNode (h : OnPage T T' page) (ho : Owned L T.shape) (ho' : Owned L T'.shape)
    {other : ℕ} (hne : other ≠ page) : T'.findNode other = T.findNode other := by
  refine Option.ext fun q => ?_
  rw [findNode_eq_some ho, findNode_eq_some ho']
  constructor
  · rintro ⟨hq, rfl⟩
    obtain ⟨hqT, hneT⟩ := h.fresh q hq hne
    exact ⟨hqT, (congrArg RecTreeNode.pageNum (h.others q hqT hneT).2.node).symm⟩
  · rintro ⟨hq, rfl⟩
    obtain ⟨hq', hsame⟩ := h.others q hq hne
    exact ⟨hq', congrArg RecTreeNode.pageNum hsame.node⟩

/-! ## The parts of an insertion -/

theorem sameNode_logCall (T : RecTree) (c : InsertCall) (q : ℕ) : SameNode T (T.logCall c) q :=
  ⟨rfl, rfl, fun _ _ => rfl, fun _ _ _ _ _ => rfl⟩

/-- The log is not part of a page. -/
theorem onPage_logCall (c : InsertCall) (hall : ∀ q ∈ T.nodes, Placed T q) (page : ℕ) :
    OnPage T (T.logCall c) page where
  placed q hq := (sameNode_logCall T c q).placed (hall q hq)
  others q hq _ := ⟨hq, sameNode_logCall T c q⟩
  fresh _ hq hne := ⟨hq, hne⟩
  walks := rfl

theorem walks_clearPage (ho : Owned L T.shape) {dest : ℕ} (hp : p ∈ T.nodes)
    (h : clearPage p dest T = some T') : T'.walks = T.walks := by
  obtain ⟨-, ⟨-, rfl⟩ | ⟨-, newer, oldest, U, -, w, -, rfl⟩⟩ := clearPage_eq_some ho hp h
  · rfl
  · exact w.walks

theorem walks_newTreeNode (h : newTreeNode L page T = some (p, T')) : T'.walks = T.walks := by
  obtain ⟨head, e, arr, np, hp, ep, ap, -, -, -, -, rfl⟩ := newTreeNode_eq_some h
  rfl

theorem walks_writeRec {c : InsertCall} (hp : T.findNode page = some p)
    (h : writeRec L c page p T = some T') : T'.walks = T.walks := by
  rcases writeRec_eq_some hp h with ⟨-, rfl⟩ | ⟨-, e, arr, ep, ap, -, -, rfl⟩ <;> rfl

theorem onPage_clearPage (ho : Owned L T.shape) (hall : ∀ q ∈ T.nodes, Placed T q) {dest : ℕ}
    (hp : T.findNode page = some p) (h : clearPage p dest T = some T') : OnPage T T' page := by
  obtain ⟨hpn, hkey⟩ := (findNode_eq_some ho).1 hp
  have hpage : T'.shape.pageNum = T.shape.pageNum := (owned_clearPage ho hpn h).2.2.1
  have hwalks := walks_clearPage ho hpn h
  rcases cleared_clearPage ho hpn h with ⟨-, rfl⟩ | ⟨-, hclear⟩
  · exact OnPage.refl hall page
  · have hne : ∀ q, (T.recTreeNodes q).pageNum ≠ page → q ≠ p := fun q hq heq => hq (heq ▸ hkey)
    refine ⟨fun q hq => ?_, fun q hq hq' => ?_, fun q hq hq' => ?_, hwalks⟩
    · by_cases hqp : q = p
      · exact hqp ▸ hclear.inv.placed
      · rw [hclear.nodes] at hq
        exact (hclear.others q hq hqp).placed (hall q hq)
    · exact ⟨hclear.nodes ▸ hq, hclear.others q hq (hne q hq')⟩
    · rw [hclear.nodes] at hq
      rw [show (T'.recTreeNodes q).pageNum = (T.recTreeNodes q).pageNum from
        congrFun hpage q] at hq'
      exact ⟨hq, hq'⟩

theorem onPage_newTreeNode (ho : Owned L T.shape) (hall : ∀ q ∈ T.nodes, Placed T q)
    (hnew : T.findNode page = none) (h : newTreeNode L page T = some (p, T')) :
    OnPage T T' page := by
  obtain ⟨-, hinv, hsame⟩ := cleared_newTreeNode ho h
  obtain ⟨ho', hperm⟩ := owned_newTreeNode ho hnew h
  have hkey : (T'.recTreeNodes p).pageNum = page := by
    obtain ⟨head, e, arr, np, hp, ep, ap, -, -, -, -, rfl⟩ := newTreeNode_eq_some h
    simp [withNode]
  have hmem : ∀ q, q ∈ T'.nodes ↔ q = p ∨ q ∈ T.nodes := fun q => by
    rw [hperm.mem_iff, List.mem_cons]
  refine ⟨fun q hq => ?_, fun q hq _ => ⟨(hmem q).2 (Or.inr hq), hsame q hq⟩,
    fun q hq hne => ?_, walks_newTreeNode h⟩
  · rcases (hmem q).1 hq with rfl | hq
    · exact hinv.placed
    · exact (hsame q hq).placed (hall q hq)
  · rcases (hmem q).1 hq with rfl | hq
    · exact absurd hkey hne
    · rw [(hsame q hq).node] at hne
      exact ⟨hq, hne⟩

theorem onPage_writeRec (ho : Owned L T.shape) (hall : ∀ q ∈ T.nodes, Placed T q) {c : InsertCall}
    (hp : T.findNode page = some p) (h : writeRec L c page p T = some T') :
    OnPage T T' page := by
  obtain ⟨hpn, hkey⟩ := (findNode_eq_some ho).1 hp
  obtain ⟨hpl, hothers⟩ := placed_writeRec ho hp (hall p hpn) h
  have hnodes : T'.nodes = T.nodes ∧ (T'.recTreeNodes p).pageNum = (T.recTreeNodes p).pageNum := by
    rcases writeRec_eq_some hp h with ⟨-, rfl⟩ | ⟨-, e, arr, ep, ap, -, -, rfl⟩
    · exact ⟨by simp [RecTree.nodes], by rw [setCursor_node]; rfl⟩
    · exact ⟨rfl, by simp [withBlock]⟩
  refine ⟨fun q hq => ?_, fun q hq hne => ?_, fun q hq hne => ?_, walks_writeRec hp h⟩
  · rw [hnodes.1] at hq
    by_cases hqp : q = p
    · exact hqp ▸ hpl
    · exact (hothers q hq hqp).placed (hall q hq)
  · rw [hnodes.1]
    exact ⟨hq, hothers q hq fun hqp => hne (hqp ▸ hkey)⟩
  · rw [hnodes.1] at hq
    have hqp : q ≠ p := fun hqp => hne (by rw [hqp, hnodes.2, hkey])
    rw [(hothers q hq hqp).node] at hne
    exact ⟨hq, hne⟩

/-! ## Insertions without a reclaim -/

/-- `insertRec`, stopping where it would reclaim garbage. -/
def steadyInsert (L : Libc) : Insert := fun ofa c T =>
  if T.findNode (addr2PageNum c.dest) = none ∧ T.needsReclaim then none else insertRec L ofa c T

theorem steadyInsert_eq_some {c : InsertCall} (h : steadyInsert L ofa c T = some T') :
    ¬ (T.findNode (addr2PageNum c.dest) = none ∧ T.needsReclaim) ∧
      insertRec L ofa c T = some T' := by
  unfold steadyInsert at h
  split at h
  · cases h
  · rename_i hsteady
    exact ⟨hsteady, h⟩

theorem walks_steadyInsert (ho : Owned L T.shape) {c : InsertCall}
    (h : steadyInsert L ofa c T = some T') : T'.walks = T.walks := by
  obtain ⟨hsteady, h⟩ := steadyInsert_eq_some h
  have hoU : Owned L (T.logCall c).shape := ho
  have hwalks : (T.logCall c).walks = T.walks := rfl
  have hsteadyU : ¬ ((T.logCall c).findNode (addr2PageNum c.dest) = none ∧
      (T.logCall c).needsReclaim) := hsteady
  rw [← hwalks]
  clear ho hsteady hwalks
  simp only [insertRec] at h
  generalize T.logCall c = U at h hoU hsteadyU ⊢
  split at h
  · rename_i p hp
    obtain ⟨V, hV, h⟩ := Option.bind_eq_some_iff.1 h
    exact (walks_writeRec (findNode_clearPage hoU hp hV) h).trans
      (walks_clearPage hoU (mem_nodes_of_findNode hp) hV)
  · rename_i hnew
    obtain ⟨⟨p, V⟩, hV, h⟩ := Option.bind_eq_some_iff.1 h
    obtain ⟨-, hpV⟩ := owned_addTreeNode hoU hnew hV
    obtain ⟨W, hW, hV⟩ := Option.bind_eq_some_iff.1 hV
    rw [reclaimIfNeeded, if_neg fun hneeds => hsteadyU ⟨hnew, hneeds⟩] at hW
    cases hW
    exact (walks_writeRec hpV h).trans (walks_newTreeNode hV)

theorem onPage_insertRec (ho : Owned L T.shape) (hall : ∀ q ∈ T.nodes, Placed T q) {c : InsertCall}
    (hsteady : ¬ (T.findNode (addr2PageNum c.dest) = none ∧ T.needsReclaim))
    (h : insertRec L ofa c T = some T') : OnPage T T' (addr2PageNum c.dest) := by
  have hlog := onPage_logCall c hall (addr2PageNum c.dest)
  refine hlog.trans ?_
  have hoU : Owned L (T.logCall c).shape := ho
  have hallU : ∀ q ∈ (T.logCall c).nodes, Placed (T.logCall c) q := hlog.placed
  have hsteadyU : ¬ ((T.logCall c).findNode (addr2PageNum c.dest) = none ∧
      (T.logCall c).needsReclaim) := hsteady
  clear hlog ho hall hsteady
  simp only [insertRec] at h
  generalize T.logCall c = U at h hoU hallU hsteadyU ⊢
  split at h
  · rename_i p hp
    obtain ⟨V, hV, h⟩ := Option.bind_eq_some_iff.1 h
    have hoV := (owned_clearPage hoU (mem_nodes_of_findNode hp) hV).1
    have hclear := onPage_clearPage hoU hallU hp hV
    exact hclear.trans (onPage_writeRec hoV hclear.placed (findNode_clearPage hoU hp hV) h)
  · rename_i hnew
    obtain ⟨⟨p, V⟩, hV, h⟩ := Option.bind_eq_some_iff.1 h
    obtain ⟨hoV, hpV⟩ := owned_addTreeNode hoU hnew hV
    obtain ⟨W, hW, hV⟩ := Option.bind_eq_some_iff.1 hV
    rw [reclaimIfNeeded, if_neg fun hneeds => hsteadyU ⟨hnew, hneeds⟩] at hW
    cases hW
    have hadd := onPage_newTreeNode hoU hallU hnew hV
    exact hadd.trans (onPage_writeRec hoV hadd.placed hpV h)

/-! ## Pages that stay as they are -/

/-- The nodes of the pages `pages` are in `T` what they were in `T₀`. -/
structure Apart (L : Libc) (pages : List ℕ) (T₀ T : RecTree) : Prop where
  owned : Owned L T.shape
  placed : ∀ q ∈ T.nodes, Placed T q
  find : ∀ page ∈ pages, T.findNode page = T₀.findNode page
  same : ∀ page ∈ pages, ∀ q, T₀.findNode page = some q → SameNode T₀ T q
  walks : T.walks = T₀.walks

theorem Apart.refl {pages : List ℕ} (ho : Owned L T.shape) (hall : ∀ q ∈ T.nodes, Placed T q) :
    Apart L pages T T where
  owned := ho
  placed := hall
  find _ _ := rfl
  same _ _ q _ := SameNode.refl T q
  walks := rfl

theorem Apart.subset {pages pages' : List ℕ} (ha : Apart L pages T₀ T) (hsub : pages' ⊆ pages) :
    Apart L pages' T₀ T where
  owned := ha.owned
  placed := ha.placed
  find page hpage := ha.find page (hsub hpage)
  same page hpage := ha.same page (hsub hpage)
  walks := ha.walks

/-- A change of another page. -/
theorem Apart.onPage {pages : List ℕ} (ha : Apart L pages T₀ T) (ho' : Owned L T'.shape)
    (hon : OnPage T T' page) (hpage : page ∉ pages) : Apart L pages T₀ T' := by
  have hne : ∀ other ∈ pages, other ≠ page := fun other hother heq => hpage (heq ▸ hother)
  refine ⟨ho', hon.placed, fun other hother => ?_, fun other hother q hq => ?_,
    hon.walks.trans ha.walks⟩
  · rw [hon.findNode ha.owned ho' (hne other hother), ha.find other hother]
  · have hqT := ha.find other hother
    rw [hq, findNode_eq_some ha.owned] at hqT
    refine (ha.same other hother q hq).trans (hon.others q hqT.1 ?_).2
    rw [hqT.2]
    exact hne other hother

/-- Without a reclaim a cell of the tree names the node that it named. -/
theorem reread_of_walks (L : Libc) (node : ℕ) {now : RecTree} (h : now.walks = T.walks) :
    T.reread L node now = node := if_pos h

theorem apart_steadyInsert {pages : List ℕ} (ha : Apart L pages T₀ T) {c : InsertCall}
    (hdest : addr2PageNum c.dest ∉ pages) (h : steadyInsert L ofa c T = some T') :
    Apart L pages T₀ T' := by
  obtain ⟨hsteady, h⟩ := steadyInsert_eq_some h
  exact ha.onPage (owned_insertRec ha.owned h)
    (onPage_insertRec ha.owned ha.placed hsteady h) hdest

end RecTree

end Cidl
