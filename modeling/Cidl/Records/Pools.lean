import Cidl.Lib.Run
import Cidl.Model.Api

/-!
# Allocating and withdrawing, in any order

The queue heads, the block entries and the record arrays come from pools that
grow.  Here their six operations are called in any order, by a caller who only
gives back what it holds: `out` is what it holds.

* `Sound` is the invariant of one pool: the free objects and those handed out
  do not overlap, they number the size of the pool, and its pointer array has
  room for them.
* `CallOk` is the condition on a call: an object that is given back is one
  that is out, and the stack pointer stays in the range of an `int`.
* `pools_sound` — a run of such calls from `initMemory` never fails, and every
  pool is sound at its end.
-/

namespace Cidl

/-- The pools that grow. -/
inductive GrowingPool where
  | tailHead
  | recBlockEntry
  | recArr
  deriving DecidableEq

namespace GrowingPool

/-- The size of an object, in the units its addresses count. -/
def width : GrowingPool → ℕ
  | tailHead => 1
  | recBlockEntry => 1
  | recArr => memRecPerEntry

/-- The size of the pool after `initMemory`. -/
def first : GrowingPool → ℕ
  | tailHead => 8000
  | recBlockEntry => 6000
  | recArr => 6000

/-- Where `malloc` puts the slabs of the pool. -/
def slabs (L : Libc) : (k : GrowingPool) → Slabs k.width k.first
  | tailHead => L.headSlabs
  | recBlockEntry => L.entrySlabs
  | recArr => L.arrSlabs

end GrowingPool

namespace RecTree

variable {L : Libc} {T T' : RecTree} {k : GrowingPool} {x : ℕ}

/-- One of the growing pools. -/
def poolOf (T : RecTree) : GrowingPool → Pool
  | .tailHead => T.tailHeadPool
  | .recBlockEntry => T.recBlockEntryPool
  | .recArr => T.recArrPool

/-- The allocator of a pool. -/
def allocate (L : Libc) (k : GrowingPool) (T : RecTree) : Option (ℕ × RecTree) :=
  match k with
  | .tailHead => T.allocateTailHead L
  | .recBlockEntry => T.allocateRecBlockEntry L
  | .recArr => T.allocateMemRecArr L

/-- The function that takes an object of a pool back. -/
def withdraw (k : GrowingPool) (x : ℕ) (T : RecTree) : Option RecTree :=
  match k with
  | .tailHead => T.withdrawTailHead x
  | .recBlockEntry => T.withdrawRecBlockEntry x
  | .recArr => T.withdrawMemRecArr x

/-- An allocator hands out an object of its own pool and leaves the other pools alone. -/
theorem allocate_spec (h : T.allocate L k = some (x, T')) :
    (T.poolOf k).take (k.slabs L) = some (x, T'.poolOf k) ∧ ∀ j ≠ k, T'.poolOf j = T.poolOf j := by
  cases k
  all_goals
    obtain ⟨⟨y, p⟩, hp, heq⟩ := Option.map_eq_some_iff.1 h
    cases heq
    refine ⟨hp, fun j hj => ?_⟩
    cases j
    all_goals first | rfl | exact absurd rfl hj

theorem allocate_isSome {p : Pool} (h : (T.poolOf k).take (k.slabs L) = some (x, p)) :
    ∃ T', T.allocate L k = some (x, T') := by
  cases k
  all_goals exact ⟨_, Option.map_eq_some_iff.2 ⟨_, h, rfl⟩⟩

/-- An object goes back to its own pool, and the other pools stay as they are. -/
theorem withdraw_spec (h : T.withdraw k x = some T') :
    (T.poolOf k).push x = some (T'.poolOf k) ∧ ∀ j ≠ k, T'.poolOf j = T.poolOf j := by
  cases k
  all_goals
    obtain ⟨p, hp, heq⟩ := Option.map_eq_some_iff.1 h
    cases heq
    refine ⟨hp, fun j hj => ?_⟩
    cases j
    all_goals first | rfl | exact absurd rfl hj

theorem withdraw_isSome {p : Pool} (h : (T.poolOf k).push x = some p) :
    ∃ T', T.withdraw k x = some T' := by
  cases k
  all_goals exact ⟨_, Option.map_eq_some_iff.2 ⟨_, h, rfl⟩⟩

end RecTree

/-! ## Runs of the pool functions -/

/-- The objects and pools, and what the callers of the pools hold. -/
structure Holdings where
  tree : RecTree
  out : GrowingPool → List ℕ

/-- A call of one of the six functions. -/
inductive PoolCall where
  | allocate (k : GrowingPool)
  | withdraw (k : GrowingPool) (x : ℕ)

namespace Holdings

variable {L : Libc} {H H' : Holdings} {k : GrowingPool} {x : ℕ} {c : PoolCall}

/-- Perform a call; `none` is a failed assertion. -/
def perform (L : Libc) : PoolCall → Holdings → Option Holdings
  | .allocate k, H => (H.tree.allocate L k).map fun r =>
      { tree := r.2, out := Function.update H.out k (r.1 :: H.out k) }
  | .withdraw k x, H => (H.tree.withdraw k x).map fun T =>
      { tree := T, out := Function.update H.out k ((H.out k).erase x) }

/-- Only what is out is given back, and the stack pointer stays below `2 ^ 31`. -/
def CallOk : PoolCall → Holdings → Prop
  | .allocate k, H => (H.tree.poolOf k).ptr = [] → (H.tree.poolOf k).size < 2 ^ 31
  | .withdraw k x, H => x ∈ H.out k ∧ (H.tree.poolOf k).idx + 1 < 2 ^ 31

instance : ∀ c H, Decidable (CallOk c H)
  | .allocate k, H =>
    inferInstanceAs (Decidable ((H.tree.poolOf k).ptr = [] → (H.tree.poolOf k).size < 2 ^ 31))
  | .withdraw k x, H =>
    inferInstanceAs (Decidable (x ∈ H.out k ∧ (H.tree.poolOf k).idx + 1 < 2 ^ 31))

/-- The invariant of one pool. -/
structure Sound (H : Holdings) (k : GrowingPool) : Prop where
  /-- No object is twice among the free ones and those handed out. -/
  nodup : (H.out k ++ (H.tree.poolOf k).ptr).Nodup
  /-- Different objects do not overlap. -/
  apart : ∀ x ∈ H.out k ++ (H.tree.poolOf k).ptr, ∀ y ∈ H.out k ++ (H.tree.poolOf k).ptr,
    x ≠ y → x + k.width ≤ y ∨ y + k.width ≤ x
  card : (H.out k).length + (H.tree.poolOf k).idx = (H.tree.poolOf k).size
  room : (H.tree.poolOf k).size ≤ (H.tree.poolOf k).room

/-- What `initMemory` leaves: nothing is out yet. -/
def start (L : Libc) (recMem : ℤ → MemRec) (recBlockEntries : ℕ → RecBlockEntry)
    (recTreeNodes : ℕ → RecTreeNode) : Holdings where
  tree := .initMemory L recMem recBlockEntries recTreeNodes
  out := fun _ => []

/-- Every pool owns what is out of it. -/
def AllOwn (L : Libc) (H : Holdings) : Prop :=
  ∀ k, (H.tree.poolOf k).Owns (k.slabs L) (H.out k)

theorem allOwn_start (recMem : ℤ → MemRec) (recBlockEntries : ℕ → RecBlockEntry)
    (recTreeNodes : ℕ → RecTreeNode) :
    AllOwn L (start L recMem recBlockEntries recTreeNodes) := by
  intro k
  cases k
  all_goals exact Pool.owns_start

theorem AllOwn.sound (h : AllOwn L H) (k : GrowingPool) : H.Sound k where
  nodup := (h k).nodup
  apart _ hx _ hy hne := (h k).apart_all hx hy hne
  card := (h k).card
  room := (h k).room.ge

/-- A change of one pool that keeps its ownership keeps everything. -/
theorem AllOwn.update {T : RecTree} {used : List ℕ} (h : AllOwn L H)
    (hk : (T.poolOf k).Owns (k.slabs L) used) (hother : ∀ j ≠ k, T.poolOf j = H.tree.poolOf j) :
    AllOwn L { tree := T, out := Function.update H.out k used } := by
  intro j
  by_cases hj : j = k
  · subst hj
    simpa using hk
  · simpa [Function.update_of_ne hj, hother j hj] using h j

/-- One call: it keeps the ownership of every pool. -/
theorem AllOwn.step (h : AllOwn L H) (hok : CallOk c H) (hp : perform L c H = some H') :
    AllOwn L H' := by
  cases c with
  | allocate k =>
    obtain ⟨⟨x, T⟩, hT, rfl⟩ := Option.map_eq_some_iff.1 hp
    obtain ⟨htake, hother⟩ := RecTree.allocate_spec hT
    exact h.update ((h k).take htake) hother
  | withdraw k x =>
    obtain ⟨T, hT, rfl⟩ := Option.map_eq_some_iff.1 hp
    obtain ⟨hpush, hother⟩ := RecTree.withdraw_spec hT
    exact h.update (((h k).perm (List.perm_cons_erase hok.1)).push hpush) hother

/-- One call: its assertion holds. -/
theorem AllOwn.step_isSome (h : AllOwn L H) (hok : CallOk c H) :
    ∃ H', perform L c H = some H' := by
  cases c with
  | allocate k =>
    obtain ⟨x, p, htake⟩ := Pool.take_isSome (S := k.slabs L) hok
    obtain ⟨T, hT⟩ := RecTree.allocate_isSome htake
    exact ⟨_, Option.map_eq_some_iff.2 ⟨_, hT, rfl⟩⟩
  | withdraw k x =>
    have hown := (h k).perm (List.perm_cons_erase hok.1)
    obtain ⟨p, hpush⟩ := Option.isSome_iff_exists.1 hown.push_isSome
    obtain ⟨T, hT⟩ := RecTree.withdraw_isSome hpush
    exact ⟨_, Option.map_eq_some_iff.2 ⟨_, hT, rfl⟩⟩

/-- Any sequence of allocations and withdrawals that gives back only what is
out, each object once, goes through, and leaves every pool sound. -/
theorem pools_sound (L : Libc) (recMem : ℤ → MemRec) (recBlockEntries : ℕ → RecBlockEntry)
    (recTreeNodes : ℕ → RecTreeNode) (cs : List PoolCall)
    (hok : Meets CallOk (perform L) cs (start L recMem recBlockEntries recTreeNodes)) :
    ∃ H, runAll (perform L) cs (start L recMem recBlockEntries recTreeNodes) = some H ∧
      ∀ k, H.Sound k := by
  suffices hrun : ∀ H, AllOwn L H → Meets CallOk (perform L) cs H →
      ∃ H', runAll (perform L) cs H = some H' ∧ AllOwn L H' by
    obtain ⟨H, hH, hown⟩ := hrun _ (allOwn_start recMem recBlockEntries recTreeNodes) hok
    exact ⟨H, hH, hown.sound⟩
  clear hok
  intro H hown hok
  induction cs generalizing H with
  | nil => exact ⟨H, rfl, hown⟩
  | cons c cs ih =>
    obtain ⟨H₁, h₁⟩ := hown.step_isSome hok.1
    obtain ⟨H', h', hown'⟩ := ih H₁ (hown.step hok.1 h₁) (hok.2 H₁ h₁)
    exact ⟨H', runAll_cons_eq_some.2 ⟨H₁, h₁, h'⟩, hown'⟩

/-- A queue head is handed out and taken back, and a record array is handed out. -/
def headAndBack : List PoolCall :=
  [.allocate .tailHead, .withdraw .tailHead 7999, .allocate .recArr]

theorem pools_sound_headAndBack :
    ∃ H, runAll (perform plainLibc) headAndBack
      (start plainLibc (fun _ => default) (fun _ => default) fun _ => default) = some H ∧
      ∀ k, H.Sound k := by
  have hrun : (runAll (guarded CallOk (perform plainLibc)) headAndBack
      (start plainLibc (fun _ => default) (fun _ => default) fun _ => default)).isSome := by
    decide +kernel
  obtain ⟨H, hH⟩ := Option.isSome_iff_exists.1 hrun
  have hok := (meets_of_checked (fun _ _ _ => guarded_eq_some) hH).1
  exact pools_sound plainLibc _ _ _ headAndBack hok

end Holdings

end Cidl
