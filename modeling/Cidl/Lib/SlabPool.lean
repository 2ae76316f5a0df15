import Mathlib.Data.List.Nodup
import Mathlib.Data.List.Perm.Basic
import Mathlib.Data.List.Range
import Mathlib.Tactic

/-!
# Object pools that grow by doubling

A pool keeps its free objects on a stack of pointers.  `pop` and `push` are the
two guarded stack operations; `take` first adds a slab when the stack is empty,
as large as everything the pool has handed out so far, so that the size
doubles.  An object is known by its address, and an address is counted in units
of the caller's choice, `width` of them to an object.

* `Slabs width first` is the answer of the allocator: where each slab begins,
  with the promise that objects of different slabs do not overlap.
* `Pool.Owns S p used` says that `used` are the objects handed out: together
  with the free ones they are distinct, they number the size of the pool, and
  they all lie in slabs obtained so far.
* `Owns.take`, `Owns.pop`, `Owns.push` are the three step lemmas, and
  `Owns.apart` is what they are for: two objects in use never overlap.
-/

namespace Cidl

/-! ## Slabs -/

/-- How many objects the `k`-th slab holds when the first one holds `first`. -/
def slabLen (first : ℕ) : ℕ → ℕ
  | 0 => first
  | k + 1 => first * 2 ^ k

/-- The objects of a slab that begins at `base`, the last one first. -/
def slabCells (width base : ℕ) : ℕ → List ℕ
  | 0 => []
  | len + 1 => (base + width * len) :: slabCells width base len

@[simp] theorem length_slabCells (width base len : ℕ) :
    (slabCells width base len).length = len := by
  induction len with
  | zero => rfl
  | succ len ih => simp [slabCells, ih]

theorem mem_slabCells {width base len x : ℕ} :
    x ∈ slabCells width base len ↔ ∃ i < len, base + width * i = x := by
  induction len with
  | zero => simp [slabCells]
  | succ len ih =>
    rw [slabCells, List.mem_cons, ih]
    constructor
    · rintro (rfl | ⟨i, hi, rfl⟩)
      · exact ⟨len, Nat.lt_succ_self _, rfl⟩
      · exact ⟨i, Nat.lt_succ_of_lt hi, rfl⟩
    · rintro ⟨i, hi, rfl⟩
      rcases Nat.lt_succ_iff_lt_or_eq.1 hi with h | rfl
      · exact Or.inr ⟨i, h, rfl⟩
      · exact Or.inl rfl

theorem nodup_slabCells {width : ℕ} (hw : 0 < width) (base len : ℕ) :
    (slabCells width base len).Nodup := by
  induction len with
  | zero => exact List.nodup_nil
  | succ len ih =>
    refine List.nodup_cons.2 ⟨fun hmem => ?_, ih⟩
    obtain ⟨i, hi, heq⟩ := mem_slabCells.1 hmem
    have hlt : width * i < width * len := Nat.mul_lt_mul_of_pos_left hi hw
    omega

/-- The slabs that the allocator hands to one pool, in order. -/
structure Slabs (width first : ℕ) where
  base : ℕ → ℕ
  width_pos : 0 < width
  first_pos : 0 < first
  /-- Objects of different slabs do not overlap. -/
  apart : ∀ i j, i ≠ j → ∀ x ∈ slabCells width (base i) (slabLen first i),
    ∀ y ∈ slabCells width (base j) (slabLen first j), x + width ≤ y ∨ y + width ≤ x

namespace Slabs

variable {width first : ℕ} (S : Slabs width first)

/-- The objects of the `k`-th slab. -/
def cells (k : ℕ) : List ℕ := slabCells width (S.base k) (slabLen first k)

@[simp] theorem length_cells (k : ℕ) : (S.cells k).length = slabLen first k :=
  length_slabCells _ _ _

theorem nodup_cells (k : ℕ) : (S.cells k).Nodup := nodup_slabCells S.width_pos _ _

/-- Two objects of one slab do not overlap. -/
theorem cells_apart {k x y : ℕ} (hx : x ∈ S.cells k) (hy : y ∈ S.cells k) (hne : x ≠ y) :
    x + width ≤ y ∨ y + width ≤ x := by
  obtain ⟨i, -, rfl⟩ := mem_slabCells.1 hx
  obtain ⟨j, -, rfl⟩ := mem_slabCells.1 hy
  rcases Nat.lt_trichotomy i j with hij | rfl | hij
  · left
    calc S.base k + width * i + width = S.base k + width * (i + 1) := by rw [Nat.mul_succ]; omega
      _ ≤ S.base k + width * j := Nat.add_le_add_left (Nat.mul_le_mul_left _ hij) _
  · exact absurd rfl hne
  · right
    calc S.base k + width * j + width = S.base k + width * (j + 1) := by rw [Nat.mul_succ]; omega
      _ ≤ S.base k + width * i := Nat.add_le_add_left (Nat.mul_le_mul_left _ hij) _

/-- How many objects come before the `k`-th slab when slabs lie one after the other. -/
def startOf (first : ℕ) : ℕ → ℕ
  | 0 => 0
  | k + 1 => first * 2 ^ k

theorem startOf_add_slabLen_le (first : ℕ) {i j : ℕ} (hij : i < j) :
    startOf first i + slabLen first i ≤ startOf first j := by
  obtain ⟨j, rfl⟩ : ∃ j', j = j' + 1 := ⟨j - 1, by omega⟩
  cases i with
  | zero => simpa [slabLen, startOf] using Nat.le_mul_of_pos_right first (Nat.two_pow_pos j)
  | succ i =>
    have hpow : 2 ^ i * 2 ≤ 2 ^ j := by
      rw [← Nat.pow_succ]
      exact Nat.pow_le_pow_right (by omega) (by omega)
    calc first * 2 ^ i + first * 2 ^ i = first * (2 ^ i * 2) := by
          rw [← Nat.mul_add, Nat.mul_two]
      _ ≤ first * 2 ^ j := Nat.mul_le_mul_left _ hpow

/-- Slabs laid out one after the other. -/
def contiguous (width first : ℕ) (hw : 0 < width) (hf : 0 < first) : Slabs width first where
  base k := width * startOf first k
  width_pos := hw
  first_pos := hf
  apart := by
    have key : ∀ i j, i < j → ∀ x ∈ slabCells width (width * startOf first i) (slabLen first i),
        ∀ y ∈ slabCells width (width * startOf first j) (slabLen first j), x + width ≤ y := by
      intro i j hij x hx y hy
      obtain ⟨a, ha, rfl⟩ := mem_slabCells.1 hx
      obtain ⟨b, -, rfl⟩ := mem_slabCells.1 hy
      have hend := startOf_add_slabLen_le first hij
      calc width * startOf first i + width * a + width
          = width * (startOf first i + (a + 1)) := by rw [Nat.mul_add, Nat.mul_succ]; omega
        _ ≤ width * startOf first j := Nat.mul_le_mul_left _ (by omega)
        _ ≤ width * startOf first j + width * b := Nat.le_add_right _ _
    intro i j hne x hx y hy
    rcases Nat.lt_or_gt_of_ne hne with h | h
    · exact Or.inl (key i j h x hx y hy)
    · exact Or.inr (key j i h y hy x hx)

end Slabs

/-! ## The pool -/

/-- A pool: the free stack with its top first, the number of objects the pool
has obtained, the number of slabs they came in, and how many pointers the
stack's array has room for. -/
structure Pool where
  ptr : List ℕ
  size : ℕ
  slabs : ℕ
  room : ℕ
  deriving Inhabited

namespace Pool

/-- The number of free objects, the stack pointer. -/
def idx (p : Pool) : ℕ := p.ptr.length

/-- Hand out the object on top, if there is one. -/
def pop (p : Pool) : Option (ℕ × Pool) :=
  match p.ptr with
  | [] => none
  | x :: xs => some (x, { p with ptr := xs })

/-- Take an object back, unless the pool is already full. -/
def push (x : ℕ) (p : Pool) : Option Pool :=
  if p.ptr.length < p.size then some { p with ptr := x :: p.ptr } else none

variable {width first : ℕ} (S : Slabs width first)

/-- A pool after its first slab. -/
def start : Pool := { ptr := S.cells 0, size := first, slabs := 1, room := first }

/-- Put a slab as large as the pool on the empty stack.  The stack pointer is a
signed 32-bit integer; past its range the step fails. -/
def grow (p : Pool) : Option Pool :=
  if p.size < 2 ^ 31 then
    some { ptr := S.cells p.slabs, size := p.size + p.size, slabs := p.slabs + 1,
           room := p.size * 2 }
  else none

/-- Hand out an object, adding a slab first when none is free. -/
def take (p : Pool) : Option (ℕ × Pool) :=
  if p.ptr = [] then (grow S p).bind pop else pop p

/-- The objects `used` are the ones handed out. -/
structure Owns (p : Pool) (used : List ℕ) : Prop where
  nodup : (used ++ p.ptr).Nodup
  card : used.length + p.ptr.length = p.size
  slab : ∀ x ∈ used ++ p.ptr, ∃ k < p.slabs, x ∈ S.cells k
  size : p.size = slabLen first p.slabs
  slabs_pos : 0 < p.slabs
  room : p.room = p.size

variable {S} {p p' : Pool} {used used' : List ℕ} {x y : ℕ}

theorem owns_start : Owns S (start S) [] where
  nodup := by simpa [start] using S.nodup_cells 0
  card := by simp [start, slabLen]
  slab x hx := ⟨0, by simp [start], by simpa [start] using hx⟩
  size := by simp [start, slabLen]
  slabs_pos := by simp [start]
  room := rfl

theorem Owns.perm (h : Owns S p used) (hp : used.Perm used') : Owns S p used' where
  nodup := (hp.append_right _).nodup_iff.1 h.nodup
  card := by rw [← hp.length_eq]; exact h.card
  slab x hx := h.slab x ((hp.append_right _).mem_iff.2 hx)
  size := h.size
  slabs_pos := h.slabs_pos
  room := h.room

theorem Owns.nodup_used (h : Owns S p used) : used.Nodup := (List.nodup_append.1 h.nodup).1

/-- Two objects of a pool do not overlap, in use or free. -/
theorem Owns.apart_all (h : Owns S p used) (hx : x ∈ used ++ p.ptr) (hy : y ∈ used ++ p.ptr)
    (hne : x ≠ y) : x + width ≤ y ∨ y + width ≤ x := by
  obtain ⟨i, -, hxi⟩ := h.slab x hx
  obtain ⟨j, -, hyj⟩ := h.slab y hy
  by_cases hij : i = j
  · subst hij
    exact S.cells_apart hxi hyj hne
  · exact S.apart i j hij x hxi y hyj

/-- Two objects in use do not overlap. -/
theorem Owns.apart (h : Owns S p used) (hx : x ∈ used) (hy : y ∈ used) (hne : x ≠ y) :
    x + width ≤ y ∨ y + width ≤ x :=
  h.apart_all (List.mem_append_left _ hx) (List.mem_append_left _ hy) hne

/-- The number of objects taken and not given back. -/
theorem Owns.taken (h : Owns S p used) : p.size - p.idx = used.length := by
  have := h.card
  simp only [idx]
  omega

theorem Owns.pop (h : Owns S p used) (hp : p.pop = some (x, p')) : Owns S p' (x :: used) := by
  obtain ⟨ptr, size, slabs, room⟩ := p
  cases ptr with
  | nil => simp [Pool.pop] at hp
  | cons a as =>
    simp only [Pool.pop, Option.some.injEq, Prod.mk.injEq] at hp
    obtain ⟨rfl, rfl⟩ := hp
    have hperm : (used ++ a :: as).Perm (a :: used ++ as) := List.perm_middle
    exact { nodup := hperm.nodup_iff.1 h.nodup
            card := by have := h.card; simp only [List.length_cons] at this ⊢; omega
            slab := fun y hy => h.slab y (hperm.mem_iff.2 hy)
            size := h.size
            slabs_pos := h.slabs_pos
            room := h.room }

/-- A slab goes on an empty stack, so it adds only objects that were not there. -/
theorem Owns.grow (h : Owns S p used) (he : p.ptr = []) (hg : p.grow S = some p') :
    Owns S p' used := by
  unfold Pool.grow at hg
  split at hg
  case isFalse => cases hg
  cases hg
  have hlen : slabLen first p.slabs = p.size := h.size.symm
  obtain ⟨m, hm⟩ : ∃ m, p.slabs = m + 1 := ⟨p.slabs - 1, by have := h.slabs_pos; omega⟩
  refine ⟨?_, ?_, ?_, ?_, Nat.succ_pos _, Nat.mul_two _⟩
  · refine List.nodup_append.2 ⟨h.nodup_used, S.nodup_cells _, ?_⟩
    rintro a ha b hb rfl
    obtain ⟨k, hk, hak⟩ := h.slab a (List.mem_append_left _ ha)
    have hw := S.width_pos
    have := S.apart k p.slabs (Nat.ne_of_lt hk) a hak a hb
    omega
  · have := h.card
    simp only [he, List.length_nil, Slabs.length_cells] at this ⊢
    omega
  · intro a ha
    rcases List.mem_append.1 ha with ha | ha
    · obtain ⟨k, hk, hak⟩ := h.slab a (List.mem_append_left _ ha)
      exact ⟨k, Nat.lt_succ_of_lt hk, hak⟩
    · exact ⟨p.slabs, Nat.lt_succ_self _, ha⟩
  · rw [h.size, hm]
    simp only [slabLen, Nat.pow_succ, Nat.mul_two, Nat.mul_add]

theorem Owns.take (h : Owns S p used) (ht : p.take S = some (x, p')) : Owns S p' (x :: used) := by
  unfold Pool.take at ht
  split at ht
  · rename_i he
    obtain ⟨q, hq, hpop⟩ := Option.bind_eq_some_iff.1 ht
    exact (h.grow he hq).pop hpop
  · exact h.pop ht

/-- A pool that may still grow always has an object to hand out. -/
theorem take_isSome (hs : p.ptr = [] → p.size < 2 ^ 31) : ∃ x p', p.take S = some (x, p') := by
  unfold Pool.take
  split
  · rename_i he
    have hlen : 0 < (S.cells p.slabs).length := by
      rw [S.length_cells]
      cases p.slabs with
      | zero => exact S.first_pos
      | succ k => exact Nat.mul_pos S.first_pos (Nat.two_pow_pos k)
    obtain ⟨a, as, hcells⟩ := List.exists_cons_of_length_pos hlen
    simp only [Pool.grow, hs he, if_true, Option.bind_some, Pool.pop, hcells]
    exact ⟨_, _, rfl⟩
  · rename_i hne
    obtain ⟨a, as, hptr⟩ := List.exists_cons_of_ne_nil hne
    simp only [Pool.pop, hptr]
    exact ⟨_, _, rfl⟩

/-- A pool with fewer objects in use than it has obtained has one to hand out. -/
theorem Owns.pop_isSome (h : Owns S p used) (hlen : used.length < p.size) :
    ∃ x p', p.pop = some (x, p') := by
  have hpos : 0 < p.ptr.length := by
    have := h.card
    omega
  obtain ⟨a, as, hptr⟩ := List.exists_cons_of_length_pos hpos
  simp only [Pool.pop, hptr]
  exact ⟨_, _, rfl⟩

theorem Owns.pop_eq_none (h : Owns S p used) (hlen : p.size ≤ used.length) : p.pop = none := by
  have hptr : p.ptr = [] := by
    have := h.card
    exact List.eq_nil_of_length_eq_zero (by omega)
  rw [Pool.pop, hptr]

/-- So has a pool that grows, with fewer objects in use than its stack pointer can count. -/
theorem Owns.take_isSome (h : Owns S p used) (hlen : used.length < 2 ^ 31) :
    ∃ x p', p.take S = some (x, p') := by
  refine Pool.take_isSome fun he => ?_
  have := h.card
  rw [he, List.length_nil] at this
  omega

theorem Owns.push (h : Owns S p (x :: used)) (hp : p.push x = some p') : Owns S p' used := by
  unfold Pool.push at hp
  split at hp
  case isFalse => cases hp
  cases hp
  have hperm : (x :: used ++ p.ptr).Perm (used ++ x :: p.ptr) := List.perm_middle.symm
  exact { nodup := hperm.nodup_iff.1 h.nodup
          card := by have := h.card; simp only [List.length_cons] at this ⊢; omega
          slab := fun y hy => h.slab y (hperm.mem_iff.2 hy)
          size := h.size
          slabs_pos := h.slabs_pos
          room := h.room }

/-- An object that is in use can always be given back. -/
theorem Owns.push_isSome (h : Owns S p (x :: used)) : (p.push x).isSome := by
  have := h.card
  simp only [List.length_cons] at this
  simp [Pool.push, show p.ptr.length < p.size by omega]

/-- As long as there is one slab, the objects in use are those of the slab that
are not free. -/
theorem Owns.mem_used_iff (h : Owns S p used) (hs : p.slabs = 1) :
    x ∈ used ↔ x ∈ S.cells 0 ∧ x ∉ p.ptr := by
  have hsub : ∀ y ∈ used ++ p.ptr, y ∈ S.cells 0 := by
    intro y hy
    obtain ⟨k, hk, hyk⟩ := h.slab y hy
    obtain rfl : k = 0 := by omega
    exact hyk
  have hlen : (S.cells 0).length ≤ (used ++ p.ptr).length := by
    rw [List.length_append, h.card, h.size, hs, Slabs.length_cells]
    simp [slabLen]
  have hperm := (List.subperm_of_subset h.nodup hsub).perm_of_length_le hlen
  rw [← hperm.mem_iff, List.mem_append]
  constructor
  · exact fun hx => ⟨Or.inl hx, fun hp => (List.nodup_append.1 h.nodup).2.2 x hx x hp rfl⟩
  · rintro ⟨hx, hp⟩
    exact hx.resolve_right hp

/-- What is handed out was not in use. -/
theorem Owns.fresh (h : Owns S p used) (ht : p.take S = some (x, p')) : x ∉ used := by
  have := (h.take ht).nodup_used
  exact (List.nodup_cons.1 this).1

/-! ## Sizes -/

theorem size_pop (h : p.pop = some (x, p')) : p'.size = p.size := by
  unfold pop at h
  split at h <;> cases h
  rfl

theorem size_push (h : p.push x = some p') : p'.size = p.size := by
  unfold push at h
  split at h <;> cases h
  rfl

/-- A pool that has outgrown `2 ^ 31` does not grow any more. -/
theorem size_take_le {B : ℕ} (hB : 2 ^ 32 ≤ B) (hp : p.size ≤ B)
    (h : p.take S = some (x, p')) : p'.size ≤ B := by
  unfold take at h
  split at h
  · obtain ⟨q, hq, hpop⟩ := Option.bind_eq_some_iff.1 h
    unfold Pool.grow at hq
    split at hq
    · cases hq
      rw [size_pop hpop]
      dsimp only
      omega
    · cases hq
  · rwa [size_pop h]

end Pool

end Cidl
