import Cidl.Mappings.Identity

/-!
# Where the records come from

A record names a path, a position in the file and a descriptor.  Records are
written by copies out of mappings, copied by `ts_memcpy_traced` and `ts_realloc`,
moved about by the reclaimer and cut off; blocks go to their pool and come back
with what they held.  Through all of this the three stay together: what a slot
says of a file was computed, as a whole, by one earlier `ts_memcpy` or `ts_read`
for the mapping it copied from, or lay in the slots before the library began
(`reachable_provenance`).  No run excepted.
-/

namespace Cidl

open SearchTree

/-- What a record says but for its place on the page. -/
structure Source where
  fileOffset : ℕ
  fileName : ℕ
  fd : ℤ
  origin : Option FileId
  deriving DecidableEq

/-- The source of a record. -/
def MemRec.source (r : MemRec) : Source := ⟨r.fileOffset, r.fileName, r.fd, r.origin⟩

/-- The source that `insertRec` is given. -/
def InsertCall.source (c : InsertCall) : Source := ⟨c.fileOffset, c.fileName, c.fd, c.origin⟩

/-- A call that copies out of a mapping, and the source that it computes for the
record of the copy. -/
def Computes (c : Call) (s : State) (q : Source) : Prop :=
  match c with
  | .memcpy dest src n => ∃ x ∈ s.maps.findSource src n, q = (s.maps.recordCall x dest src).source
  | .read fd buf _ pos => ∃ r ∈ s.maps.findByFd fd,
      ∃ y ∈ r.2.openFileArray (fd.tmod maxFileNum),
        let node := r.2.fileMapTreeNodes r.1
        q = (r.2.recordCall y buf (wadd node.start (wsub pos node.offset))).source
  | _ => False

section

variable {E : Env} {s s' : State} {L : Libc} {T T' : RecTree} {ofa : ℤ → Option ℕ}

theorem source_recordOf (c : InsertCall) (page : ℕ) :
    (RecTree.recordOf c page).source = c.source := rfl

theorem source_of_copies {c : InsertCall} (hc : RecTree.Copies c T) :
    ∃ a, c.source = (T.recMem a).source := by
  obtain ⟨a, h₁, h₂, h₃, h₄⟩ := hc
  exact ⟨a, by rw [InsertCall.source, MemRec.source, h₁, h₂, h₃, h₄]⟩

/-- What a call does to the record tree: nothing, the one insertion of a copy out
of a mapping, or loops of insertions that take their records from slots. -/
theorem step_tree_computed {c : Call} (h : step E c s = some s') :
    s'.tree = s.tree ∨
    (∃ ofa call, Computes c s call.source ∧
      RecTree.insertRec E.libc ofa call s.tree = some s'.tree) ∨
    (∃ ofa dest src n,
      s.tree.tsMemcpyTraced E.libc (RecTree.insertRec E.libc ofa) E.fuel dest src n =
        some s'.tree) ∨
    (∃ ofa ret ptr tail,
      s.tree.tsRealloc E.libc (RecTree.insertRec E.libc ofa) E.fuel ret ptr tail =
        some s'.tree) := by
  have hcopy : ∀ {dest src n fmNode} {s : State},
      copyRecorded (RecTree.insertRec E.libc) dest src n fmNode s = some s' → s'.tree = s.tree ∨
        ∃ x ∈ fmNode, RecTree.insertRec E.libc s.maps.openFileArray
          (s.maps.recordCall x dest src) s.tree = some s'.tree := by
    intro dest src n fmNode s h
    cases fmNode with
    | none => cases h; exact Or.inl rfl
    | some x =>
      obtain ⟨T, hT, rfl⟩ := Option.map_eq_some_iff.1 h
      exact Or.inr ⟨x, rfl, hT⟩
  cases c with
  | «open» a => obtain ⟨M, -, rfl⟩ := Option.map_eq_some_iff.1 h; exact Or.inl rfl
  | close result fd => obtain ⟨M, -, rfl⟩ := Option.map_eq_some_iff.1 h; exact Or.inl rfl
  | mmap ret len prot file off =>
    obtain ⟨M, -, rfl⟩ := Option.map_eq_some_iff.1 h; exact Or.inl rfl
  | munmap addr => obtain ⟨M, -, rfl⟩ := Option.map_eq_some_iff.1 h; exact Or.inl rfl
  | memcpy dest src n =>
    rcases hcopy h with heq | ⟨x, hx, hT⟩
    · exact Or.inl heq
    · exact Or.inr (Or.inl ⟨_, _, ⟨x, hx, rfl⟩, hT⟩)
  | memcpyTraced dest src n =>
    obtain ⟨T, hT, rfl⟩ := Option.map_eq_some_iff.1 h
    exact Or.inr (Or.inr (Or.inl ⟨_, _, _, _, hT⟩))
  | realloc ret ptr tail =>
    obtain ⟨T, hT, rfl⟩ := Option.map_eq_some_iff.1 h
    exact Or.inr (Or.inr (Or.inr ⟨_, _, _, _, hT⟩))
  | read fd buf nbytes pos =>
    obtain ⟨⟨x, M⟩, hfind, h⟩ := Option.bind_eq_some_iff.1 h
    rcases hcopy h with heq | ⟨y, hy, hT⟩
    · exact Or.inl heq
    · exact Or.inr (Or.inl ⟨_, _, ⟨(x, M), hfind, y, hy, rfl⟩, hT⟩)
  | write buf length => cases h; exact Or.inl rfl
  | fwrite buf size n => cases h; exact Or.inl rfl
  | store addr b => cases h; exact Or.inl rfl

/-- A property of the sources of all slots that a call's own source has too. -/
theorem sources_step {Q : Source → Prop} {c : Call} (hslots : ∀ a, Q (s.tree.recMem a).source)
    (hc : ∀ q, Computes c s q → Q q) (h : step E c s = some s') (a : ℤ) :
    Q (s'.tree.recMem a).source := by
  have hins : ∀ ofa c T T', RecTree.Copies c T → (∀ a, Q (T.recMem a).source) →
      RecTree.insertRec E.libc ofa c T = some T' → ∀ a, Q (T'.recMem a).source := by
    intro ofa c T T' hcopies hT hT'
    obtain ⟨b, hb⟩ := source_of_copies hcopies
    refine slots_insertRec (Q := fun r => Q r.source) hT ?_ hT'
    rw [source_recordOf, hb]
    exact hT b
  rcases step_tree_computed h with heq | ⟨ofa, call, hcall, hT⟩ | ⟨ofa, dest, src, n, hT⟩ |
    ⟨ofa, ret, ptr, tail, hT⟩
  · rw [heq]
    exact hslots a
  · exact slots_insertRec (Q := fun r => Q r.source) hslots (hc _ hcall) hT a
  · exact RecTree.tsMemcpyTraced_invariant (P := fun T => ∀ a, Q (T.recMem a).source)
      (hins ofa) hslots (fun _ _ _ _ _ _ => hslots) hT a
  · exact RecTree.tsRealloc_invariant (P := fun T => ∀ a, Q (T.recMem a).source)
      (hins ofa) hslots hT a

end

/-- Some call of the run `cs` from `s₀` has computed the source. -/
def ComputedIn (E : Env) (s₀ : State) (cs : List Call) (q : Source) : Prop :=
  ∃ pre c post t, cs = pre ++ c :: post ∧ runAll (step E) pre s₀ = some t ∧ Computes c t q

theorem ComputedIn.append {E : Env} {s₀ : State} {cs : List Call} {q : Source}
    (h : ComputedIn E s₀ cs q) (ds : List Call) : ComputedIn E s₀ (cs ++ ds) q := by
  obtain ⟨pre, c, post, t, rfl, ht, hc⟩ := h
  exact ⟨pre, c, post ++ ds, t, by rw [List.append_assoc, List.cons_append], ht, hc⟩

/-- In every state of every run the source in a slot was computed by an earlier
copy out of a mapping, or lay in some slot at the beginning. -/
theorem reachable_provenance {E : Env} {s : State} {recMem : ℤ → MemRec}
    {recBlockEntries : ℕ → RecBlockEntry} {recTreeNodes : ℕ → RecTreeNode}
    {fileMapTreeNodes : ℕ → FileMapTreeNode} {mem : ℕ → UInt8} {cs : List Call}
    (h : runAll (step E) cs
      (initState E recMem recBlockEntries recTreeNodes fileMapTreeNodes mem) = some s) (a : ℤ) :
    (∃ b, (s.tree.recMem a).source = { (recMem b).source with origin := none }) ∨
    ComputedIn E (initState E recMem recBlockEntries recTreeNodes fileMapTreeNodes mem) cs
      (s.tree.recMem a).source := by
  set s₀ := initState E recMem recBlockEntries recTreeNodes fileMapTreeNodes mem with hs₀
  refine runAll_history (P := fun cs s => ∀ a,
    (∃ b, (s.tree.recMem a).source = { (recMem b).source with origin := none }) ∨
      ComputedIn E s₀ cs (s.tree.recMem a).source)
    (fun b => Or.inl ⟨b, rfl⟩) (fun pre c t t' ht hslots hc b => ?_) h a
  refine sources_step (Q := fun q => (∃ b, q = { (recMem b).source with origin := none }) ∨
    ComputedIn E s₀ (pre ++ [c]) q) (fun b => ?_) (fun q hq => ?_) hc b
  · exact (hslots b).imp_right fun hcomputed => hcomputed.append [c]
  · exact Or.inr ⟨pre, c, [], t, rfl, ht, hq⟩

/-- A copy of eight bytes from position 16 of a file, which is copied once more. -/
def copiedTwice : List Call := openAndMap 3 1 100 0x10000 0x1000 ++
  [.memcpy 0x500000 0x10010 8, .memcpyTraced 0x900000 0x500000 8]

theorem reachable_provenance_copiedTwice : ∃ s, plainRun copiedTwice = some s ∧
    ∃ p ∈ s.tree.findNode 0x900,
      (s.tree.recMem (s.tree.curArr p)).source = ⟨16, 100, 3, some 1⟩ ∧
      ComputedIn plainEnv plainInit copiedTwice (s.tree.recMem (s.tree.curArr p)).source := by
  have hrun : (plainRun copiedTwice).any fun s => decide (∃ p ∈ s.tree.findNode 0x900,
      (s.tree.recMem (s.tree.curArr p)).source = ⟨16, 100, 3, some 1⟩) := by
    decide +kernel
  obtain ⟨s, hs, hall⟩ := (Option.any_eq_true _ _).1 hrun
  obtain ⟨p, hp, hsource⟩ := of_decide_eq_true hall
  refine ⟨s, hs, p, hp, hsource, ?_⟩
  rcases reachable_provenance hs (s.tree.curArr p) with ⟨b, hb⟩ | hcomputed
  · rw [hsource] at hb
    exact absurd hb (by decide)
  · exact hcomputed

end Cidl
