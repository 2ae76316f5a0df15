import Cidl.Base.Intervals

/-!
# What the baseline tree remembers of its history

`insertRec` of the baseline build takes out every record that the new one meets,
however little they have in common.  So after any calls of it the tree holds
the records of those calls that no later call has met, and no others
(`insertions_history`).  A search can then never mislead: whatever record covers
an address was stored by the last call that covered it.
-/

namespace Cidl.Base

open SearchTree

/-! ## Calls and the records they store -/

/-- The record that a call stores. -/
def InsertCall.stored (c : InsertCall) : MemRec :=
  ⟨c.fileOffset, c.fileName, c.dest, wadd c.dest c.length⟩

/-- The call has stored a record at the address. -/
def InsertCall.Covers (a : ℕ) (c : InsertCall) : Prop := c.dest ≤ a ∧ a < wadd c.dest c.length

instance (a : ℕ) : DecidablePred (InsertCall.Covers a) := fun _ =>
  inferInstanceAs (Decidable (_ ∧ _))

/-- A call of `cs` has stored `b`, and no later one has met it. -/
def StoredBy (cs : List InsertCall) (c : InsertCall) (b : TreeRec) : Prop :=
  b.toMemRec = c.stored ∧ ∃ pre post, cs = pre ++ c :: post ∧
    ∀ d ∈ post, ¬ Intersects d.dest (wadd d.dest d.length) b

theorem StoredBy.concat {cs : List InsertCall} {c : InsertCall} {b : TreeRec}
    (h : StoredBy cs c b) {d : InsertCall}
    (hd : ¬ Intersects d.dest (wadd d.dest d.length) b) : StoredBy (cs ++ [d]) c b := by
  obtain ⟨hrec, pre, post, rfl, hpost⟩ := h
  refine ⟨hrec, pre, post ++ [d], by simp, fun e he => ?_⟩
  rcases List.mem_append.1 he with he | he
  · exact hpost e he
  · rwa [List.mem_singleton.1 he]

/-- A record of the calls up to `d`: that of `d`, or an earlier one that `d` does not meet. -/
theorem storedBy_concat {cs : List InsertCall} {c d : InsertCall} {b : TreeRec}
    (h : StoredBy (cs ++ [d]) c b) : b.toMemRec = d.stored ∨
      StoredBy cs c b ∧ ¬ Intersects d.dest (wadd d.dest d.length) b := by
  obtain ⟨hrec, pre, post, heq, hpost⟩ := h
  rcases List.eq_nil_or_concat' post with rfl | ⟨post, e, rfl⟩
  · obtain ⟨-, hcd⟩ := List.append_inj' heq rfl
    left
    rw [hrec, ← (List.cons.inj hcd).1]
  · have heq : cs ++ [d] = (pre ++ c :: post) ++ [e] := by simpa using heq
    obtain ⟨rfl, hde⟩ := List.append_inj' heq rfl
    obtain rfl := (List.cons.inj hde).1
    exact Or.inr ⟨⟨hrec, pre, post, rfl, fun x hx => hpost x (List.mem_append_left _ hx)⟩,
      hpost d (List.mem_append_right _ (List.mem_cons_self ..))⟩

/-- A record that covers an address was stored by the last call that did. -/
theorem StoredBy.last_covers {cs : List InsertCall} {c : InsertCall} {b : TreeRec}
    (h : StoredBy cs c b) {a : ℕ} (hlo : b.startMemory ≤ a) (hhi : a < b.tailMemory) :
    (cs.filter fun d => d.Covers a).getLast? = some c := by
  obtain ⟨hrec, pre, post, rfl, hpost⟩ := h
  have hc : c.Covers a := by
    rw [hrec] at hlo hhi
    exact ⟨hlo, hhi⟩
  have hnone : post.filter (fun d => d.Covers a) = [] := by
    refine List.filter_eq_nil_iff.2 fun d hd hcovers => hpost d hd ?_
    obtain ⟨h₁, h₂⟩ := of_decide_eq_true hcovers
    exact ⟨a, hlo, hhi, h₁, h₂⟩
  have hkeep : (c :: post).filter (fun d => d.Covers a) = [c] := by
    rw [List.filter_cons, if_pos (decide_eq_true hc), hnone]
  rw [List.filter_append, hkeep, List.getLast?_concat]

/-! ## Runs -/

section

variable {L : TreeLib TreeRec} {fuel : ℕ} {cs : List InsertCall} {t : BinaryTree TreeRec}

/-- After any calls of `insertRec` the tree holds the records that no later call
has met.  What it says of an address is what the last call there has said. -/
theorem insertions_history (h : runAll (fun c => c.perform L fuel) cs .nil = some t) :
    (∀ b, b ∈ inorder t ↔ ∃ c, StoredBy cs c b) ∧
      ∀ b ∈ inorder t, ∀ a, b.startMemory ≤ a → a < b.tailMemory →
        ∃ c, (cs.filter fun d => d.Covers a).getLast? = some c ∧ b.toMemRec = c.stored := by
  have hmem : Apart startKey tailKey t ∧ ∀ b, b ∈ inorder t ↔ ∃ c, StoredBy cs c b := by
    refine runAll_history (P := fun cs t => Apart startKey tailKey t ∧
      ∀ b, b ∈ inorder t ↔ ∃ c, StoredBy cs c b) ⟨intervalSet_iff.1 IntervalSet.nil, fun b => ?_⟩
      (fun pre d t t' _ ht hd => ?_) h
    · refine iff_of_false List.not_mem_nil ?_
      rintro ⟨c, -, pre, post, hnil, -⟩
      simp at hnil
    · obtain ⟨rec, hrec, hapart, hin⟩ := insertRec_eq_some ht.1 hd
      refine ⟨hapart, fun b => ?_⟩
      rw [hin, ht.2]
      constructor
      · rintro (rfl | ⟨⟨c, hc⟩, hfree⟩)
        · exact ⟨d, hrec, pre, [], rfl, nofun⟩
        · exact ⟨c, hc.concat hfree⟩
      · rintro ⟨c, hc⟩
        rcases storedBy_concat hc with heq | ⟨hc, hfree⟩
        · left
          obtain ⟨b', hb, hb'⟩ := b
          obtain ⟨r', hr, hr'⟩ := rec
          have hsame : b' = r' := heq.trans hrec.symm
          subst hsame
          rfl
        · exact Or.inr ⟨⟨c, hc⟩, hfree⟩
  refine ⟨hmem.2, fun b hb a hlo hhi => ?_⟩
  obtain ⟨c, hc⟩ := (hmem.2 b).1 hb
  exact ⟨c, hc.last_covers hlo hhi, hc.1⟩

end

/-- Three calls, the last of which meets the first one. -/
def lastMeetsFirst : List InsertCall :=
  [⟨0, 0x6000000000, 100, 16⟩, ⟨0, 0x6000000100, 100, 16⟩, ⟨64, 0x6000000008, 100, 16⟩]

theorem insertions_history_lastMeetsFirst : ∃ t,
    runAll (fun c => c.perform unbalanced 4) lastMeetsFirst .nil = some t ∧
      (inorder t).length = 2 ∧ ∀ b, b ∈ inorder t ↔ ∃ c, StoredBy lastMeetsFirst c b := by
  have hrun : (runAll (fun c => c.perform unbalanced 4) lastMeetsFirst .nil).any fun t =>
      decide ((inorder t).length = 2) := by
    decide +kernel
  obtain ⟨t, ht, hlen⟩ := (Option.any_eq_true _ _).1 hrun
  exact ⟨t, ht, of_decide_eq_true hlen, (insertions_history ht).1⟩

end Cidl.Base
