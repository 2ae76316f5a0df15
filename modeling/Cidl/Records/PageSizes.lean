import Cidl.Model.Paging

/-!
# Page sizes that a `short` can hold

A record keeps its address as a page number and a signed 16-bit offset.
`addresses_survive_iff` says for which addresses the two together give the
address back and the test of `insertRec` compares addresses: those less than
32768 bytes into their page.  Pages of up to 32768 bytes have no others;
`largePage_wraps` is an address on a page of 65536 bytes.
-/

namespace Cidl

namespace Paging

/-- The record stored for `dest` is rebuilt to the same address. -/
def RoundTrip (P : Paging) (dest : ℕ) : Prop :=
  P.getAddr (P.addr2PageNum dest) (P.storedOffset dest) = dest

/-- The test of the `DELETE_TREENODE` part of `insertRec`, for a record at `a`
and the destination `b`, compares the addresses. -/
def OrderKept (P : Paging) (a b : ℕ) : Prop :=
  P.addr2PageOffset b ≤ P.storedOffset a ↔ b ≤ a

instance (P : Paging) (dest : ℕ) : Decidable (P.RoundTrip dest) :=
  inferInstanceAs (Decidable (_ = _))

variable {k a b : ℕ}

theorem roundTrip_iff (hk : k ≤ 30) (ha : a < wordSize) :
    (init (2 ^ k)).RoundTrip a ↔ a % 2 ^ k < 32768 := by
  have hpow : 2 ^ k ≤ 2 ^ 30 := Nat.pow_le_pow_right (by decide) hk
  have hoff : a % 2 ^ k < 2 ^ k := Nat.mod_lt _ (Nat.two_pow_pos k)
  have hle : a % 2 ^ k ≤ a := Nat.mod_le _ _
  rw [RoundTrip, getAddr, pageBegin_addr2PageNum ha, storedOffset_init ha]
  generalize a % 2 ^ k = offset at *
  generalize 2 ^ k = page at *
  constructor
  · -- an offset behind 32767 comes back smaller by a multiple of 65536
    intro heq
    by_contra hlarge
    simp only [toShort, Int.bmod, wordSize] at *
    omega
  · intro hsmall
    rw [toShort_of_range (by omega) (by omega)]
    simp only [wordSize] at *
    omega

theorem orderKept_of_lt (ha : a < wordSize)
    (hpage : (init (2 ^ k)).addr2PageNum a = (init (2 ^ k)).addr2PageNum b)
    (hoffa : a % 2 ^ k < 32768) (hoffb : b % 2 ^ k < 32768) : (init (2 ^ k)).OrderKept a b := by
  rw [addr2PageNum_init, addr2PageNum_init] at hpage
  rw [OrderKept, addr2PageOffset_init, storedOffset_init ha,
    toShort_of_range (by omega) (by omega), toShort_of_range (by omega) (by omega)]
  have hsplita := Nat.div_add_mod a (2 ^ k)
  have hsplitb := Nat.div_add_mod b (2 ^ k)
  rw [hpage] at hsplita
  omega

/-- On pages of `2 ^ k` bytes: two addresses of one page are rebuilt and compared
as they are exactly when both offsets are below 32768, and all addresses are
exactly when pages have at most 32768 bytes. -/
theorem addresses_survive_iff (k : ℕ) (hk : k ≤ 30) :
    (∀ a < wordSize, ∀ b < wordSize,
      (init (2 ^ k)).addr2PageNum a = (init (2 ^ k)).addr2PageNum b →
      ((init (2 ^ k)).RoundTrip a ∧ (init (2 ^ k)).RoundTrip b ∧ (init (2 ^ k)).OrderKept a b ↔
        a % 2 ^ k < 32768 ∧ b % 2 ^ k < 32768)) ∧
    ((∀ a < wordSize, (init (2 ^ k)).RoundTrip a ∧ ∀ b < wordSize,
      (init (2 ^ k)).addr2PageNum a = (init (2 ^ k)).addr2PageNum b →
      (init (2 ^ k)).OrderKept a b) ↔ 2 ^ k ≤ 32768) := by
  constructor
  · intro a ha b hb hpage
    rw [roundTrip_iff hk ha, roundTrip_iff hk hb]
    exact ⟨fun h => ⟨h.1, h.2.1⟩, fun h => ⟨h.1, h.2, orderKept_of_lt ha hpage h.1 h.2⟩⟩
  constructor
  · -- on a larger page 32768 is an offset
    intro h
    by_contra hlarge
    have hmod := (roundTrip_iff hk (by decide)).1 (h 32768 (by decide)).1
    rw [Nat.mod_eq_of_lt (by omega)] at hmod
    omega
  · intro hsmall a ha
    have hoff : ∀ x, x % 2 ^ k < 32768 := fun x =>
      Nat.lt_of_lt_of_le (Nat.mod_lt x (Nat.two_pow_pos k)) hsmall
    refine ⟨(roundTrip_iff hk ha).2 (hoff a), fun b _ hpage => ?_⟩
    exact orderKept_of_lt ha hpage (hoff a) (hoff b)

theorem addresses_survive_iff_x86 :
    (12 ≤ 30) ∧ ((∀ a < wordSize, ∀ b < wordSize,
      (init (2 ^ 12)).addr2PageNum a = (init (2 ^ 12)).addr2PageNum b →
      ((init (2 ^ 12)).RoundTrip a ∧ (init (2 ^ 12)).RoundTrip b ∧ (init (2 ^ 12)).OrderKept a b ↔
        a % 2 ^ 12 < 32768 ∧ b % 2 ^ 12 < 32768)) ∧
    ((∀ a < wordSize, (init (2 ^ 12)).RoundTrip a ∧ ∀ b < wordSize,
      (init (2 ^ 12)).addr2PageNum a = (init (2 ^ 12)).addr2PageNum b →
      (init (2 ^ 12)).OrderKept a b) ↔ 2 ^ 12 ≤ 32768)) :=
  ⟨by decide, addresses_survive_iff 12 (by decide)⟩

/-- With pages of 65536 bytes the record of `0x18000` is rebuilt as `0x8000`, and
the test takes `0x10000` to lie behind it. -/
theorem largePage_wraps :
    (init 65536).getAddr ((init 65536).addr2PageNum 0x18000) ((init 65536).storedOffset 0x18000) =
      0x8000 ∧
    ¬ (init 65536).RoundTrip 0x18000 ∧ ¬ (init 65536).OrderKept 0x18000 0x10000 := by
  have hinit : init 65536 = { pageNumShift := 16, pageOffMask := 65535 } := init_two_pow 16
  rw [hinit]
  refine ⟨by decide +kernel, by decide +kernel, ?_⟩
  intro h
  exact absurd (h.2 (by decide)) (by decide +kernel)

end Paging

end Cidl
