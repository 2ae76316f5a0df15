import Mathlib.Data.Int.Basic
import Mathlib.Tactic

/-!
# Addresses, pages and machine words

The macros of `addr.h`, over 64-bit addresses kept as natural numbers, and the
few conversions of machine integers the library relies on.  `init` reads the
page size from `getpagesize`; the default build links AVX2 code and `do_ts_write`
writes the constant 4095 into its page test, so the page size is that of x86-64.
-/

namespace Cidl

/-! ## Machine words -/

/-- The number of values of an `unsigned long`. -/
abbrev wordSize : ℕ := 18446744073709551616

/-- Addition of `unsigned long`s. -/
def wadd (a b : ℕ) : ℕ := (a + b) % wordSize

/-- Subtraction of `unsigned long`s. -/
def wsub (a b : ℕ) : ℕ := (a + (wordSize - b % wordSize)) % wordSize

/-- Conversion to `short`. -/
def toShort (x : ℤ) : ℤ := x.bmod 65536

/-- Conversion to `int`. -/
def toInt (x : ℤ) : ℤ := x.bmod 4294967296

theorem wadd_of_lt {a b : ℕ} (h : a + b < wordSize) : wadd a b = a + b := Nat.mod_eq_of_lt h

theorem wsub_of_le {a b : ℕ} (h : b ≤ a) (ha : a < wordSize) : wsub a b = a - b := by
  simp only [wsub, wordSize] at *
  omega

theorem wadd_lt (a b : ℕ) : wadd a b < wordSize := Nat.mod_lt _ (by decide)

theorem toShort_of_range {x : ℤ} (h₀ : -32768 ≤ x) (h₁ : x < 32768) : toShort x = x := by
  simp only [toShort, Int.bmod]
  omega

theorem toInt_of_range {x : ℤ} (h₀ : -2147483648 ≤ x) (h₁ : x < 2147483648) : toInt x = x := by
  simp only [toInt, Int.bmod]
  omega

/-! ## Pages -/

/-- `PAGESIZE`, what `getpagesize` answers on x86-64. -/
abbrev pageSize : ℕ := 4096

/-- `addr2PageNum`: the address shifted right by `PAGENUMSHIFT`. -/
def addr2PageNum (addr : ℕ) : ℕ := addr / pageSize

/-- `addr2PageOffset`: the address masked with `PAGEOFFMASK`, as a `short`. -/
def addr2PageOffset (addr : ℕ) : ℤ := toShort ((addr % pageSize : ℕ) : ℤ)

/-- `getAddr`: the page number shifted left, plus a sign-extended offset. -/
def getAddr (pageNum : ℕ) (offset : ℤ) : ℕ :=
  ((((pageNum * pageSize : ℕ) : ℤ) + offset) % wordSize).toNat

theorem addr2PageOffset_eq (addr : ℕ) : addr2PageOffset addr = ((addr % pageSize : ℕ) : ℤ) := by
  have h : addr % pageSize < 4096 := Nat.mod_lt addr (by decide)
  exact toShort_of_range (by omega) (by omega)

theorem addr2PageOffset_nonneg (addr : ℕ) : 0 ≤ addr2PageOffset addr := by
  rw [addr2PageOffset_eq]
  exact Int.natCast_nonneg _

theorem addr2PageOffset_lt (addr : ℕ) : addr2PageOffset addr < pageSize := by
  rw [addr2PageOffset_eq]
  exact_mod_cast Nat.mod_lt addr (by decide)

/-- An offset inside its page is simply added. -/
theorem getAddr_eq {pageNum : ℕ} {offset : ℤ} (h₀ : 0 ≤ offset) (h₁ : offset < pageSize)
    (hp : (pageNum + 1) * pageSize ≤ wordSize) :
    getAddr pageNum offset = pageNum * pageSize + offset.toNat := by
  simp only [getAddr, pageSize, wordSize] at *
  omega

theorem getAddr_split {addr : ℕ} (h : addr < wordSize) :
    getAddr (addr2PageNum addr) (addr2PageOffset addr) = addr := by
  rw [addr2PageOffset_eq]
  simp only [getAddr, addr2PageNum, pageSize, wordSize] at *
  omega

/-- The pages from `start` to `last`, as the `for(; start<=end; start++)` loops visit them. -/
def pagesFrom (start last : ℕ) : List ℕ := List.range' start (last + 1 - start)

theorem mem_pagesFrom {start last p : ℕ} : p ∈ pagesFrom start last ↔ start ≤ p ∧ p ≤ last := by
  simp only [pagesFrom, List.mem_range'_1]
  omega

/-- The pages of a range that does not wrap around lie below the end of memory. -/
theorem page_fits {src n page : ℕ} (hw : src + n < wordSize)
    (hpage : page ∈ pagesFrom (addr2PageNum src) (addr2PageNum (src + n))) :
    (page + 1) * pageSize ≤ wordSize := by
  have := (mem_pagesFrom.1 hpage).2
  simp only [addr2PageNum, pageSize, wordSize] at *
  omega

end Cidl
