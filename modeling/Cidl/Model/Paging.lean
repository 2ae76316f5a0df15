import Cidl.Model.Insert

/-!
# Pages of any size

`init` asks `getpagesize` for the page size and computes from it the shift and
the mask that the macros of `addr.h` use.  Here they are computed as it does,
for any answer, and the macros take them as parameters; for the 4096 bytes of
x86-64 they are the functions that the other modules use.
-/

namespace Cidl

/-- The variables that `init` derives from the page size. -/
structure Paging where
  pageNumShift : ℕ
  pageOffMask : ℕ

namespace Paging

/-- The loop of `init`: one more for every bit of `tmp`. -/
def shiftLoop (tmp pageNumShift : ℕ) : ℕ :=
  if tmp = 0 then pageNumShift else shiftLoop (tmp / 2) (pageNumShift + 1)
termination_by tmp
decreasing_by omega

/-- The part of `init` that computes `PAGENUMSHIFT` and `PAGEOFFMASK`. -/
def init (pageSize : ℕ) : Paging :=
  let pageNumShift := shiftLoop (pageSize - 1) 0
  { pageNumShift := pageNumShift, pageOffMask := 2 ^ pageNumShift - 1 }

variable (P : Paging)

/-- `addr2PageNum`. -/
def addr2PageNum (addr : ℕ) : ℕ := addr >>> P.pageNumShift

/-- `addr2PageOffset`. -/
def addr2PageOffset (addr : ℕ) : ℤ := toShort ((addr &&& P.pageOffMask : ℕ) : ℤ)

/-- `pageNum << PAGENUMSHIFT`, in 64 bits. -/
def pageBegin (pageNum : ℕ) : ℕ := (pageNum <<< P.pageNumShift) % wordSize

/-- `getAddr`. -/
def getAddr (pageNum : ℕ) (offset : ℤ) : ℕ :=
  (((P.pageBegin pageNum : ℕ) + offset) % wordSize).toNat

/-- The `pageOffset` that `writeRec` stores for `dest` on its page. -/
def storedOffset (dest : ℕ) : ℤ := toShort (wsub dest (P.pageBegin (P.addr2PageNum dest)))

/-! ## What the loop computes -/

/-- The loop counts the `k` bits of `2 ^ k - 1`. -/
theorem shiftLoop_two_pow (k shift : ℕ) : shiftLoop (2 ^ k - 1) shift = shift + k := by
  induction k generalizing shift with
  | zero => simp [shiftLoop]
  | succ k ih =>
    have hpos : 0 < 2 ^ k := Nat.two_pow_pos k
    have hhalf : (2 ^ (k + 1) - 1) / 2 = 2 ^ k - 1 := by
      rw [Nat.pow_succ]
      omega
    rw [shiftLoop, if_neg (by rw [Nat.pow_succ]; omega), hhalf, ih]
    omega

/-- For a page of `2 ^ k` bytes the shift is `k` and the mask has `k` bits. -/
theorem init_two_pow (k : ℕ) : init (2 ^ k) = { pageNumShift := k, pageOffMask := 2 ^ k - 1 } := by
  simp [init, shiftLoop_two_pow]

section

variable {k : ℕ}

@[simp] theorem addr2PageNum_init (addr : ℕ) : (init (2 ^ k)).addr2PageNum addr = addr / 2 ^ k := by
  rw [init_two_pow, addr2PageNum, Nat.shiftRight_eq_div_pow]

@[simp] theorem addr2PageOffset_init (addr : ℕ) :
    (init (2 ^ k)).addr2PageOffset addr = toShort ((addr % 2 ^ k : ℕ) : ℤ) := by
  rw [init_two_pow, addr2PageOffset, Nat.and_two_pow_sub_one_eq_mod]

theorem pageBegin_init (pageNum : ℕ) :
    (init (2 ^ k)).pageBegin pageNum = pageNum * 2 ^ k % wordSize := by
  rw [init_two_pow, pageBegin, Nat.shiftLeft_eq]

/-- The page of an address begins where its offset is subtracted. -/
theorem pageBegin_addr2PageNum {addr : ℕ} (ha : addr < wordSize) :
    (init (2 ^ k)).pageBegin ((init (2 ^ k)).addr2PageNum addr) = addr - addr % 2 ^ k := by
  have hdiv : addr / 2 ^ k * 2 ^ k = addr - addr % 2 ^ k := by
    have := Nat.div_add_mod' addr (2 ^ k)
    omega
  rw [addr2PageNum_init, pageBegin_init, hdiv]
  exact Nat.mod_eq_of_lt (by omega)

/-- The difference that `writeRec` stores is the masked offset. -/
theorem storedOffset_init {addr : ℕ} (ha : addr < wordSize) :
    (init (2 ^ k)).storedOffset addr = toShort ((addr % 2 ^ k : ℕ) : ℤ) := by
  have hle : addr % 2 ^ k ≤ addr := Nat.mod_le _ _
  rw [storedOffset, pageBegin_addr2PageNum ha, wsub_of_le (by omega) ha]
  congr 2
  omega

end

/-! ## The page size of x86-64 -/

theorem addr2PageNum_4096 (addr : ℕ) : (init 4096).addr2PageNum addr = Cidl.addr2PageNum addr :=
  addr2PageNum_init (k := 12) addr

theorem addr2PageOffset_4096 (addr : ℕ) :
    (init 4096).addr2PageOffset addr = Cidl.addr2PageOffset addr :=
  addr2PageOffset_init (k := 12) addr

theorem getAddr_4096 (pageNum : ℕ) (offset : ℤ) :
    (init 4096).getAddr pageNum offset = Cidl.getAddr pageNum offset := by
  rw [getAddr, show init 4096 = init (2 ^ 12) from rfl, pageBegin_init, Cidl.getAddr]
  simp only [wordSize, pageSize]
  omega

theorem storedOffset_4096 {c : InsertCall} (hdest : c.dest < wordSize) :
    (RecTree.recordOf c (Cidl.addr2PageNum c.dest)).pageOffset =
      (init 4096).storedOffset c.dest := by
  have hle : c.dest / pageSize * pageSize ≤ c.dest := Nat.div_mul_le_self _ _
  have hbegin : (init 4096).pageBegin ((init 4096).addr2PageNum c.dest) =
      c.dest / pageSize * pageSize := by
    rw [show init 4096 = init (2 ^ 12) from rfl, addr2PageNum_init, pageBegin_init]
    exact Nat.mod_eq_of_lt (Nat.lt_of_le_of_lt hle hdest)
  simp only [storedOffset, hbegin, RecTree.recordOf, Cidl.addr2PageNum]

end Paging

end Cidl
