import Cidl.Lib.Mask
import Cidl.Model.Addr

/-!
# The AVX2 comparison

`memcmp_avx2_asm` of `memcmp-avx2-addr.S`, one definition for each label.  A
label is a function of the registers it reads: `rdi` and `rsi`, the two arrays,
`rdx`, the length, and `eax`, the result.  `rcx` holds the fourth argument
throughout; a store through it is the last thing a path does.

A label computes its result with a note of every load, its address and the
number of bytes it takes (`Traced`); `memcmpAvx2Asm` is the result alone.

Registers are natural numbers below their width, memory gives a byte for every
address, and a vector register is read as its bytes from the lowest one on.
`vzeroupper` has no effect on what is modelled.
-/

namespace Cidl

/-! ## Instructions -/

/-- A vector register, by bytes. -/
abbrev Vec := ℕ → UInt8

/-- `VEC_SIZE`. -/
abbrev vecSize : ℕ := 32

/-- `sub` on operands of `w` bits. -/
def subBits (w a b : ℕ) : ℕ := (a % 2 ^ w + (2 ^ w - b % 2 ^ w)) % 2 ^ w

/-- Write the lowest `w` bits of a register and keep the others. -/
def setLow (w x v : ℕ) : ℕ := x / 2 ^ w * 2 ^ w + v % 2 ^ w

/-- `vpcmpeqb`. -/
def vpcmpeqb (x y : Vec) : Vec := fun i => if x i = y i then 0xff else 0

/-- `vpand`. -/
def vpand (x y : Vec) : Vec := fun i => x i &&& y i

/-- `vpmovmskb` from a register of `w` bytes: the highest bit of each. -/
def vpmovmskb (w : ℕ) (x : Vec) : ℕ := maskOf w fun i => decide (128 ≤ x i)

/-- The carry flag after `vptest x, y`: no bit of `x` is missing in `y`. -/
def vptest (x y : Vec) : Bool := (List.range vecSize).all fun i => x i &&& ~~~ y i == 0

/-- What is left of the mask of `w` bytes when the mask of all ones is subtracted. -/
def maskDiff (w : ℕ) (x : Vec) : ℕ := subBits 32 (vpmovmskb w x) (2 ^ w - 1)

section

variable (mem : ℕ → UInt8)

/-- A byte of memory. -/
def load8 (addr : ℕ) : ℕ := (mem addr).toNat

/-- Two bytes, the lower one first. -/
def load16 (addr : ℕ) : ℕ := load8 mem addr + load8 mem (wadd addr 1) * 2 ^ 8

/-- Four bytes, the highest one first. -/
def movbe (addr : ℕ) : ℕ :=
  load8 mem addr * 2 ^ 24 + load8 mem (wadd addr 1) * 2 ^ 16 + load8 mem (wadd addr 2) * 2 ^ 8 +
    load8 mem (wadd addr 3)

/-- The bytes from an address on. -/
def vmovdqu (addr : ℕ) : Vec := fun i => mem (wadd addr i)

/-- Eight bytes, and zeros above them. -/
def vmovq (addr : ℕ) : Vec := fun i => if i < 8 then mem (wadd addr i) else 0

end

/-! ## Results without a load -/

/-- What the routine leaves: the result in `eax`, and what it has stored through
the fourth argument. -/
structure Ret where
  eax : ℕ
  diffPos : Option ℕ
  deriving DecidableEq

/-- `zero`. -/
def zero : Ret := ⟨0, none⟩

/-- `firstDiff2_3`. -/
def firstDiff23 (rdi r9d : ℕ) : Ret := ⟨r9d, some rdi⟩

/-- `sameLess2`. -/
def sameLess2 (rdi eax r8d r9d : ℕ) : Ret :=
  if subBits 8 eax r8d ≠ 0 then firstDiff23 rdi r9d else ⟨r9d, some (wadd rdi 1)⟩

/-- `later6diff4_7`. -/
def later6diff47 (rdi r10 : ℕ) : Ret := ⟨r10 % 2 ^ 32, some (wadd rdi 6)⟩

/-- `ymm0` after it has been compared with itself. -/
def ymm0 : Vec := vpcmpeqb (fun _ => 0) (fun _ => 0)

/-- The way the results of four comparisons are joined in most rounds. -/
def vpandChain (ymm1 ymm2 ymm3 ymm4 : Vec) : Vec := vpand (vpand (vpand ymm1 ymm2) ymm3) ymm4

/-- The way they are joined in the first round of up to 256 bytes. -/
def vpandPairs (ymm1 ymm2 ymm3 ymm4 : Vec) : Vec := vpand (vpand ymm1 ymm2) (vpand ymm3 ymm4)

/-! ## Notes of loads -/

/-- A load of `len` bytes. -/
structure Load where
  addr : ℕ
  len : ℕ
  deriving DecidableEq

/-- A result and the loads made for it. -/
def Traced (α : Type) := α × List Load

namespace Traced

variable {α β : Type}

/-- What is computed. -/
def result (x : Traced α) : α := x.1

/-- The loads, in order. -/
def loads (x : Traced α) : List Load := x.2

/-- Go on without a load. -/
protected def pure (x : α) : Traced α := (x, [])

/-- One thing after the other. -/
protected def bind (x : Traced α) (f : α → Traced β) : Traced β :=
  ((f x.result).result, x.loads ++ (f x.result).loads)

instance : Monad Traced where
  pure := Traced.pure
  bind := Traced.bind

@[simp] theorem result_pure (x : α) : (pure x : Traced α).result = x := rfl

@[simp] theorem loads_pure (x : α) : (pure x : Traced α).loads = [] := rfl

-- not by `rfl` alone: as a definitional step it would make Lean evaluate the tests in `f`
@[simp] theorem result_bind (x : Traced α) (f : α → Traced β) :
    (x >>= f).result = (f x.result).result := by
  cases x
  rfl

@[simp] theorem loads_bind (x : Traced α) (f : α → Traced β) :
    (x >>= f).loads = x.loads ++ (f x.result).loads := by
  cases x
  rfl

@[simp] theorem result_ite {c : Prop} [Decidable c] (x y : Traced α) :
    (if c then x else y).result = if c then x.result else y.result := apply_ite _ _ _ _

section

variable (mem : ℕ → UInt8)

/-! ## Loads -/

/-- `movzbl`, and `movb` into a cleared register. -/
def load8 (addr : ℕ) : Traced ℕ := (Cidl.load8 mem addr, [⟨addr, 1⟩])

/-- `movzwl`, and `movw` into a cleared register. -/
def load16 (addr : ℕ) : Traced ℕ := (Cidl.load16 mem addr, [⟨addr, 2⟩])

/-- `movbe` of four bytes. -/
def movbe (addr : ℕ) : Traced ℕ := (Cidl.movbe mem addr, [⟨addr, 4⟩])

/-- `vmovdqu` into a register of `w` bytes, and the memory operand of `vpcmpeqb`. -/
def vmovdqu (w addr : ℕ) : Traced Vec := (Cidl.vmovdqu mem addr, [⟨addr, w⟩])

/-- `vmovq`. -/
def vmovq (addr : ℕ) : Traced Vec := (Cidl.vmovq mem addr, [⟨addr, 8⟩])

-- not by `rfl` either: `simp` has to rewrite the instances of the tests as well
@[simp] theorem load8_result (addr : ℕ) : (load8 mem addr).result = Cidl.load8 mem addr := by
  simp only [load8, result]

@[simp] theorem load16_result (addr : ℕ) : (load16 mem addr).result = Cidl.load16 mem addr := by
  simp only [load16, result]

@[simp] theorem movbe_result (addr : ℕ) : (movbe mem addr).result = Cidl.movbe mem addr := by
  simp only [movbe, result]

@[simp] theorem vmovdqu_result (w addr : ℕ) :
    (vmovdqu mem w addr).result = Cidl.vmovdqu mem addr := by
  simp only [vmovdqu, result]

@[simp] theorem vmovq_result (addr : ℕ) : (vmovq mem addr).result = Cidl.vmovq mem addr := by
  simp only [vmovq, result]

/-! ## The exits -/

/-- The code at the labels `first_vec`: the bytes at the first zero of the
comparison are subtracted, and the address of the first of them is stored. -/
def reportAt (disp rdi rsi eax : ℕ) : Traced Ret := do
  let r8 := trailingZeros 32 eax
  let eax ← load8 mem (wadd (wadd rdi r8) disp)
  let edx ← load8 mem (wadd (wadd rsi r8) disp)
  return ⟨subBits 32 eax edx, some (wadd (wadd rdi r8) disp)⟩

/-- `first_vec`. -/
def firstVec (rdi rsi eax : ℕ) : Traced Ret := reportAt mem 0 rdi rsi eax

/-- `first_vec_x1`. -/
def firstVecX1 (rdi rsi eax : ℕ) : Traced Ret := reportAt mem vecSize rdi rsi eax

/-- `first_vec_x2`. -/
def firstVecX2 (rdi rsi eax : ℕ) : Traced Ret := reportAt mem (vecSize * 2) rdi rsi eax

/-- `l4x_vec_end`. -/
def l4xVecEnd (rdi rsi : ℕ) (ymm1 ymm2 ymm3 ymm4 : Vec) : Traced Ret :=
  if maskDiff 32 ymm1 ≠ 0 then firstVec mem rdi rsi (maskDiff 32 ymm1)
  else if maskDiff 32 ymm2 ≠ 0 then firstVecX1 mem rdi rsi (maskDiff 32 ymm2)
  else if maskDiff 32 ymm3 ≠ 0 then firstVecX2 mem rdi rsi (maskDiff 32 ymm3)
  else reportAt mem (vecSize * 3) rdi rsi (maskDiff 32 ymm4)

/-! ## Lengths below 32 -/

/-- `le1`, for one byte. -/
def le1 (rdi rsi : ℕ) : Traced Ret := do
  let eax ← load8 mem rdi
  let r8d ← load8 mem rsi
  return ⟨subBits 32 eax r8d, some rdi⟩

/-- `between_2_3`.  Only `al` is written after the first two bytes are found equal. -/
def between23 (rdi rsi rdx : ℕ) : Traced Ret := do
  let eax ← load16 mem rdi
  let r8d ← load16 mem rsi
  let r9d := subBits 32 eax r8d
  if r9d ≠ 0 then return sameLess2 rdi eax r8d r9d
  else
    let al ← load8 mem (wsub (wadd rdi rdx) 1)
    let eax := setLow 8 eax al
    let r8b ← load8 mem (wsub (wadd rsi rdx) 1)
    let r8d := setLow 8 r8d r8b
    let eax := setLow 8 eax (subBits 8 eax r8d)
    return ⟨eax, some (wsub (wadd rdx rdi) 1)⟩

/-- The code at `later3diff4_7` and its like: two bytes of each array are
compared, and where they differ one of their addresses is stored.  `eax` keeps
what the earlier subtraction left in its upper half. -/
def wordStep (disp rdi rsi rax : ℕ) (next : Traced Ret) : Traced Ret := do
  let ax ← load16 mem (wadd rdi disp)
  let r8w ← load16 mem (wadd rsi disp)
  let diff := subBits 16 ax r8w
  if diff = 0 then next
  else if subBits 8 ax r8w ≠ 0 then return ⟨setLow 16 rax diff % 2 ^ 32, some (wadd rdi disp)⟩
  else return ⟨setLow 16 rax diff % 2 ^ 32, some (wadd rdi (disp + 1))⟩

/-- `later5diff4_7`. -/
def later5diff47 (rdi rsi rax r10 : ℕ) : Traced Ret :=
  wordStep mem 4 rdi rsi rax (pure (later6diff47 rdi r10))

/-- `later3diff4_7`. -/
def later3diff47 (rdi rsi rax r10 : ℕ) : Traced Ret :=
  wordStep mem 2 rdi rsi rax (later5diff47 mem rdi rsi rax r10)

/-- `between_4_7`. -/
def between47 (rdi rsi rdx : ℕ) : Traced Ret := do
  let eax ← movbe mem rdi
  let r8d ← movbe mem rsi
  let rax := eax * 2 ^ 32 % 2 ^ 64
  let r8 := r8d * 2 ^ 32 % 2 ^ 64
  let r10d ← movbe mem (wsub (wadd rdi rdx) 4)
  let rax := rax ||| r10d
  let r10d ← movbe mem (wsub (wadd rsi rdx) 4)
  let r8 := r8 ||| r10d
  let rax := subBits 64 rax r8
  if rax = 0 then return ⟨rax % 2 ^ 32, none⟩
  else wordStep mem 0 rdi rsi rax (later3diff47 mem rdi rsi rax rax)

/-- `between_16_31`. -/
def between1631 (rdi rsi rdx : ℕ) : Traced Ret := do
  let xmm2 ← vmovdqu mem 16 rsi
  let xmm1 ← vmovdqu mem 16 rdi
  let eax := maskDiff 16 (vpcmpeqb xmm2 xmm1)
  if eax ≠ 0 then firstVec mem rdi rsi eax
  else
    let rdi := wsub (wadd rdi rdx) 16
    let rsi := wsub (wadd rsi rdx) 16
    let xmm2 ← vmovdqu mem 16 rsi
    let xmm1 ← vmovdqu mem 16 rdi
    let eax := maskDiff 16 (vpcmpeqb xmm2 xmm1)
    if eax ≠ 0 then firstVec mem rdi rsi eax else return ⟨eax, none⟩

/-- `less_vec`, which looks at the lowest byte of the length. -/
def lessVec (rdi rsi rdx : ℕ) : Traced Ret :=
  let dl := rdx % 2 ^ 8
  if dl = 1 then le1 mem rdi rsi
  else if dl < 1 then pure zero
  else if dl < 4 then between23 mem rdi rsi rdx
  else if dl < 8 then between47 mem rdi rsi rdx
  else if 16 ≤ dl then between1631 mem rdi rsi rdx
  else do
    let xmm1 ← vmovq mem rdi
    let xmm2 ← vmovq mem rsi
    let eax := maskDiff 16 (vpcmpeqb xmm2 xmm1)
    if eax ≠ 0 then firstVec mem rdi rsi eax
    else
      let rdi := wsub (wadd rdi rdx) 8
      let rsi := wsub (wadd rsi rdx) 8
      let xmm1 ← vmovq mem rdi
      let xmm2 ← vmovq mem rsi
      let eax := maskDiff 16 (vpcmpeqb xmm2 xmm1)
      if eax ≠ 0 then firstVec mem rdi rsi eax else return ⟨eax, none⟩

/-! ## Lengths from 32 on -/

/-- The comparison of 32 bytes at `disp`. -/
def cmpVec (disp rdi rsi : ℕ) : Traced Vec := do
  let ymm2 ← vmovdqu mem vecSize (wadd rsi disp)
  let ymm1 ← vmovdqu mem vecSize (wadd rdi disp)
  return vpcmpeqb ymm2 ymm1

/-- `last_vec`. -/
def lastVec (rdi rsi rdx : ℕ) : Traced Ret := do
  let rdi := wsub (wadd rdi rdx) vecSize
  let rsi := wsub (wadd rsi rdx) vecSize
  let ymm2 ← cmpVec mem 0 rdi rsi
  let eax := maskDiff 32 ymm2
  if eax ≠ 0 then firstVec mem rdi rsi eax else return ⟨eax, none⟩

/-- `last_2x_vec`. -/
def last2xVec (rdi rsi rdx : ℕ) : Traced Ret := do
  let ymm2 ← cmpVec mem 0 rdi rsi
  let eax := maskDiff 32 ymm2
  if eax ≠ 0 then firstVec mem rdi rsi eax else lastVec mem rdi rsi rdx

/-- `last_4x_vec`. -/
def last4xVec (rdi rsi rdx : ℕ) : Traced Ret := do
  let ymm2 ← cmpVec mem 0 rdi rsi
  let eax := maskDiff 32 ymm2
  if eax ≠ 0 then firstVec mem rdi rsi eax
  else
    let rdi := wadd rdi vecSize
    let rsi := wadd rsi vecSize
    let ymm2 ← cmpVec mem 0 rdi rsi
    let eax := maskDiff 32 ymm2
    if eax ≠ 0 then firstVec mem rdi rsi eax
    else
      let rdi := wsub (wadd rdi rdx) (vecSize * 3)
      let rsi := wsub (wadd rsi rdx) (vecSize * 3)
      let ymm2 ← cmpVec mem 0 rdi rsi
      let eax := maskDiff 32 ymm2
      if eax ≠ 0 then firstVec mem rdi rsi eax
      else
        let rdi := wadd rdi vecSize
        let rsi := wadd rsi vecSize
        let ymm2 ← cmpVec mem 0 rdi rsi
        let eax := maskDiff 32 ymm2
        if eax ≠ 0 then firstVec mem rdi rsi eax else return ⟨eax, none⟩

/-- Four vectors of each array: `none` if all are equal, else what `l4x_vec_end` leaves. -/
def fourVecs (join : Vec → Vec → Vec → Vec → Vec) (rdi rsi : ℕ) : Traced (Option Ret) := do
  let ymm1 ← cmpVec mem 0 rdi rsi
  let ymm2 ← cmpVec mem vecSize rdi rsi
  let ymm3 ← cmpVec mem (vecSize * 2) rdi rsi
  let ymm4 ← cmpVec mem (vecSize * 3) rdi rsi
  let ymm5 := join ymm1 ymm2 ymm3 ymm4
  if vptest ymm0 ymm5 then return none
  else
    let r ← l4xVecEnd mem rdi rsi ymm1 ymm2 ymm3 ymm4
    return some r

/-- Make the result of a label that always returns one of a label that may not. -/
def returns (x : Traced Ret) : Traced (Option Ret) := do
  let r ← x
  return some r

@[simp] theorem returns_result (x : Traced Ret) : (returns x).result = some x.result := rfl

@[simp] theorem returns_loads (x : Traced Ret) : (returns x).loads = x.loads :=
  List.append_nil _

/-- `loop_4x_vec`, and what follows it.  The fuel bounds the rounds. -/
def loop4xVec : ℕ → ℕ → ℕ → ℕ → Traced (Option Ret)
  | 0, _, _, _ => pure none
  | fuel + 1, rdi, rsi, rdx => do
    match ← fourVecs mem vpandChain rdi rsi with
    | some r => return some r
    | none =>
      let rdi := wadd rdi (vecSize * 4)
      let rsi := wadd rsi (vecSize * 4)
      let rdx := wsub rdx (vecSize * 4)
      if vecSize * 4 ≤ rdx then loop4xVec fuel rdi rsi rdx
      else if rdx ≤ vecSize then returns (lastVec mem rdi rsi rdx)
      else if rdx ≤ vecSize * 2 then returns (last2xVec mem rdi rsi rdx)
      else returns (last4xVec mem rdi rsi rdx)

/-- `more_8x_vec`: the first array is advanced to its next multiple of 32. -/
def more8xVec (rdi rsi rdx : ℕ) : Traced (Option Ret) := do
  let ymm2 ← cmpVec mem 0 rdi rsi
  let eax := maskDiff 32 ymm2
  if eax ≠ 0 then returns (firstVec mem rdi rsi eax)
  else
    let r8 := wsub (rdi &&& (vecSize - 1)) vecSize
    let rsi := wsub rsi r8
    let rdi := wsub rdi r8
    let rdx := wadd rdx r8
    loop4xVec mem rdx rdi rsi rdx

/-- `memcmp_avx2_asm`. -/
def memcmpAvx2Asm (rdi rsi rdx : ℕ) : Traced (Option Ret) :=
  if rdx < vecSize then returns (lessVec mem rdi rsi rdx)
  else do
    let ymm2 ← cmpVec mem 0 rdi rsi
    let eax := maskDiff 32 ymm2
    if eax ≠ 0 then returns (firstVec mem rdi rsi eax)
    else if rdx ≤ vecSize * 2 then returns (lastVec mem rdi rsi rdx)
    else if vecSize * 8 < rdx then more8xVec mem rdi rsi rdx
    else if rdx < vecSize * 4 then returns (last4xVec mem rdi rsi rdx)
    else
      match ← fourVecs mem vpandPairs rdi rsi with
      | some r => return some r
      | none =>
        let rdi := wsub (wadd rdi rdx) (vecSize * 4)
        let rsi := wsub (wadd rsi rdx) (vecSize * 4)
        match ← fourVecs mem vpandChain rdi rsi with
        | some r => return some r
        | none => return some ⟨0, none⟩

end

end Traced

/-- What `memcmp_avx2_asm` leaves. -/
def memcmpAvx2Asm (mem : ℕ → UInt8) (rdi rsi rdx : ℕ) : Option Ret :=
  (Traced.memcmpAvx2Asm mem rdi rsi rdx).result

end Cidl
