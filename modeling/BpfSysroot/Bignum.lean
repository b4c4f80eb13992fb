import Mathlib

/-!
# `Big32x40`

The bignum of `core/src/num/bignum.rs`: forty digits of 32 bits and a size. The digits
are a list; an index or a slice out of range, a failed `assert!` and an underflow of a
`usize` have no result. Loops over a part of the digits are recursions over that part.
The `debug_assert!`s are left out, so the results hold in every build.
-/

namespace Bignum

open List

def n : Nat := 40

def digitbits : Nat := 32

structure Big where
  size : Nat
  base : List UInt32

def addWithOverflow (a b : UInt32) : UInt32 × Bool := (a + b, 2 ^ 32 ≤ a.toNat + b.toNat)

def fullAdd (a other : UInt32) (carry : Bool) : Bool × UInt32 :=
  let (v, carry₁) := addWithOverflow a other
  let (v, carry₂) := addWithOverflow v (if carry then 1 else 0)
  (carry₁ || carry₂, v)

def fullMul (a other carry : UInt32) : UInt32 × UInt32 :=
  let v := a.toUInt64 * other.toUInt64 + carry.toUInt64
  ((v >>> 32).toUInt32, v.toUInt32)

def fullMulAdd (a other other₂ carry : UInt32) : UInt32 × UInt32 :=
  let v := a.toUInt64 * other.toUInt64 + other₂.toUInt64 + carry.toUInt64
  ((v >>> 32).toUInt32, v.toUInt32)

def fullDivRem (a other borrow : UInt32) : UInt32 × UInt32 :=
  let lhs := borrow.toUInt64 <<< 32 ||| a.toUInt64
  let rhs := other.toUInt64
  ((lhs / rhs).toUInt32, (lhs % rhs).toUInt32)

/-- `base[i] = v`. -/
def store (base : List UInt32) (i : Nat) (v : UInt32) : Option (List UInt32) :=
  if i < base.length then some (base.set i v) else none

/-- `base[..sz]` and the digits behind it. -/
def slice (base : List UInt32) (sz : Nat) : Option (List UInt32 × List UInt32) :=
  if sz ≤ base.length then some (base.take sz, base.drop sz) else none

def fromSmall (v : UInt32) : Big := ⟨1, (replicate n 0).set 0 v⟩

def fromU64Loop (base : List UInt32) (sz : Nat) (v : UInt64) : Option Big :=
  if _pos : v > 0 then
    (store base sz v.toUInt32).bind (fromU64Loop · (sz + 1) (v >>> 32))
  else some ⟨sz, base⟩
termination_by v.toNat
decreasing_by
  have pos : 0 < v.toNat := UInt64.lt_iff_toNat_lt.mp _pos
  rw [UInt64.toNat_shiftRight, Nat.shiftRight_eq_div_pow]
  exact Nat.div_lt_self pos (by decide)

def fromU64 (v : UInt64) : Option Big := fromU64Loop (replicate n 0) 0 v

section
variable (a : Big)

def digits : Option (List UInt32) := (slice a.base a.size).map Prod.fst

def getBit (i : Nat) : Option UInt8 := do
  let d := i / digitbits
  let b := i % digitbits
  return ((← a.base[d]?) >>> UInt32.ofNat b &&& 1).toUInt8

def isZero : Option Bool := do return (← digits a).all (· == 0)

/-- `while self.get_bit(i) == 0`, with the index after it. -/
def bitLengthLoop (a : Big) (i : Nat) : Option Nat := do
  if (← getBit a i) = 0 then
    match i with
    | 0 => none
    | i + 1 => bitLengthLoop a i
  else return i + 1

def bitLength : Option Nat := do
  let digits ← digits a
  let zeros := (digits.reverse.takeWhile (· == 0)).length
  let nonzero := digits.take (digits.length - zeros)
  if nonzero.isEmpty then return 0
  else bitLengthLoop a (nonzero.length * digitbits - 1)

def addLoop : List UInt32 → List UInt32 → Bool → List UInt32 × Bool
  | a :: as, b :: bs, carry =>
    let (c, v) := fullAdd a b carry
    let (vs, carry) := addLoop as bs c
    (v :: vs, carry)
  | as, _, carry => (as, carry)

def add (a other : Big) : Option Big := do
  let sz := max a.size other.size
  let (as, rest) ← slice a.base sz
  let (bs, _) ← slice other.base sz
  let (vs, carry) := addLoop as bs false
  if carry then return ⟨sz + 1, ← store (vs ++ rest) sz 1⟩
  else return ⟨sz, vs ++ rest⟩

/-- `while carry`, with the number of digits it changes. -/
def carryLoop : List UInt32 → Bool → Option (List UInt32 × Nat)
  | as, false => some (as, 0)
  | [], true => none
  | a :: as, true => do
    let (c, v) := fullAdd a 0 true
    let (vs, i) ← carryLoop as c
    return (v :: vs, i + 1)

def addSmall (other : UInt32) : Option Big :=
  match a.base with
  | [] => none
  | d :: ds => do
    let (carry, v) := fullAdd d other false
    let (vs, changed) ← carryLoop ds carry
    let i := 1 + changed
    return ⟨if i > a.size then i else a.size, v :: vs⟩

def subLoop : List UInt32 → List UInt32 → Bool → List UInt32 × Bool
  | a :: as, b :: bs, noborrow =>
    let (c, v) := fullAdd a (~~~b) noborrow
    let (vs, noborrow) := subLoop as bs c
    (v :: vs, noborrow)
  | as, _, noborrow => (as, noborrow)

def sub (a other : Big) : Option Big := do
  let sz := max a.size other.size
  let (as, rest) ← slice a.base sz
  let (bs, _) ← slice other.base sz
  let (vs, noborrow) := subLoop as bs true
  if noborrow then return ⟨sz, vs ++ rest⟩ else none

def mulLoop (other : UInt32) : List UInt32 → UInt32 → List UInt32 × UInt32
  | [], carry => ([], carry)
  | a :: as, carry =>
    let (c, v) := fullMul a other carry
    let (vs, carry) := mulLoop other as c
    (v :: vs, carry)

def mulSmall (other : UInt32) : Option Big := do
  let sz := a.size
  let (as, rest) ← slice a.base sz
  let (vs, carry) := mulLoop other as 0
  if carry > 0 then return ⟨sz + 1, ← store (vs ++ rest) sz carry⟩
  else return ⟨sz, vs ++ rest⟩

/-- `for i in (0..count).rev()`: each digit moves up by `digits`. -/
def moveLoop (digits : Nat) : Nat → List UInt32 → Option (List UInt32)
  | 0, base => some base
  | i + 1, base => do
    let d ← base[i]?
    moveLoop digits i (← store base (i + digits) d)

/-- `for i in (low..low + count).rev()`: each digit takes in the top bits of the one below. -/
def shiftLoop (bits low : Nat) : Nat → List UInt32 → Option (List UInt32)
  | 0, base => some base
  | count + 1, base => do
    let i := low + count
    let d ← base[i]?
    let below ← base[i - 1]?
    let v := d <<< UInt32.ofNat bits ||| below >>> UInt32.ofNat (digitbits - bits)
    shiftLoop bits low count (← store base i v)

/-- The digit above the last one, if it gets any bits. -/
def storeOverflow (base : List UInt32) (last : Nat) (overflow : UInt32) :
    Option (List UInt32 × Nat) :=
  if overflow > 0 then (store base last overflow).map (·, last + 1) else some (base, last)

/-- Shift by `bits` bits, above `digits` digits that are zero. -/
def shiftBits (base : List UInt32) (digits last bits : Nat) : Option Big := do
  -- `last - 1` underflows
  if last = 0 then none
  let overflow := (← base[last - 1]?) >>> UInt32.ofNat (digitbits - bits)
  let (base, sz) ← storeOverflow base last overflow
  let base ← shiftLoop bits (digits + 1) (last - (digits + 1)) base
  let d ← base[digits]?
  return ⟨sz, ← store base digits (d <<< UInt32.ofNat bits)⟩

def mulPow2 (bits : Nat) : Option Big := do
  let digits := bits / digitbits
  let bits := bits % digitbits
  if digits < n then
    let base ← moveLoop digits a.size a.base
    -- `for i in 0..digits { self.base[i] = 0 }`
    let base := replicate digits 0 ++ base.drop digits
    if bits > 0 then shiftBits base digits (a.size + digits) bits
    else return ⟨a.size + digits, base⟩
  else none

/-- The entry of `SMALL_POW5` for digits of four bytes. -/
def smallPow5 : UInt32 × Nat := (1220703125, 13)

/-- `while e >= small_e`, with the exponent after it. -/
def mulPow5Loop (a : Big) (e : Nat) : Option (Big × Nat) :=
  if e ≥ smallPow5.2 then (mulSmall a smallPow5.1).bind (mulPow5Loop · (e - smallPow5.2))
  else some (a, e)
termination_by e
decreasing_by
  simp only [smallPow5] at *
  omega

def restPower : Nat → UInt32
  | 0 => 1
  | e + 1 => restPower e * 5

def mulPow5 (e : Nat) : Option Big := do
  let (a, e) ← mulPow5Loop a e
  mulSmall a (restPower e)

/-- The loop over `bb` on the digits of `ret` from `i` on, and the store of its carry; the
number tells whether there was one. -/
def mulRow (a : UInt32) : List UInt32 → List UInt32 → UInt32 → Option (List UInt32 × Nat)
  | [], ret, carry =>
    if carry > 0 then
      match ret with
      | [] => none
      | _ :: ret => some (carry :: ret, 1)
    else some (ret, 0)
  | _ :: _, [], _ => none
  | b :: bb, r :: ret, carry => do
    let (c, v) := fullMulAdd a b r carry
    let (vs, more) ← mulRow a bb ret c
    return (v :: vs, more)

/-- `mul_inner` from `i` on. -/
def mulInner (bb : List UInt32) : List UInt32 → Nat → List UInt32 → Nat →
    Option (List UInt32 × Nat)
  | [], _, ret, retsz => some (ret, retsz)
  | a :: aa, i, ret, retsz =>
    if a = 0 then mulInner bb aa (i + 1) ret retsz
    else do
      let (row, more) ← mulRow a bb (ret.drop i) 0
      let sz := bb.length + more
      let retsz := if retsz < i + sz then i + sz else retsz
      mulInner bb aa (i + 1) (ret.take i ++ row) retsz

def mulDigits (other : List UInt32) : Option Big := do
  let digits ← digits a
  let ret := replicate n 0
  let rows := if a.size < other.length then mulInner other digits 0 ret 0
    else mulInner digits other 0 ret 0
  rows.map fun (ret, retsz) => ⟨retsz, ret⟩

/-- The digits from the top down, with the last remainder. -/
def divLoop (other : UInt32) : List UInt32 → List UInt32 × UInt32
  | [] => ([], 0)
  | a :: as =>
    let (qs, borrow) := divLoop other as
    let (q, r) := fullDivRem a other borrow
    (q :: qs, r)

def divRemSmall (other : UInt32) : Option (Big × UInt32) := do
  if other > 0 then
    let (as, rest) ← slice a.base a.size
    let (qs, borrow) := divLoop other as
    return (⟨a.size, qs ++ rest⟩, borrow)
  else none

end

/-- `Iterator::cmp`. -/
def lexCmp : List UInt32 → List UInt32 → Ordering
  | [], [] => .eq
  | [], _ :: _ => .lt
  | _ :: _, [] => .gt
  | a :: as, b :: bs => if a < b then .lt else if b < a then .gt else lexCmp as bs

def cmp (a other : Big) : Option Ordering := do
  let sz := max a.size other.size
  let (lhs, _) ← slice a.base sz
  let (rhs, _) ← slice other.base sz
  return lexCmp lhs.reverse rhs.reverse

def eq (a other : Big) : Bool := a.base == other.base

structure DivState where
  q : Big
  r : Big
  qIsZero : Bool

/-- Set bit `i` of `q`. -/
def setBit (s : DivState) (i : Nat) : Option DivState := do
  let digitIdx := i / digitbits
  let bitIdx := i % digitbits
  let size := if s.qIsZero then digitIdx + 1 else s.q.size
  let d ← s.q.base[digitIdx]?
  let base ← store s.q.base digitIdx (d ||| 1 <<< UInt32.ofNat bitIdx)
  return { s with q := ⟨size, base⟩, qIsZero := false }

/-- `r.base[0] |= self.get_bit(i)` after the shift. -/
def nextBit (a r : Big) (i : Nat) : Option Big := do
  let r ← mulPow2 r 1
  let bit ← getBit a i
  let d ← r.base[0]?
  return ⟨r.size, ← store r.base 0 (d ||| bit.toUInt32)⟩

/-- One iteration for bit `i`. -/
def divStep (a d : Big) (s : DivState) (i : Nat) : Option DivState := do
  let r ← nextBit a s.r i
  if (← cmp r d) ≠ .lt then setBit { s with r := ← sub r d } i
  else return { s with r := r }

/-- `for i in (0..end).rev()`. -/
def divRemLoop (a d : Big) : Nat → DivState → Option DivState
  | 0, s => some s
  | i + 1, s => (divStep a d s i).bind (divRemLoop a d i)

/-- The quotient and the remainder, which overwrite `q` and `r`. -/
def divRem (a d : Big) : Option (Big × Big) := do
  if ← isZero d then none
  else
    let zeros := replicate n 0
    let s ← divRemLoop a d (← bitLength a) ⟨⟨1, zeros⟩, ⟨d.size, zeros⟩, true⟩
    return (s.q, s.r)

end Bignum
