import BpfSysroot.LongDivision
import BpfSysroot.WideWords

/-!
# 128-bit division of the BPF runtime

`__udivmodti4` of `builtins/bpf/udivmodti4.c`: eight special cases over the words
of dividend and divisor, four of which align the pair `r:q` for the
shift-and-subtract loop. The eight cases are `prepare`; what they hand to the
loop is described by `Aligned`, in the words of the comment before the loop.
-/

namespace BpfUdivmodti4

open Traced WideWords LongDivision Nat
open Utwords (all_ofAll ofAll toNat_all toNat_all_low)
open Run (yields_ret)

def nUdwordBits : SuInt := 64
def nUtwordBits : SuInt := 128

/-- A special case either returns, with the remainder it would store, or goes on to the loop. -/
inductive Outcome
  | returned (value stored : TuInt)
  | aligned (q r : Utwords) (sr : SuInt)

/-- `K K / K 0`, the divisor not a power of two. -/
def alignHigh (n d : Utwords) : Run Event Outcome := do
  let sr := (← clzll d.high) - (← clzll n.high)
  inRange 0 62 true sr
  if nUdwordBits - 2 < sr then
    return .returned 0 n.all
  else
    let sr := sr + 1
    inRange 1 63 false sr
    let qHigh ← shl n.low (nUdwordBits - sr)
    let rHigh ← shr n.high sr
    let rLow := (← shl n.high (nUdwordBits - sr)) ||| (← shr n.low sr)
    return .aligned ⟨qHigh, 0⟩ ⟨rHigh, rLow⟩ sr

/-- `K X / 0 K`, the divisor a power of two. -/
def powerLow (n d : Utwords) : Run Event Outcome := do
  let stored := (n.low &&& (d.low - 1)).setWidth 128
  if d.low = 1 then
    return .returned n.all stored
  else
    let sr ← ctzll d.low
    let qHigh ← shr n.high sr
    let qLow := (← shl n.high (nUdwordBits - sr)) ||| (← shr n.low sr)
    return .returned (Utwords.mk qHigh qLow).all stored

/-- `K X / 0 K`, the divisor not a power of two. -/
def alignLow (n d : Utwords) : Run Event Outcome := do
  let sr := 1 + nUdwordBits + (← clzll d.low) - (← clzll n.high)
  inRange 2 127 false sr
  if sr = nUdwordBits then
    return .aligned ⟨n.low, 0⟩ ⟨0, n.high⟩ sr
  else if sr < nUdwordBits then
    inRange 2 63 false sr
    let qHigh ← shl n.low (nUdwordBits - sr)
    let rHigh ← shr n.high sr
    let rLow := (← shl n.high (nUdwordBits - sr)) ||| (← shr n.low sr)
    return .aligned ⟨qHigh, 0⟩ ⟨rHigh, rLow⟩ sr
  else
    inRange 65 127 false sr
    let qLow ← shl n.low (nUtwordBits - sr)
    let qHigh := (← shl n.high (nUtwordBits - sr)) ||| (← shr n.low (sr - nUdwordBits))
    let rLow ← shr n.high (sr - nUdwordBits)
    return .aligned ⟨qHigh, qLow⟩ ⟨0, rLow⟩ sr

/-- `K X / K K`. -/
def alignBoth (n d : Utwords) : Run Event Outcome := do
  let sr := (← clzll d.high) - (← clzll n.high)
  inRange 0 63 true sr
  if nUdwordBits - 1 < sr then
    return .returned 0 n.all
  else
    let sr := sr + 1
    inRange 1 64 false sr
    if sr = nUdwordBits then
      return .aligned ⟨n.low, 0⟩ ⟨0, n.high⟩ sr
    else
      let rHigh ← shr n.high sr
      let rLow := (← shl n.high (nUdwordBits - sr)) ||| (← shr n.low sr)
      let qHigh ← shl n.low (nUdwordBits - sr)
      return .aligned ⟨qHigh, 0⟩ ⟨rHigh, rLow⟩ sr

def prepare (n d : Utwords) : Run Event Outcome := do
  if n.high = 0 then
    if d.high = 0 then
      let stored ← remainder n.low d.low
      let value ← quot n.low d.low
      return .returned (value.setWidth 128) (stored.setWidth 128)
    else
      return .returned 0 (n.low.setWidth 128)
  else if d.low = 0 then
    if d.high = 0 then
      let stored ← remainder n.high d.low
      let value ← quot n.high d.low
      return .returned (value.setWidth 128) (stored.setWidth 128)
    else if n.low = 0 then
      let rHigh ← remainder n.high d.high
      let value ← quot n.high d.high
      return .returned (value.setWidth 128) (Utwords.mk rHigh 0).all
    else if d.high &&& (d.high - 1) = 0 then
      let value ← shr n.high (← ctzll d.high)
      return .returned (value.setWidth 128) (Utwords.mk (n.high &&& (d.high - 1)) n.low).all
    else
      alignHigh n d
  else if d.high = 0 then
    if d.low &&& (d.low - 1) = 0 then powerLow n d else alignLow n d
  else
    alignBoth n d

/-- The loop body: one bit of the dividend moves from `q` to `r`, the previous bit of the quotient
from `carry` to `q`. -/
def divideStep (d : TuInt) (carry : SuInt) (q r : Utwords) :
    Run Event (SuInt × Utwords × Utwords) := do
  let rHigh := (← shl r.high 1) ||| (← shr r.low (nUdwordBits - 1))
  let rLow := (← shl r.low 1) ||| (← shr q.high (nUdwordBits - 1))
  let qHigh := (← shl q.high 1) ||| (← shr q.low (nUdwordBits - 1))
  let qLow := (← shl q.low 1) ||| carry.setWidth 64
  let r := Utwords.mk rHigh rLow
  let s ← mask r.all d
  return ((s &&& 1).setWidth 32, ⟨qHigh, qLow⟩, .ofAll (r.all - (d &&& s)))

/-- `for (; sr > 0; --sr)`. -/
def divideLoop (d : TuInt) : Nat → SuInt → Utwords → Utwords →
    Run Event (SuInt × Utwords × Utwords)
  | 0, carry, q, r => return (carry, q, r)
  | sr + 1, carry, q, r => do
    let (carry, q, r) ← divideStep d carry q r
    divideLoop d sr carry q r

/-- Returns the quotient and what is stored at `rem`, if that is not the null pointer. -/
def udivmodti4 (a b : TuInt) (rem : Bool) : Run Event (TuInt × Option TuInt) := do
  let store := fun x => if rem then some x else none
  match ← prepare (.ofAll a) (.ofAll b) with
  | .returned value stored => return (value, store stored)
  | .aligned q r sr =>
    inRange 1 127 false sr
    let (carry, q, r) ← divideLoop b sr.toNat 0 q r
    let value ← shl q.all 1
    return (value ||| carry.setWidth 128, store r.all)

/-- The one case that shifts by zero: `K K / K 0` with the divisor `2 ^ 64`. -/
def ShiftsByZero (a b : TuInt) : Prop :=
  b.toNat = 2 ^ 64 ∧ (ofAll a).high ≠ 0 ∧ (ofAll a).low ≠ 0

/-- What may be noted while `a` is divided by `b`: defined shifts, `sr` within the ranges of the
comments, and comparisons that come out right. -/
def Sound (a b : TuInt) : Event → Prop
  | .shift amount width => amount < width ∧ (amount = 0 → ShiftsByZero a b)
  | .range lowest highest orLarge sr =>
    lowest ≤ sr.toNat ∧ sr.toNat ≤ highest ∨ orLarge ∧ 2 ^ 32 - 64 < sr.toNat
  | .select r d s => s = if d ≤ r then BitVec.allOnes 128 else 0

variable {a b : TuInt}

lemma sound_shift {amount width : Nat} (positive : 0 < amount)
    (small : amount < width) : Sound a b (.shift amount width) :=
  ⟨small, fun zero => absurd zero positive.ne'⟩

section
variable {A : Type} {a b : TuInt} {w : Nat} {x : BitVec w} {k : SuInt} {f : BitVec w → Run Event A}
  {Q : A → Prop}

lemma shl_bind (within : 0 < k.toNat ∧ k.toNat < w)
    (rest : (f (x <<< k.toNat)).Yields (Sound a b) Q) : (shl x k >>= f).Yields (Sound a b) Q :=
  (yields_shl within.2 (sound_shift within.1 within.2)).bind_eq rest

lemma shr_bind (within : 0 < k.toNat ∧ k.toNat < w)
    (rest : (f (x >>> k.toNat)).Yields (Sound a b) Q) : (shr x k >>= f).Yields (Sound a b) Q :=
  (yields_shr within.2 (sound_shift within.1 within.2)).bind_eq rest

end

lemma yields_inRange {lowest highest : Nat} {orLarge : Bool} {sr : SuInt}
    (low : lowest ≤ sr.toNat) (high : sr.toNat ≤ highest) :
    (inRange lowest highest orLarge sr).Yields (Sound a b) (· = ()) :=
  Run.yields_noting (.inl ⟨low, high⟩) rfl

lemma yields_large {highest : Nat} {sr : SuInt} (large : 2 ^ 32 - 64 < sr.toNat) :
    (inRange 0 highest true sr).Yields (Sound a b) (· = ()) :=
  Run.yields_noting (.inr ⟨rfl, large⟩) rfl

section

/-- With `k` bits of `n` unread: `r` is the remainder of what was read, and `q` holds the unread
bits above the quotient bits, the last of which is still in `carry`. -/
structure Progress (n d k : Nat) (carry : SuInt) (q r : Utwords) : Prop where
  remainder : r.all.toNat = n / 2 ^ k % d
  quotient : q.all.toNat = n % 2 ^ k * 2 ^ (128 - k) + n / 2 ^ k / d / 2
  carry : carry.toNat = n / 2 ^ k / d % 2

variable {n d k : Nat}

/-- Before every comparison `r` and `d` are less than half a word apart: either the divisor leaves
the top bit free, or the loop runs once, on a dividend with the top bit set. -/
def Near (n d sr : Nat) : Prop := d < 2 ^ 127 ∨ sr = 1 ∧ 2 ^ 127 ≤ n

lemma near_bounds (hn : n < 2 ^ 128) (hd : 0 < d) (hd' : d < 2 ^ 128)
    (near : Near n d (k + 1)) (t : Nat) (ht : t = 2 * (n / 2 ^ (k + 1) % d) + n / 2 ^ k % 2) :
    t < 2 ^ 128 ∧ d ≤ t + 2 ^ 127 ∧ t < d + 2 ^ 127 := by
  have hr := mod_lt (n / 2 ^ (k + 1)) hd
  rcases near with small | ⟨last, large⟩
  · omega
  · obtain rfl : k = 0 := by omega
    by_cases small : d < 2 ^ 127
    · omega
    · have keep : n / 2 ^ (0 + 1) % d = n / 2 ^ (0 + 1) := mod_eq_of_lt (by omega)
      omega

variable {a b : TuInt} {carry : SuInt} {q r : Utwords}

lemma yields_divideStep (nonzero : b ≠ 0) (hk : k < 128) (near : Near a.toNat b.toNat (k + 1))
    (before : Progress a.toNat b.toNat (k + 1) carry q r) :
    (divideStep b carry q r).Yields (Sound a b)
      (fun s => Progress a.toNat b.toNat k s.1 s.2.1 s.2.2) := by
  have positive : 0 < b.toNat := pos_of_ne_zero fun h => nonzero (BitVec.eq_of_toNat_eq h)
  obtain ⟨hr, hq, hc⟩ := before
  -- the two pairs after the shift, as numbers
  have bit : (q.high >>> 63).toNat = a.toNat / 2 ^ k % 2 := by
    rw [← unread_top a.isLt hk, ← hq, toNat_ushiftRight_top, toNat_all]
    have := q.low.isLt
    omega
  have carried : (carry.setWidth 64 : DuInt).toNat = a.toNat / 2 ^ (k + 1) / b.toNat % 2 := by
    rw [BitVec.toNat_setWidth, hc]
    omega
  have newR := toNat_all_double r (q.high >>> 63) (by omega)
  have newQ := toNat_all_double q (carry.setWidth 64) (by omega)
  rw [carried, hq, unread_double a.isLt hk] at newQ
  obtain ⟨fits, above, below⟩ := near_bounds a.isLt positive b.isLt near _ rfl
  rw [bit, hr, mod_eq_of_lt (by omega)] at newR
  -- and after the correction
  have read := read_bit (a.toNat / 2 ^ (k + 1)) positive
    (show a.toNat / 2 ^ k % 2 < 2 by omega)
  rw [← div_pow_eq, ← newR] at read
  apply shl_bind (by decide)
  apply shr_bind (by decide)
  apply shl_bind (by decide)
  apply shr_bind (by decide)
  apply shl_bind (by decide)
  apply shr_bind (by decide)
  apply shl_bind (by decide)
  simp only [nUdwordBits, BitVec.reduceSub, BitVec.reduceToNat]
  apply (yields_mask (by omega) (by omega) (sound_shift (by decide) (by decide)) rfl).bind_eq
  apply yields_ret
  constructor
  · rw [all_ofAll, toNat_sub_mask, read.2]
  · rw [newQ, read.1]
    split <;> omega
  · apply (toNat_mask_and_one _ b (by decide)).trans
    rw [read.1]
    split <;> omega

lemma yields_divideLoop (nonzero : b ≠ 0) (hk : k ≤ 127)
    (near : Near a.toNat b.toNat k) (before : Progress a.toNat b.toNat k carry q r) :
    (divideLoop b k carry q r).Yields (Sound a b)
      (fun s => Progress a.toNat b.toNat 0 s.1 s.2.1 s.2.2) := by
  induction k generalizing carry q r with
  | zero => exact yields_ret before
  | succ k ih =>
    apply (yields_divideStep nonzero (by omega) near before).bind
    rintro ⟨carry, q, r⟩ after
    by_cases last : k = 0
    · subst last
      exact yields_ret after
    · apply ih (by omega) _ after
      rcases near with small | ⟨one, -⟩
      · exact .inl small
      · omega

/-- With nothing left to read, the last carry completes the quotient. -/
lemma Progress.value {n d : Nat} (done : Progress n d 0 carry q r) (hn : n < 2 ^ 128) :
    (q.all <<< 1 ||| carry.setWidth 128).toNat = n / d ∧ r.all.toNat = n % d := by
  obtain ⟨hr, hq, hc⟩ := done
  simp only [pow_zero, Nat.div_one, Nat.mod_one, zero_mul, zero_add] at hr hq hc
  have small : n / d ≤ n := Nat.div_le_self n d
  constructor
  · have shifted : (q.all <<< 1).toNat = n / d / 2 * 2 := by
      rw [BitVec.toNat_shiftLeft]
      omega
    rw [BitVec.toNat_or, shifted, BitVec.toNat_setWidth, hc,
      Nat.mod_eq_of_lt (show n / d % 2 < 2 ^ 128 by omega)]
    have join := Nat.shiftLeft_add_eq_or_of_lt (i := 1) (b := n / d % 2) (by omega) (n / d / 2)
    rw [Nat.shiftLeft_eq, pow_one] at join
    omega
  · exact hr

end

section

/-- What the comment before the loop says of `q`, `r` and `sr`, and what the loop needs. -/
structure Aligned (n d : Utwords) (q r : Utwords) (sr : SuInt) : Prop where
  positive : 1 ≤ sr.toNat
  bound : sr.toNat ≤ 127
  q_eq : q.all = n.all <<< (128 - sr.toNat)
  r_eq : r.all = n.all >>> sr.toNat
  r_lt : n.all.toNat / 2 ^ sr.toNat < d.all.toNat
  near : Near n.all.toNat d.all.toNat sr.toNat

def Prepared (n d : Utwords) : Outcome → Prop
  | .returned value stored =>
    value.toNat = n.all.toNat / d.all.toNat ∧ stored.toNat = n.all.toNat % d.all.toNat
  | .aligned q r sr => Aligned n d q r sr

variable {a b : TuInt} {n d : Utwords} {sr : SuInt}

lemma Aligned.progress {q r : Utwords} (h : Aligned n d q r sr) :
    Progress n.all.toNat d.all.toNat sr.toNat 0 q r := by
  have whole : 2 ^ sr.toNat * 2 ^ (128 - sr.toNat) = 2 ^ 128 := by
    rw [← pow_add, Nat.add_sub_cancel' (h.bound.trans (by decide))]
  constructor
  · rw [h.r_eq, BitVec.toNat_ushiftRight, Nat.shiftRight_eq_div_pow, Nat.mod_eq_of_lt h.r_lt]
  · rw [h.q_eq, BitVec.toNat_shiftLeft, Nat.shiftLeft_eq, ← whole, Nat.mul_mod_mul_right,
      Nat.div_eq_of_lt h.r_lt, Nat.add_zero]
  · rw [Nat.div_eq_of_lt h.r_lt]
    rfl

lemma div_pow_lt {x y s e : Nat} (hx : x < 2 ^ (s + e)) (hy : 2 ^ e ≤ y) : x / 2 ^ s < y := by
  apply lt_of_lt_of_le _ hy
  apply Nat.div_lt_of_lt_mul
  rwa [← pow_add]

/-- The leading one of a pair stands where that of its high word stands. -/
lemma leading_all {t : Utwords} {c : SuInt} (leading : Leading t.high c) :
    2 ^ (127 - c.toNat) ≤ t.all.toNat ∧ t.all.toNat < 2 ^ (128 - c.toNat) := by
  obtain ⟨lt, low, high⟩ := leading
  rw [toNat_all, show 127 - c.toNat = 63 - c.toNat + 64 by omega,
    show 128 - c.toNat = 64 - c.toNat + 64 by omega, pow_add, pow_add]
  omega

lemma prepared_small (h : n.all.toNat < d.all.toNat) : Prepared n d (.returned 0 n.all) :=
  ⟨(div_eq_of_lt h).symm, (mod_eq_of_lt h).symm⟩

/-- Both words of the divisor's high part count: the quotient is small or the leading ones are
`sr` apart. -/
lemma leading_cases {cd cn : SuInt} (hd : Leading d.high cd) (hn : Leading n.high cn) :
    (2 ^ 32 - 64 < (cd - cn).toNat ∧ n.all.toNat < d.all.toNat) ∨
      ((cd - cn).toNat ≤ cd.toNat ∧ (cd - cn + 1).toNat = (cd - cn).toNat + 1 ∧
        n.all.toNat / 2 ^ ((cd - cn).toNat + 1) < d.all.toNat ∧
        Near n.all.toNat d.all.toNat ((cd - cn).toNat + 1)) := by
  obtain ⟨dl, dh⟩ := leading_all hd
  obtain ⟨nl, nh⟩ := leading_all hn
  have d_lt := hd.lt
  have n_lt := hn.lt
  by_cases order : cn.toNat ≤ cd.toNat
  · right
    have diff : (cd - cn).toNat = cd.toNat - cn.toNat := by bv_omega
    have next : (cd - cn + 1).toNat = (cd - cn).toNat + 1 := by bv_omega
    refine ⟨by omega, next, ?_, ?_⟩
    · apply div_pow_lt _ dl
      apply lt_of_lt_of_eq nh
      congr 1
      omega
    · by_cases free : cd.toNat = 0
      · right
        have : cn.toNat = 0 := by omega
        rw [this] at nl
        exact ⟨by omega, nl⟩
      · left
        apply lt_of_lt_of_le dh
        exact Nat.pow_le_pow_right (by decide) (by omega)
  · left
    constructor
    · bv_omega
    · apply lt_of_lt_of_le nh
      apply le_trans _ dl
      exact Nat.pow_le_pow_right (by decide) (by omega)

lemma aligned_word (hsr : sr = nUdwordBits) (r_lt : n.all.toNat / 2 ^ sr.toNat < d.all.toNat)
    (near : Near n.all.toNat d.all.toNat sr.toNat) : Aligned n d ⟨n.low, 0⟩ ⟨0, n.high⟩ sr := by
  subst hsr
  refine ⟨by decide, by decide, ?_, ?_, r_lt, near⟩
  · have := all_shiftLeft_word n (k := 0)
    rwa [BitVec.shiftLeft_zero] at this
  · have := all_shiftRight_word n (k := 0)
    rwa [BitVec.ushiftRight_zero] at this

lemma sub_toNat (small : sr.toNat < 64) : (nUdwordBits - sr).toNat = 64 - sr.toNat := by
  rw [nUdwordBits]
  bv_omega

lemma sub_within (within : 0 < sr.toNat ∧ sr.toNat < 64) :
    0 < (nUdwordBits - sr).toNat ∧ (nUdwordBits - sr).toNat < 64 := by
  rw [sub_toNat within.2]
  omega

/-- The three cases with `sr` below the word size align in the same way. -/
lemma aligned_below (within : 0 < sr.toNat ∧ sr.toNat < 64)
    (r_lt : n.all.toNat / 2 ^ sr.toNat < d.all.toNat)
    (near : Near n.all.toNat d.all.toNat sr.toNat) :
    Aligned n d ⟨n.low <<< (nUdwordBits - sr).toNat, 0⟩
      ⟨n.high >>> sr.toNat, n.high <<< (nUdwordBits - sr).toNat ||| n.low >>> sr.toNat⟩ sr := by
  rw [sub_toNat within.2]
  refine ⟨within.1, by omega, ?_, all_shiftRight n within.1 within.2, r_lt, near⟩
  rw [all_shiftLeft_word]
  congr 1
  omega

lemma leading_le {x : DuInt} {c : SuInt} (two : 2 ≤ x.toNat) (leading : Leading x c) :
    c.toNat ≤ 62 := by
  obtain ⟨lt, -, high⟩ := leading
  by_contra large
  have : c.toNat = 63 := by omega
  rw [this] at high
  omega

lemma ne_zero_of_two_le {x : DuInt} (two : 2 ≤ x.toNat) : x ≠ 0 := by
  rintro rfl
  exact absurd two (by decide)

lemma yields_alignHigh (hn : n.high ≠ 0) (hd : 2 ≤ d.high.toNat) :
    (alignHigh n d).Yields (Sound a b) (Prepared n d) := by
  apply (yields_clzll (ne_zero_of_two_le hd)).bind
  intro cd hcd
  apply (yields_clzll hn).bind
  intro cn hcn
  have notOne := leading_le hd hcd
  rcases leading_cases hcd hcn with ⟨large, less⟩ | ⟨le, next, r_lt, near⟩
  · apply (yields_large large).bind_eq
    rw [if_pos (by rw [nUdwordBits]; bv_omega)]
    exact yields_ret (prepared_small less)
  · apply (yields_inRange (zero_le _) (by omega)).bind_eq
    rw [if_neg (by rw [nUdwordBits]; bv_omega)]
    rw [← next] at r_lt near
    have within : 0 < (cd - cn + 1).toNat ∧ (cd - cn + 1).toNat < 64 := by omega
    apply (yields_inRange within.1 (by omega)).bind_eq
    apply shl_bind (sub_within within)
    apply shr_bind within
    apply shl_bind (sub_within within)
    apply shr_bind within
    exact yields_ret (aligned_below within r_lt near)

lemma yields_alignBoth (hn : n.high ≠ 0) (hd : d.high ≠ 0) :
    (alignBoth n d).Yields (Sound a b) (Prepared n d) := by
  apply (yields_clzll hd).bind
  intro cd hcd
  apply (yields_clzll hn).bind
  intro cn hcn
  have d_lt := hcd.lt
  rcases leading_cases hcd hcn with ⟨large, less⟩ | ⟨le, next, r_lt, near⟩
  · apply (yields_large large).bind_eq
    rw [if_pos (by rw [nUdwordBits]; bv_omega)]
    exact yields_ret (prepared_small less)
  · apply (yields_inRange (zero_le _) (by omega)).bind_eq
    rw [if_neg (by rw [nUdwordBits]; bv_omega)]
    rw [← next] at r_lt near
    have positive : 1 ≤ (cd - cn + 1).toNat := by omega
    apply (yields_inRange positive (by omega)).bind_eq
    by_cases word : cd - cn + 1 = nUdwordBits
    · rw [if_pos word]
      exact yields_ret (aligned_word word r_lt near)
    · rw [if_neg word]
      have small : (cd - cn + 1).toNat < 64 := by
        rw [nUdwordBits] at word
        bv_omega
      have within := And.intro positive small
      apply shr_bind within
      apply shl_bind (sub_within within)
      apply shr_bind within
      apply shl_bind (sub_within within)
      exact yields_ret (aligned_below within r_lt near)

/-- With `sr` above the word size, `q` takes the words of the dividend from the other side. -/
lemma aligned_above (large : 64 < sr.toNat) (bound : sr.toNat ≤ 127)
    (r_lt : n.all.toNat / 2 ^ sr.toNat < d.all.toNat)
    (near : Near n.all.toNat d.all.toNat sr.toNat) :
    Aligned n d ⟨n.high <<< (nUtwordBits - sr).toNat ||| n.low >>> (sr - nUdwordBits).toNat,
      n.low <<< (nUtwordBits - sr).toNat⟩ ⟨0, n.high >>> (sr - nUdwordBits).toNat⟩ sr := by
  have left : (nUtwordBits - sr).toNat = 128 - sr.toNat := by
    rw [nUtwordBits]
    bv_omega
  have right : (sr - nUdwordBits).toNat = 64 - (128 - sr.toNat) := by
    rw [nUdwordBits]
    bv_omega
  rw [left, right]
  refine ⟨by omega, bound, all_shiftLeft n (by omega) (by omega), ?_, r_lt, near⟩
  rw [all_shiftRight_word]
  congr 1
  omega

lemma yields_alignLow (hn : n.high ≠ 0) (hd : d.high = 0) (hlow : 2 ≤ d.low.toNat) :
    (alignLow n d).Yields (Sound a b) (Prepared n d) := by
  apply (yields_clzll (ne_zero_of_two_le hlow)).bind
  intro cd hcd
  apply (yields_clzll hn).bind
  intro cn hcn
  have notOne := leading_le hlow hcd
  have n_lt := hcn.lt
  have value := toNat_all_low hd
  dsimp only
  generalize hsr : 1 + nUdwordBits + cd - cn = sr
  have amount : sr.toNat = 65 + cd.toNat - cn.toNat := by
    rw [← hsr, nUdwordBits]
    bv_omega
  have r_lt : n.all.toNat / 2 ^ sr.toNat < d.all.toNat := by
    rw [value]
    apply div_pow_lt _ hcd.low
    apply lt_of_lt_of_eq (leading_all hcn).2
    congr 1
    omega
  have near : Near n.all.toNat d.all.toNat sr.toNat := by
    left
    omega
  apply (yields_inRange (by omega) (by omega)).bind_eq
  by_cases word : sr = nUdwordBits
  · rw [if_pos word]
    exact yields_ret (aligned_word word r_lt near)
  rw [if_neg word]
  by_cases below : sr < nUdwordBits
  · rw [if_pos below]
    have within : 0 < sr.toNat ∧ sr.toNat < 64 := ⟨by omega, BitVec.lt_def.mp below⟩
    apply (yields_inRange (by omega) (by omega)).bind_eq
    apply shl_bind (sub_within within)
    apply shr_bind within
    apply shl_bind (sub_within within)
    apply shr_bind within
    exact yields_ret (aligned_below within r_lt near)
  · rw [if_neg below]
    have large : 64 < sr.toNat := by
      bv_omega
    have left : 0 < (nUtwordBits - sr).toNat ∧ (nUtwordBits - sr).toNat < 64 := by
      rw [nUtwordBits]
      constructor <;> bv_omega
    have right : 0 < (sr - nUdwordBits).toNat ∧ (sr - nUdwordBits).toNat < 64 := by
      constructor <;> bv_omega
    apply (yields_inRange (by omega) (by omega)).bind_eq
    apply shl_bind left
    apply shl_bind left
    apply shr_bind right
    apply shr_bind right
    exact yields_ret (aligned_above large (by omega) r_lt near)

end

section
variable {a b : TuInt} {n d : Utwords}

lemma toNat_and_pred {x y : DuInt} {k : Nat} (hy : y.toNat = 2 ^ k) :
    (x &&& (y - 1)).toNat = x.toNat % 2 ^ k := by
  have positive := Nat.two_pow_pos k
  have pred : (y - 1).toNat = 2 ^ k - 1 := by
    bv_omega
  rw [BitVec.toNat_and, pred, and_two_pow_sub_one_eq_mod]

lemma toNat_setWidth_word (x : DuInt) : (x.setWidth 128 : TuInt).toNat = x.toNat := by
  rw [BitVec.toNat_setWidth]
  omega

lemma yields_powerLow (hd : d.high = 0) (hlow : d.low ≠ 0) (power : d.low &&& (d.low - 1) = 0) :
    (powerLow n d).Yields (Sound a b) (Prepared n d) := by
  have value := toNat_all_low hd
  have hk := ctz_toNat_lt hlow
  have hpow := toNat_eq_two_pow_ctz hlow power
  have stored : ((n.low &&& (d.low - 1)).setWidth 128 : TuInt).toNat =
    n.all.toNat % d.all.toNat := by
    rw [toNat_setWidth_word, toNat_and_pred hpow, value, hpow, toNat_all]
    have split : 2 ^ 64 = 2 ^ d.low.ctz.toNat * 2 ^ (64 - d.low.ctz.toNat) := by
      rw [← pow_add, Nat.add_sub_cancel' hk.le]
    rw [split, mul_left_comm, Nat.mul_add_mod]
  rw [powerLow]
  by_cases one : d.low = 1
  · rw [if_pos one]
    refine yields_ret ⟨?_, stored⟩
    rw [value, one]
    exact (Nat.div_one _).symm
  · rw [if_neg one]
    apply (yields_ctzll hlow power).bind
    rintro sr ⟨small, hsr⟩
    have positive : 1 ≤ sr.toNat := by
      by_contra zero
      have : sr.toNat = 0 := by omega
      rw [this] at hsr
      exact one (BitVec.eq_of_toNat_eq hsr)
    have within := And.intro positive small
    apply shr_bind within
    apply shl_bind (sub_within within)
    apply shr_bind within
    refine yields_ret ⟨?_, stored⟩
    rw [sub_toNat small, all_shiftRight n positive small, BitVec.toNat_ushiftRight,
      Nat.shiftRight_eq_div_pow, value, hsr]

lemma two_le_of_not_power {x : DuInt} (h : ¬ x &&& (x - 1) = 0) : 2 ≤ x.toNat := by
  by_contra small
  have cases : x.toNat = 0 ∨ x.toNat = 1 := by omega
  rcases cases with zero | one
  · rw [BitVec.eq_of_toNat_eq (y := 0) zero] at h
    exact h rfl
  · rw [BitVec.eq_of_toNat_eq (y := 1) one] at h
    exact h rfl

/-- `K K / K 0` with a power of two: the quotient comes from the high words alone. -/
lemma yields_powerHigh (hn : n.high ≠ 0) (hlow : n.low ≠ 0) (hd : d.high ≠ 0) (hdlow : d.low = 0)
    (power : d.high &&& (d.high - 1) = 0) (hna : n = .ofAll a) (hdb : d = .ofAll b) :
    (ctzll d.high >>= fun k => shr n.high k >>= fun value =>
      (pure (.returned (value.setWidth 128) (Utwords.mk (n.high &&& (d.high - 1)) n.low).all) :
        Run Event Outcome)).Yields (Sound a b) (Prepared n d) := by
  apply (yields_ctzll hd power).bind
  rintro k ⟨small, hk⟩
  have value : d.all.toNat = 2 ^ k.toNat * 2 ^ 64 := by
    rw [toNat_all, hdlow, hk]
    exact add_zero _
  have sound : Sound a b (.shift k.toNat 64) := by
    refine ⟨small, fun zero => ⟨?_, hna ▸ hn, hna ▸ hlow⟩⟩
    rw [← all_ofAll b, ← hdb, value, zero, pow_zero, one_mul]
  apply (yields_shr small sound).bind_eq
  refine yields_ret ⟨?_, ?_⟩
  · rw [toNat_setWidth_word, BitVec.toNat_ushiftRight, shiftRight_eq_div_pow, value,
      toNat_all, mul_comm (2 ^ k.toNat), ← Nat.div_div_eq_div_mul]
    congr 1
    omega
  · rw [toNat_all, toNat_and_pred hk, value, toNat_all, mul_comm (2 ^ k.toNat), mod_mul]
    have : (n.high.toNat * 2 ^ 64 + n.low.toNat) / 2 ^ 64 = n.high.toNat := by omega
    rw [this]
    dsimp only
    omega

end

variable {a b : TuInt}

lemma yields_prepare (nonzero : b ≠ 0) :
    (prepare (.ofAll a) (.ofAll b)).Yields (Sound a b) (Prepared (.ofAll a) (.ofAll b)) := by
  have some_word : (ofAll b).high ≠ 0 ∨ (ofAll b).low ≠ 0 := by
    by_contra none
    simp only [not_or, not_not] at none
    apply nonzero
    apply BitVec.eq_of_toNat_eq
    rw [← all_ofAll b, toNat_all, none.1, none.2]
    rfl
  generalize hn : ofAll a = n at *
  generalize hd : ofAll b = d at *
  rw [prepare]
  by_cases nhigh : n.high = 0
  · rw [if_pos nhigh]
    by_cases dhigh : d.high = 0
    -- 0 X / 0 X
    · have dlow : d.low ≠ 0 := some_word.resolve_left (not_not_intro dhigh)
      rw [if_pos dhigh]
      apply (yields_remainder dlow).bind_eq
      apply (yields_quot dlow).bind_eq
      refine yields_ret ⟨?_, ?_⟩
      · rw [toNat_setWidth_word, toNat_all_low nhigh, toNat_all_low dhigh, BitVec.toNat_udiv]
      · rw [toNat_setWidth_word, toNat_all_low nhigh, toNat_all_low dhigh, BitVec.toNat_umod]
    -- 0 X / K X
    · rw [if_neg dhigh]
      have positive : d.high.toNat ≠ 0 := fun h => dhigh (BitVec.eq_of_toNat_eq h)
      have less : n.all.toNat < d.all.toNat := by
        rw [toNat_all_low nhigh, toNat_all]
        omega
      refine yields_ret ⟨(Nat.div_eq_of_lt less).symm, ?_⟩
      rw [toNat_setWidth_word, Nat.mod_eq_of_lt less, toNat_all_low nhigh]
  rw [if_neg nhigh]
  by_cases dlow : d.low = 0
  · have dhigh : d.high ≠ 0 := some_word.resolve_right (not_not_intro dlow)
    rw [if_pos dlow, if_neg dhigh]
    by_cases nlow : n.low = 0
    -- K 0 / K 0
    · rw [if_pos nlow]
      apply (yields_remainder dhigh).bind_eq
      apply (yields_quot dhigh).bind_eq
      have nvalue : n.all.toNat = n.high.toNat * 2 ^ 64 := by
        rw [toNat_all, nlow]
        exact add_zero _
      have dvalue : d.all.toNat = d.high.toNat * 2 ^ 64 := by
        rw [toNat_all, dlow]
        exact add_zero _
      refine yields_ret ⟨?_, ?_⟩
      · rw [toNat_setWidth_word, BitVec.toNat_udiv, nvalue, dvalue,
          Nat.mul_div_mul_right _ _ (Nat.two_pow_pos 64)]
      · rw [toNat_all, nvalue, dvalue, Nat.mul_mod_mul_right]
        exact add_zero _
    · rw [if_neg nlow]
      by_cases power : d.high &&& (d.high - 1) = 0
      · rw [if_pos power]
        exact yields_powerHigh nhigh nlow dhigh dlow power hn.symm hd.symm
      · rw [if_neg power]
        exact yields_alignHigh nhigh (two_le_of_not_power power)
  rw [if_neg dlow]
  by_cases dhigh : d.high = 0
  · rw [if_pos dhigh]
    by_cases power : d.low &&& (d.low - 1) = 0
    · rw [if_pos power]
      exact yields_powerLow dhigh dlow power
    · rw [if_neg power]
      exact yields_alignLow nhigh dhigh (two_le_of_not_power power)
  · rw [if_neg dhigh]
    exact yields_alignBoth nhigh dhigh

/-- The routine divides, and everything it notes on the way is sound. -/
lemma yields_udivmodti4 (rem : Bool) (nonzero : b ≠ 0) :
    (udivmodti4 a b rem).Yields (Sound a b)
      (· = (a / b, if rem then some (a % b) else none)) := by
  apply (yields_prepare nonzero).bind
  rintro (⟨value, stored⟩ | ⟨q, r, sr⟩) prepared
  · obtain ⟨hvalue, hstored⟩ := prepared
    rw [all_ofAll, all_ofAll] at hvalue hstored
    exact yields_ret (results_eq rem hvalue hstored)
  · have start := prepared.progress
    have near := prepared.near
    rw [all_ofAll, all_ofAll] at start near
    apply (yields_inRange prepared.positive prepared.bound).bind_eq
    apply (yields_divideLoop nonzero prepared.bound near start).bind
    rintro ⟨carry, q, r⟩ done
    obtain ⟨hvalue, hstored⟩ := done.value a.isLt
    apply shl_bind (by decide)
    exact yields_ret (results_eq rem hvalue hstored)

end BpfUdivmodti4
