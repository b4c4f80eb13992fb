import BpfSysroot.BpfUdivmodti4

/-!
# 128-bit division of the generic runtime

`__udivmodti4` of `builtins/udivmodti4.c`. A divisor of one word is divided by
with two digits of Algorithm D in base `2 ^ 32` (`udiv128by64to64default`); a
larger one is aligned with the dividend and subtracted while it is shifted
back. The routine agrees with the one for BPF because both of them divide.
-/

namespace Udivmodti4

open Traced WideWords LongDivision
open Nat (mod_eq_of_lt mod_lt mul_one pow_add pow_zero two_pow_pos)
open BitVec (eq_of_toNat_eq lt_def toNat_add toNat_mul toNat_shiftLeft toNat_sub toNat_udiv)
open Utwords (all_ofAll ofAll toNat_all toNat_all_low)

def nUdwordBits : SuInt := 64

/-- The number base of the digits. -/
def base : DuInt := 1 <<< 32

/-- The loop that corrects a quotient digit. Its comment promises at most two iterations, and so
the model has fuel for two. -/
def correct (v1 v0 w : DuInt) : Nat → DuInt → DuInt → Run Event DuInt
  | 0, _, _ => .fault
  | fuel + 1, q, rhat =>
    if base ≤ q ∨ base * rhat + w < q * v0 then
      let q := q - 1
      let rhat := rhat + v1
      if base ≤ rhat then return q else correct v1 v0 w fuel q rhat
    else return q

/-- One digit of the quotient of `u:w` by `v`, and the dividend digits that remain. -/
def nextDigit (v v1 v0 u w : DuInt) : Run Event (DuInt × DuInt) := do
  let q ← quot u v1
  let rhat := u - q * v1
  let q ← correct v1 v0 w 2 q rhat
  return (q, u * base + w - q * v)

/-- Shifts divisor and dividend until the divisor has its top bit set. -/
def normalize (u1 u0 v : DuInt) (s : SuInt) : Run Event (DuInt × Utwords) := do
  if 0 < s.toInt then
    let v ← shl v s
    let un64 := (← shl u1 s) ||| (← shr u0 (nUdwordBits - s))
    let un10 ← shl u0 s
    return (v, ⟨un64, un10⟩)
  else
    return (v, ⟨u1, u0⟩)

def udiv128by64to64default (u1 u0 v : DuInt) : Run Event (DuInt × DuInt) := do
  let s ← clzll v
  let (v, un) ← normalize u1 u0 v s
  let vn1 ← shr v (nUdwordBits / 2)
  let vn0 := v &&& 0xFFFFFFFF
  let un1 ← shr un.low (nUdwordBits / 2)
  let un0 := un.low &&& 0xFFFFFFFF
  let (q1, un21) ← nextDigit v vn1 vn0 un.high un1
  let (q0, rest) ← nextDigit v vn1 vn0 un21 un0
  let r ← shr rest s
  return (q1 * base + q0, r)

/-- The loop body of the shift-subtract division: quotient, dividend and divisor. -/
def subtractStep (quotient : DuInt) (dividend divisor : TuInt) :
    Run Event (DuInt × TuInt × TuInt) := do
  let quotient ← shl quotient 1
  let s ← mask dividend divisor
  let quotient := quotient ||| (s &&& 1).setWidth 64
  let dividend := dividend - (divisor &&& s)
  let divisor ← shr divisor 1
  return (quotient, dividend, divisor)

/-- `for (; shift >= 0; --shift)`, which makes one round more than `shift`. -/
def subtractLoop : Nat → DuInt → TuInt → TuInt → Run Event (DuInt × TuInt)
  | 0, quotient, dividend, _ => return (quotient, dividend)
  | rounds + 1, quotient, dividend, divisor => do
    let (quotient, dividend, divisor) ← subtractStep quotient dividend divisor
    subtractLoop rounds quotient dividend divisor

/-- Returns the quotient and what is stored at `rem`, if that is not the null pointer. -/
def udivmodti4 (a b : TuInt) (rem : Bool) : Run Event (TuInt × Option TuInt) := do
  let store := fun x => if rem then some x else none
  let dividend := ofAll a
  let divisor := ofAll b
  if dividend.all < divisor.all then
    return (0, store dividend.all)
  else if divisor.high = 0 then
    if dividend.high < divisor.low then
      let (low, r) ← udiv128by64to64default dividend.high dividend.low divisor.low
      return ((Utwords.mk 0 low).all, store (Utwords.mk 0 r).all)
    else
      let high ← quot dividend.high divisor.low
      let dividendHigh ← remainder dividend.high divisor.low
      let (low, r) ← udiv128by64to64default dividendHigh dividend.low divisor.low
      return ((Utwords.mk high low).all, store (Utwords.mk 0 r).all)
  else
    let shift := (← clzll divisor.high) - (← clzll dividend.high)
    let divisor ← shl divisor.all shift
    let (low, dividend) ← subtractLoop (shift.toNat + 1) 0 dividend.all divisor
    return ((Utwords.mk 0 low).all, store dividend)

/-- No condition on what is noted: an undefined shift or division would not return at all. -/
def Unrestricted (_ : Event) : Prop := True

section
variable {v v1 v0 u w : DuInt}

/-- A normalized divisor, its two digits, a dividend part below it and the next digit. -/
structure Ready (v v1 v0 u w : DuInt) : Prop where
  digits : v.toNat = v1.toNat * 2 ^ 32 + v0.toNat
  high : 2 ^ 31 ≤ v1.toNat
  low : v0.toNat < 2 ^ 32
  below : u.toNat < v.toNat
  next : w.toNat < 2 ^ 32

lemma toNat_base : base.toNat = 2 ^ 32 := rfl

namespace Ready

/-- The digit that is looked for. -/
def goal (_ : Ready v v1 v0 u w) : Nat := digit (2 ^ 32) v1.toNat v0.toNat u.toNat w.toNat

variable (ready : Ready v v1 v0 u w)
include ready

lemma high_lt : v1.toNat < 2 ^ 32 := by
  have := ready.digits
  omega

lemma below_digits : u.toNat < v1.toNat * 2 ^ 32 + v0.toNat := ready.digits ▸ ready.below

/-- The loop's test finds out whether the digit is too large. -/
lemma test_iff {q rhat : DuInt} (estimate : u.toNat = q.toNat * v1.toNat + rhat.toNat)
    (small : rhat.toNat < 2 ^ 32) :
    (base ≤ q ∨ base * rhat + w < q * v0) ↔ ready.goal < q.toNat := by
  have hlow := ready.low
  have hw := ready.next
  have positive : 0 < v1.toNat * 2 ^ 32 + v0.toNat := by
    have := ready.high
    omega
  have bounded : ready.goal < 2 ^ 32 := digit_lt ready.below_digits hw
  rw [lt_def, toNat_add, toNat_mul, toNat_mul, toNat_base]
  by_cases large : 2 ^ 32 ≤ q.toNat
  · exact iff_of_true (.inl large) (by omega)
  · have product : q.toNat * v0.toNat < 2 ^ 32 * 2 ^ 32 :=
      Nat.mul_lt_mul'' (Nat.lt_of_not_le large) hlow
    rw [goal, digit_lt_iff positive estimate,
      mod_eq_of_lt (show q.toNat * v0.toNat < 2 ^ 64 by omega)]
    have : (2 ^ 32 * rhat.toNat % 2 ^ 64 + w.toNat) % 2 ^ 64 = 2 ^ 32 * rhat.toNat + w.toNat := by
      omega
    rw [this]
    exact ⟨fun h => h.resolve_left large, .inr⟩

/-- The loop ends with the right digit. Each iteration adds at least half a digit to `rhat`, and
it stops when `rhat` is a whole one. -/
lemma yields_correct {fuel : Nat} {q rhat : DuInt}
    (estimate : u.toNat = q.toNat * v1.toNat + rhat.toNat) (small : rhat.toNat < 2 ^ 32)
    (enough : 2 ^ 32 ≤ rhat.toNat + fuel * 2 ^ 31) (le : ready.goal ≤ q.toNat) :
    (correct v1 v0 w fuel q rhat).Yields Unrestricted (fun q => q.toNat = ready.goal) := by
  induction fuel generalizing q rhat with
  | zero => omega
  | succ fuel ih =>
    have high := ready.high
    have high_lt := ready.high_lt
    rw [correct]
    by_cases test : base ≤ q ∨ base * rhat + w < q * v0
    · have larger := (ready.test_iff estimate small).mp test
      have hq : (q - 1).toNat = q.toNat - 1 := by bv_omega
      have hrhat : (rhat + v1).toNat = rhat.toNat + v1.toNat := by bv_omega
      have estimate' : u.toNat = (q - 1).toNat * v1.toNat + (rhat + v1).toNat := by
        rw [hq, Nat.sub_mul]
        have : 1 * v1.toNat ≤ q.toNat * v1.toNat := Nat.mul_le_mul_right _ (by omega)
        omega
      rw [if_pos test]
      by_cases stop : base ≤ rhat + v1
      · rw [if_pos stop]
        have not_larger : (q - 1).toNat ≤ ready.goal :=
          estimate_le_digit ready.low ready.below_digits estimate' stop
        exact Run.yields_ret (by omega)
      · rw [if_neg stop]
        rw [BitVec.le_def, toNat_base] at stop
        exact ih estimate' (by omega) (by omega) (by omega)
    · rw [if_neg test]
      have := mt (ready.test_iff estimate small).mpr test
      exact Run.yields_ret (by omega)

lemma yields_nextDigit :
    (nextDigit v v1 v0 u w).Yields Unrestricted (fun s => s.1.toNat = ready.goal ∧
      s.2.toNat = rest (2 ^ 32) v1.toNat v0.toNat u.toNat w.toNat) := by
  have high := ready.high
  have nonzero : v1 ≠ 0 := by
    rintro rfl
    exact absurd high (by decide)
  have remains : (u - u / v1 * v1).toNat = u.toNat % v1.toNat := by
    have sum := Nat.div_add_mod' u.toNat v1.toNat
    rw [toNat_sub, toNat_mul, toNat_udiv]
    omega
  have estimate : u.toNat = (u / v1).toNat * v1.toNat + (u - u / v1 * v1).toNat := by
    rw [remains, toNat_udiv, Nat.div_add_mod']
  have small : (u - u / v1 * v1).toNat < 2 ^ 32 := by
    rw [remains]
    exact (mod_lt _ (by omega)).trans ready.high_lt
  have le : ready.goal ≤ (u / v1).toNat := by
    exact digit_le_estimate (by omega) ready.next
  apply (yields_quot nonzero).bind_eq
  apply (ready.yields_correct estimate small (by omega) le).bind
  intro q hq
  refine Run.yields_ret ⟨hq, ?_⟩
  have split := digit_mul_add_rest (2 ^ 32) v1.toNat v0.toNat u.toNat w.toNat
  have bound := rest_lt (u := u.toNat) (w := w.toNat)
    (show 0 < v1.toNat * 2 ^ 32 + v0.toNat by omega)
  rw [goal] at hq
  rw [← hq, ← ready.digits] at split
  rw [← ready.digits] at bound
  rw [toNat_sub, toNat_add, toNat_mul, toNat_mul, toNat_base]
  omega

end Ready
end

section
variable {u1 u0 v : DuInt}

lemma yields_normalize {s : SuInt} (hs : s.toNat < 64)
    (small : v.toNat < 2 ^ (64 - s.toNat)) (below : u1.toNat < v.toNat) :
    (normalize u1 u0 v s).Yields Unrestricted (fun t =>
      t.1.toNat = v.toNat * 2 ^ s.toNat ∧
        t.2.all.toNat = (Utwords.mk u1 u0).all.toNat * 2 ^ s.toNat) := by
  have signed : s.toInt = s.toNat := by
    rw [BitVec.toInt_eq_toNat_cond, if_pos (by omega)]
  rw [normalize]
  by_cases positive : 0 < s.toInt
  · rw [if_pos positive]
    have rest : (nUdwordBits - s).toNat = 64 - s.toNat := BpfUdivmodti4.sub_toNat hs
    apply (yields_shl hs trivial).bind_eq
    apply (yields_shl hs trivial).bind_eq
    apply (yields_shr (by omega) trivial).bind_eq
    apply (yields_shl hs trivial).bind_eq
    refine Run.yields_ret ⟨?_, ?_⟩
    · rw [toNat_shiftLeft, Nat.shiftLeft_eq]
      apply mod_eq_of_lt
      calc v.toNat * 2 ^ s.toNat < 2 ^ (64 - s.toNat) * 2 ^ s.toNat :=
            Nat.mul_lt_mul_of_pos_right small (two_pow_pos _)
        _ = 2 ^ 64 := by rw [← pow_add, Nat.sub_add_cancel hs.le]
    · have shifted := all_shiftLeft ⟨u1, u0⟩ (by omega) hs
      rw [rest]
      rw [shifted, toNat_shiftLeft, Nat.shiftLeft_eq]
      apply mod_eq_of_lt
      calc (Utwords.mk u1 u0).all.toNat * 2 ^ s.toNat
          < v.toNat * 2 ^ 64 * 2 ^ s.toNat := by
            apply Nat.mul_lt_mul_of_pos_right _ (two_pow_pos _)
            rw [toNat_all]
            dsimp only
            omega
        _ ≤ 2 ^ (64 - s.toNat) * 2 ^ 64 * 2 ^ s.toNat := by gcongr
        _ = 2 ^ 128 := by
            rw [← pow_add, ← pow_add]
            congr 1
            omega
  · rw [if_neg positive]
    have zero : s.toNat = 0 := by omega
    refine Run.yields_ret ⟨?_, ?_⟩
    · rw [zero, pow_zero, mul_one]
    · rw [zero, pow_zero, mul_one]

lemma toNat_high_digit (x : DuInt) : (x >>> 32).toNat = x.toNat / 2 ^ 32 := by
  rw [BitVec.toNat_ushiftRight, Nat.shiftRight_eq_div_pow]

lemma toNat_low_digit (x : DuInt) : (x &&& 0xFFFFFFFF).toNat = x.toNat % 2 ^ 32 := by
  rw [← Nat.and_two_pow_sub_one_eq_mod]
  rfl

/-- The quotient fits into a word because the high word of the dividend is below the divisor. -/
lemma yields_udiv128by64to64default (below : u1.toNat < v.toNat) :
    (udiv128by64to64default u1 u0 v).Yields Unrestricted (fun t =>
      t.1.toNat = (Utwords.mk u1 u0).all.toNat / v.toNat ∧
        t.2.toNat = (Utwords.mk u1 u0).all.toNat % v.toNat) := by
  have nonzero : v ≠ 0 := by
    rintro rfl
    exact absurd below (Nat.not_lt_zero _)
  apply (yields_clzll nonzero).bind
  rintro s ⟨hs, large, small⟩
  apply (yields_normalize hs small below).bind
  rintro ⟨v', un⟩ ⟨hv, hun⟩
  dsimp only at hv hun ⊢
  have top : 2 ^ 63 ≤ v'.toNat := by
    calc 2 ^ 63 = 2 ^ (63 - s.toNat) * 2 ^ s.toNat := by
          rw [← pow_add, Nat.sub_add_cancel (by omega)]
      _ ≤ v'.toNat := by
          rw [hv]
          exact Nat.mul_le_mul_right _ large
  have smaller : un.high.toNat < v'.toNat := by
    have : un.all.toNat < v'.toNat * 2 ^ 64 := by
      rw [hun, hv, mul_right_comm]
      apply Nat.mul_lt_mul_of_pos_right _ (two_pow_pos _)
      rw [toNat_all]
      dsimp only
      omega
    rw [toNat_all] at this
    omega
  apply (yields_shr (by decide) trivial).bind_eq
  apply (yields_shr (by decide) trivial).bind_eq
  have first : Ready v' (v' >>> 32) (v' &&& 0xFFFFFFFF) un.high (un.low >>> 32) :=
    { digits := by
        rw [toNat_high_digit, toNat_low_digit]
        omega
      high := by
        rw [toNat_high_digit]
        omega
      low := by
        rw [toNat_low_digit]
        omega
      below := smaller
      next := by
        rw [toNat_high_digit]
        omega }
  apply first.yields_nextDigit.bind
  rintro ⟨q1, un21⟩ ⟨hq1, hun21⟩
  dsimp only at hq1 hun21 ⊢
  have positive : 0 < (v' >>> 32).toNat * 2 ^ 32 + (v' &&& 0xFFFFFFFF).toNat := by
    rw [← first.digits]
    omega
  have second : Ready v' (v' >>> 32) (v' &&& 0xFFFFFFFF) un21 (un.low &&& 0xFFFFFFFF) :=
    { first with
      below := by
        rw [hun21, first.digits]
        exact rest_lt positive
      next := by
        rw [toNat_low_digit]
        omega }
  apply second.yields_nextDigit.bind
  rintro ⟨q0, remains⟩ ⟨hq0, hremains⟩
  have both := two_digits (u := un.high.toNat) (w := (un.low >>> 32).toNat)
    (x := (un.low &&& 0xFFFFFFFF).toNat) positive
  have dividend : un.high.toNat * 2 ^ 32 * 2 ^ 32 + (un.low >>> 32).toNat * 2 ^ 32 +
      (un.low &&& 0xFFFFFFFF).toNat = un.all.toNat := by
    rw [toNat_high_digit, toNat_low_digit, toNat_all]
    omega
  rw [Ready.goal] at hq1 hq0
  rw [← hun21, ← hremains, dividend, hun, ← first.digits, hv, divMod,
    Prod.mk.injEq, Nat.mul_div_mul_right _ _ (two_pow_pos _), Nat.mul_mod_mul_right] at both
  have fits : (Utwords.mk u1 u0).all.toNat / v.toNat < 2 ^ 64 := by
    apply Nat.div_lt_of_lt_mul
    rw [toNat_all]
    dsimp only
    omega
  apply (yields_shr hs trivial).bind_eq
  refine Run.yields_ret ⟨?_, ?_⟩
  · rw [toNat_add, toNat_mul, toNat_base]
    omega
  · rw [BitVec.toNat_ushiftRight, Nat.shiftRight_eq_div_pow, ← both.2,
      Nat.mul_div_cancel _ (two_pow_pos _)]

end

section
variable {n d k : Nat} {quotient : DuInt} {dividend divisor : TuInt}

/-- With `k` rounds to go the divisor stands at the place of the next quotient bit. -/
structure Reduced (n d k : Nat) (quotient : DuInt) (dividend divisor : TuInt) : Prop where
  divisor : k ≠ 0 → divisor.toNat = d * 2 ^ (k - 1)
  quotient : quotient.toNat = n / (d * 2 ^ k)
  dividend : dividend.toNat = n % (d * 2 ^ k)

/-- Either the shifted divisor leaves the top bit free, or dividend and divisor both have it. -/
lemma yields_subtractStep (hd : 2 ^ 64 ≤ d) (hn : n < 2 ^ 128)
    (before : Reduced n d (k + 1) quotient dividend divisor)
    (near : divisor.toNat < 2 ^ 127 ∨ 2 ^ 127 ≤ dividend.toNat) :
    (subtractStep quotient dividend divisor).Yields Unrestricted
      (fun t => Reduced n d k t.1 t.2.1 t.2.2 ∧ t.2.2.toNat < 2 ^ 127) := by
  obtain ⟨hdivisor, hquotient, hdividend⟩ := before
  have hdivisor : divisor.toNat = d * 2 ^ k := hdivisor (Nat.succ_ne_zero k)
  have positive : 0 < d * 2 ^ k := mul_pos (by omega) (two_pow_pos k)
  have twice : d * 2 ^ (k + 1) = 2 * (d * 2 ^ k) := by ring
  have half := halve n positive
  rw [← twice, ← hdividend, ← hdivisor] at half
  have bound : dividend.toNat < 2 * divisor.toNat := by
    rw [hdividend, twice, hdivisor]
    exact mod_lt _ (by omega)
  have fits : n / divisor.toNat < 2 ^ 64 := by
    apply Nat.div_lt_of_lt_mul
    have : d * 1 ≤ d * 2 ^ k := Nat.mul_le_mul_left d Nat.one_le_two_pow
    omega
  apply (yields_shl (by decide) trivial).bind_eq
  apply (yields_mask (by omega) (by omega) trivial trivial).bind_eq
  apply (yields_shr (by decide) trivial).bind_eq
  have shifted : (divisor >>> (1 : SuInt).toNat).toNat = divisor.toNat / 2 := by
    rfl
  have bit := toNat_mask_and_one (w := 64) dividend divisor (by decide)
  refine Run.yields_ret ⟨⟨?_, ?_, ?_⟩, ?_⟩
  · intro more
    obtain ⟨j, rfl⟩ := Nat.exists_eq_succ_of_ne_zero more
    rw [shifted, hdivisor, pow_succ, ← mul_assoc, Nat.mul_div_cancel _ (by decide)]
    rfl
  · apply (toNat_shiftLeft_one_or (by split <;> decide)).trans
    rw [← hdivisor, half.1]
    split at half <;> omega
  · apply (toNat_sub_mask dividend divisor).trans
    rw [← hdivisor, half.2]
  · dsimp only
    omega

/-- The rounds that remain complete the division. -/
lemma yields_subtractLoop (hd : 2 ^ 64 ≤ d) (hn : n < 2 ^ 128)
    (before : Reduced n d k quotient dividend divisor)
    (near : divisor.toNat < 2 ^ 127 ∨ 2 ^ 127 ≤ dividend.toNat) :
    (subtractLoop k quotient dividend divisor).Yields Unrestricted
      (fun t => t.1.toNat = n / d ∧ t.2.toNat = n % d) := by
  induction k generalizing quotient dividend divisor with
  | zero =>
    have hquotient := before.quotient
    have hdividend := before.dividend
    rw [pow_zero, mul_one] at hquotient hdividend
    exact Run.yields_ret ⟨hquotient, hdividend⟩
  | succ k ih =>
    apply (yields_subtractStep hd hn before near).bind
    rintro ⟨quotient, dividend, divisor⟩ ⟨after, small⟩
    exact ih after (.inl small)

end

section
variable {a b : TuInt}

/-- A divisor of several words: both leading ones stand in the high words, `shift` apart. -/
lemma leading_reduced {n d : Utwords} {cd cn : SuInt} (hd : Leading d.high cd)
    (hn : Leading n.high cn) (le : d.all.toNat ≤ n.all.toNat) :
    (cd - cn).toNat < 64 ∧
      Reduced n.all.toNat d.all.toNat ((cd - cn).toNat + 1) 0 n.all
        (d.all <<< (cd - cn).toNat) ∧
      ((d.all <<< (cd - cn).toNat).toNat < 2 ^ 127 ∨ 2 ^ 127 ≤ n.all.toNat) := by
  obtain ⟨dl, dh⟩ := BpfUdivmodti4.leading_all hd
  obtain ⟨nl, nh⟩ := BpfUdivmodti4.leading_all hn
  have d_lt := hd.lt
  have order : cn.toNat ≤ cd.toNat := by
    by_contra larger
    have : 2 ^ (128 - cn.toNat) ≤ 2 ^ (127 - cd.toNat) :=
      Nat.pow_le_pow_right (by decide) (by omega)
    omega
  have diff : (cd - cn).toNat = cd.toNat - cn.toNat := by bv_omega
  have aligned : d.all.toNat * 2 ^ (cd - cn).toNat < 2 ^ (128 - cn.toNat) := by
    calc d.all.toNat * 2 ^ (cd - cn).toNat < 2 ^ (128 - cd.toNat) * 2 ^ (cd - cn).toNat :=
          Nat.mul_lt_mul_of_pos_right dh (two_pow_pos _)
      _ = 2 ^ (128 - cn.toNat) := by
          rw [← pow_add]
          congr 1
          omega
  have covers : n.all.toNat < d.all.toNat * 2 ^ ((cd - cn).toNat + 1) := by
    calc n.all.toNat < 2 ^ (128 - cn.toNat) := nh
      _ = 2 ^ (127 - cd.toNat) * 2 ^ ((cd - cn).toNat + 1) := by
          rw [← pow_add]
          congr 1
          omega
      _ ≤ d.all.toNat * 2 ^ ((cd - cn).toNat + 1) := Nat.mul_le_mul_right _ dl
  have whole : 2 ^ (128 - cn.toNat) ≤ 2 ^ 128 := Nat.pow_le_pow_right (by decide) (by omega)
  have shifted : (d.all <<< (cd - cn).toNat).toNat = d.all.toNat * 2 ^ (cd - cn).toNat := by
    rw [toNat_shiftLeft, Nat.shiftLeft_eq, mod_eq_of_lt (by omega)]
  refine ⟨by omega, ⟨fun _ => shifted, ?_, ?_⟩, ?_⟩
  · rw [Nat.div_eq_of_lt covers]
    rfl
  · rw [mod_eq_of_lt covers]
  · by_cases top : cn.toNat = 0
    · right
      rwa [top] at nl
    · left
      rw [shifted]
      apply lt_of_lt_of_le aligned
      exact Nat.pow_le_pow_right (by decide) (by omega)

lemma yields_udivmodti4 (rem : Bool) (nonzero : b ≠ 0) :
    (udivmodti4 a b rem).Yields Unrestricted
      (· = (a / b, if rem then some (a % b) else none)) := by
  have hn := all_ofAll a
  have hd := all_ofAll b
  rw [udivmodti4]
  rw [hn, hd]
  by_cases less : a < b
  · rw [if_pos less]
    have less' : a.toNat < b.toNat := lt_def.mp less
    exact Run.yields_ret (results_eq rem (Nat.div_eq_of_lt less').symm (mod_eq_of_lt less').symm)
  rw [if_neg less]
  have le : b.toNat ≤ a.toNat := Nat.le_of_not_lt fun h => less (lt_def.mpr h)
  generalize ofAll a = n at hn
  generalize ofAll b = d at hd
  subst hn hd
  by_cases word : d.high = 0
  · rw [if_pos word]
    have hd := toNat_all_low word
    have low_pos : 0 < d.low.toNat := by
      rw [← hd]
      exact pos_of_ne_zero fun h => nonzero (eq_of_toNat_eq h)
    by_cases fits : n.high < d.low
    · rw [if_pos fits]
      apply (yields_udiv128by64to64default (lt_def.mp fits)).bind
      rintro ⟨low, r⟩ ⟨hlow, hr⟩
      apply Run.yields_ret
      apply results_eq
      · rw [toNat_all_low rfl, hd]
        exact hlow
      · rw [toNat_all_low rfl, hd]
        exact hr
    · rw [if_neg fits]
      have low_ne : d.low ≠ 0 := fun h => by
        rw [h] at low_pos
        exact absurd low_pos (by decide)
      apply (yields_quot low_ne).bind_eq
      apply (yields_remainder low_ne).bind_eq
      apply (yields_udiv128by64to64default _).bind
      · rintro ⟨low, r⟩ ⟨hlow, hr⟩
        have leading := divide_leading (2 ^ 64) n.high.toNat n.low.toNat low_pos
        rw [← BitVec.toNat_umod, ← toNat_all n, ← hd] at leading
        rw [toNat_all, ← hd] at hlow hr
        apply Run.yields_ret
        apply results_eq
        · rw [toNat_all, leading.1, ← hlow, toNat_udiv, hd]
        · rw [toNat_all_low rfl, leading.2]
          exact hr
      · exact mod_lt _ low_pos
  · rw [if_neg word]
    have positive : d.high.toNat ≠ 0 := fun h => word (eq_of_toNat_eq h)
    have dvalue := toNat_all d
    have nvalue := toNat_all n
    have high : n.high ≠ 0 := by
      intro h
      rw [h] at nvalue
      simp only [BitVec.ofNat_eq_ofNat, BitVec.toNat_ofNat, Nat.zero_mod, zero_mul] at nvalue
      omega
    apply (yields_clzll word).bind
    intro cd hcd
    apply (yields_clzll high).bind
    intro cn hcn
    obtain ⟨small, start, near⟩ := leading_reduced hcd hcn le
    apply (yields_shl (by omega) trivial).bind_eq
    apply (yields_subtractLoop (by omega) n.all.isLt start near).bind
    rintro ⟨low, dividend⟩ ⟨hlow, hdividend⟩
    apply Run.yields_ret
    apply results_eq
    · rw [toNat_all_low rfl]
      exact hlow
    · exact hdividend

end

/-- Dividing by `2 ^ 64` a dividend with two nonzero words is a shift by zero. -/
lemma shiftsByZero_events {a b : TuInt} (rem : Bool) (h : BpfUdivmodti4.ShiftsByZero a b) :
    ∃ result, BpfUdivmodti4.udivmodti4 a b rem = .ok result [.shift 0 64] := by
  obtain ⟨hb, high, low⟩ := h
  obtain rfl : b = BitVec.ofNat 128 (2 ^ 64) := eq_of_toNat_eq (hb.trans (by decide))
  have words : ofAll (BitVec.ofNat 128 (2 ^ 64)) = ⟨1, 0⟩ := by decide
  rw [BpfUdivmodti4.udivmodti4, words, BpfUdivmodti4.prepare, if_neg high, if_neg low]
  have zeros : ctzll 1 = (Run.ret 0 : Run Event SuInt) := by
    exact congrArg Run.ret (by decide +kernel)
  rw [zeros]
  exact ⟨_, rfl⟩

/-- The BPF routine divides. Its shift amounts are below the width of what they shift, and one is
zero exactly in the case `ShiftsByZero`; `sr` keeps to the ranges of the comments, and every
comparison in the loop selects the subtraction exactly if `d ≤ r`. The generic routine returns and
stores the same. -/
theorem bpf_divides_and_agrees (a b : TuInt) (rem : Bool) (nonzero : b ≠ 0) :
    ∃ events, BpfUdivmodti4.udivmodti4 a b rem =
        .ok (a / b, if rem then some (a % b) else none) events ∧
      (∀ amount width, Event.shift amount width ∈ events → amount < width) ∧
      ((∃ width, Event.shift 0 width ∈ events) ↔ BpfUdivmodti4.ShiftsByZero a b) ∧
      (∀ lowest highest orLarge sr, Event.range lowest highest orLarge sr ∈ events →
        lowest ≤ sr.toNat ∧ sr.toNat ≤ highest ∨ orLarge ∧ 2 ^ 32 - 64 < sr.toNat) ∧
      (∀ r d s, Event.select r d s ∈ events → s = if d ≤ r then BitVec.allOnes 128 else 0) ∧
      ∃ events', udivmodti4 a b rem =
        .ok (a / b, if rem then some (a % b) else none) events' := by
  obtain ⟨_, events, run, sound, rfl⟩ := BpfUdivmodti4.yields_udivmodti4 rem nonzero
  obtain ⟨_, events', run', -, rfl⟩ := yields_udivmodti4 rem nonzero
  refine ⟨events, run, ?_, ?_, ?_, ?_, events', run'⟩
  · intro amount width noted
    exact (sound _ noted).1
  · constructor
    · rintro ⟨width, noted⟩
      exact (sound _ noted).2 rfl
    · intro zero
      obtain ⟨result, direct⟩ := shiftsByZero_events rem zero
      rw [(Run.ok.inj (run.symm.trans direct)).2]
      exact ⟨64, List.mem_singleton_self _⟩
  · intro lowest highest orLarge sr noted
    exact sound _ noted
  · intro r d s noted
    exact sound _ noted

/-- The largest dividend and a divisor that needs the loop. -/
theorem bpf_divides_and_agrees_max :
    (10 : TuInt) ≠ 0 ∧ ∃ events, BpfUdivmodti4.udivmodti4 (BitVec.allOnes 128) 10 true =
      .ok (34028236692093846346337460743176821145, some 5) events := by
  obtain ⟨events, run, -⟩ := bpf_divides_and_agrees (BitVec.allOnes 128) 10 true (by decide)
  exact ⟨by decide, events, run⟩

/-- A shift by zero: the divisor is `2 ^ 64` and both words of the dividend are one. -/
theorem bpf_shifts_by_zero :
    (0x10000000000000000 : TuInt) ≠ 0 ∧
      BpfUdivmodti4.udivmodti4 0x10000000000000001 0x10000000000000000 true =
        .ok (1, some 1) [.shift 0 64] := by
  decide +kernel

end Udivmodti4
