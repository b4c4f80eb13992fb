import BpfSysroot.Bignum

/-!
# What the bignum operations compute

The value of a list of digits is its number in the radix `2 ^ 32`. Each loop of the
bignum keeps an equation between the values of what it has read and what it has written
and the carry; the operations on whole bignums follow from these.
-/

namespace Bignum

open Option (bind_eq_bind bind_eq_some_iff pure_def bind_some)
open UInt32 (lt_iff_toNat_lt toNat_toUInt64 toNat_zero)
open Nat (add_mul mod_lt mul_zero pow_zero zero_add zero_le)

open List (length_cons mem_of_mem_drop length_append length_replicate getElem?_set_ne append_assoc
  getElem?_append_left getElem?_append_right getElem?_replicate)

def radix : Nat := 2 ^ 32

/-- The number that digits stand for, the first with the least weight. -/
def value (ds : List UInt32) : Nat := Nat.ofDigits radix (ds.map UInt32.toNat)

section
variable {ds es : List UInt32}

lemma toNat_lt_radix (d : UInt32) : d.toNat < radix := d.toNat_lt

lemma value_nil : value [] = 0 := rfl

lemma value_cons (d : UInt32) (ds : List UInt32) :
    value (d :: ds) = d.toNat + radix * value ds := Nat.ofDigits_cons

lemma value_append (ds es : List UInt32) :
    value (ds ++ es) = value ds + radix ^ ds.length * value es := by
  rw [value, List.map_append, Nat.ofDigits_append, List.length_map]
  rfl

lemma value_replicate (k : Nat) : value (List.replicate k 0) = 0 := by
  rw [value, List.map_replicate]
  exact Nat.ofDigits_replicate_zero

lemma value_append_zeros (k : Nat) : value (ds ++ List.replicate k 0) = value ds := by
  rw [value_append, value_replicate, mul_zero, add_zero]

lemma one_lt_radix : 1 < radix := by decide

lemma value_lt (ds : List UInt32) : value ds < radix ^ ds.length := by
  have bound := Nat.ofDigits_lt_base_pow_length one_lt_radix
    (l := ds.map UInt32.toNat) fun x member => by
      obtain ⟨d, -, rfl⟩ := List.mem_map.mp member
      exact toNat_lt_radix d
  rwa [List.length_map] at bound

end

section
variable (a b c carry : UInt32)

lemma addWithOverflow_eq :
    (addWithOverflow a b).1.toNat + radix * (addWithOverflow a b).2.toNat = a.toNat + b.toNat := by
  have low := toNat_lt_radix a
  have high := toNat_lt_radix b
  simp only [addWithOverflow, UInt32.toNat_add]
  by_cases overflow : 2 ^ 32 ≤ a.toNat + b.toNat
  · rw [decide_eq_true overflow, Bool.toNat_true]
    simp only [radix] at *
    omega
  · rw [decide_eq_false overflow, Bool.toNat_false]
    omega

lemma fullAdd_eq (carry : Bool) :
    (fullAdd a b carry).2.toNat + radix * (fullAdd a b carry).1.toNat =
      a.toNat + b.toNat + carry.toNat := by
  have first := addWithOverflow_eq a b
  have second := addWithOverflow_eq (addWithOverflow a b).1 (if carry then 1 else 0)
  have one : (if carry then 1 else 0 : UInt32).toNat = carry.toNat := by cases carry <;> rfl
  have bound : a.toNat + b.toNat + carry.toNat < 2 * radix := by
    have := toNat_lt_radix a
    have := toNat_lt_radix b
    have := carry.toNat_le
    omega
  rw [one] at second
  simp only [fullAdd]
  -- both additions cannot overflow, as the sum is below twice the radix
  have either : ((addWithOverflow a b).2 ||
      (addWithOverflow (addWithOverflow a b).1 (if carry then 1 else 0)).2).toNat =
        (addWithOverflow a b).2.toNat +
          (addWithOverflow (addWithOverflow a b).1 (if carry then 1 else 0)).2.toNat := by
    generalize (addWithOverflow (addWithOverflow a b).1 (if carry then 1 else 0)) = p at *
    generalize addWithOverflow a b = q at *
    obtain ⟨v, _ | _⟩ := p <;> obtain ⟨w, _ | _⟩ := q <;> simp at *
    omega
  rw [either, mul_add]
  omega

lemma fullMulAdd_eq :
    (fullMulAdd a b c carry).2.toNat + radix * (fullMulAdd a b c carry).1.toNat =
      a.toNat * b.toNat + c.toNat + carry.toNat := by
  have product : a.toNat * b.toNat ≤ (radix - 1) * (radix - 1) :=
    Nat.mul_le_mul (Nat.le_pred_of_lt (toNat_lt_radix a)) (Nat.le_pred_of_lt (toNat_lt_radix b))
  have smallC := toNat_lt_radix c
  have small := toNat_lt_radix carry
  have exact : (a.toUInt64 * b.toUInt64 + c.toUInt64 + carry.toUInt64).toNat =
      a.toNat * b.toNat + c.toNat + carry.toNat := by
    simp only [UInt64.toNat_add, UInt64.toNat_mul, toNat_toUInt64]
    simp only [radix] at *
    omega
  have shift : (32 : UInt64).toNat % 64 = 32 := by decide
  simp only [fullMulAdd, UInt64.toNat_toUInt32, UInt64.toNat_shiftRight, exact,
    Nat.shiftRight_eq_div_pow, shift]
  simp only [radix] at *
  omega

lemma fullMul_eq :
    (fullMul a b carry).2.toNat + radix * (fullMul a b carry).1.toNat =
      a.toNat * b.toNat + carry.toNat := by
  have same : fullMul a b carry = fullMulAdd a b 0 carry := by
    have zero : (0 : UInt32).toUInt64 = 0 := rfl
    simp only [fullMul, fullMulAdd, zero, UInt64.add_zero]
  rw [same]
  exact fullMulAdd_eq a b 0 carry

lemma fullDivRem_eq {a other borrow : UInt32} (small : borrow.toNat < other.toNat) :
    (fullDivRem a other borrow).1.toNat * other.toNat + (fullDivRem a other borrow).2.toNat =
        borrow.toNat * radix + a.toNat ∧
      (fullDivRem a other borrow).2.toNat < other.toNat := by
  have below := toNat_lt_radix a
  have bound := toNat_lt_radix other
  have lhs : (borrow.toUInt64 <<< 32 ||| a.toUInt64).toNat = borrow.toNat * radix + a.toNat := by
    have shift : (32 : UInt64).toNat % 64 = 32 := by decide
    have join := Nat.two_pow_add_eq_or_of_lt below borrow.toNat
    rw [UInt64.toNat_or, UInt64.toNat_shiftLeft, shift, toNat_toUInt64,
      toNat_toUInt64, Nat.shiftLeft_eq, Nat.mod_eq_of_lt, mul_comm, ← join, radix,
      mul_comm]
    simp only [radix] at *
    omega
  have quotient : (borrow.toNat * radix + a.toNat) / other.toNat < radix := by
    rw [Nat.div_lt_iff_lt_mul (by omega)]
    calc borrow.toNat * radix + a.toNat < (borrow.toNat + 1) * radix := by
          rw [add_mul]
          omega
      _ ≤ other.toNat * radix := Nat.mul_le_mul_right _ small
      _ = radix * other.toNat := mul_comm _ _
  have remainder : (borrow.toNat * radix + a.toNat) % other.toNat < other.toNat :=
    mod_lt _ (by omega)
  simp only [fullDivRem, UInt64.toNat_toUInt32, UInt64.toNat_div, UInt64.toNat_mod, lhs,
    toNat_toUInt64]
  have wrap : 2 ^ 32 = radix := rfl
  rw [wrap, Nat.mod_eq_of_lt quotient, Nat.mod_eq_of_lt (remainder.trans bound)]
  exact ⟨Nat.div_add_mod' _ _, remainder⟩

end

section
variable {as bs : List UInt32}

/-- One more digit in front of an equation between values. -/
lemma scale {x y : Nat} (same : x = y) : radix * x = radix * y := congrArg (radix * ·) same

lemma addLoop_eq (carry : Bool) (len : as.length = bs.length) :
    (addLoop as bs carry).1.length = as.length ∧
      value (addLoop as bs carry).1 + radix ^ as.length * (addLoop as bs carry).2.toNat =
        value as + value bs + carry.toNat := by
  induction as generalizing bs carry with
  | nil =>
    obtain rfl : bs = [] := List.eq_nil_of_length_eq_zero len.symm
    simp [addLoop, value_nil]
  | cons a as ih =>
    cases bs with
    | nil => simp at len
    | cons b bs =>
      obtain ⟨length, rest⟩ := ih (fullAdd a b carry).1 (by simpa using len)
      have digit := fullAdd_eq a b carry
      have scaled := scale rest
      simp only [mul_add] at scaled
      simp only [addLoop, length_cons, value_cons, length, pow_succ', mul_assoc, true_and]
      omega

lemma carryLoop_eq {carry : Bool} {vs : List UInt32} {i : Nat}
    (done : carryLoop as carry = some (vs, i)) :
    vs.length = as.length ∧ value vs = value as + carry.toNat ∧ i ≤ as.length ∧
      vs.drop i = as.drop i := by
  induction as generalizing carry vs i with
  | nil =>
    cases carry with
    | false =>
      cases done
      simp [value_nil]
    | true => simp [carryLoop] at done
  | cons a as ih =>
    cases carry with
    | false =>
      cases done
      simp
    | true =>
      simp only [carryLoop, bind_eq_bind, bind_eq_some_iff, pure_def,
        Option.some.injEq, Prod.mk.injEq, Prod.exists] at done
      obtain ⟨ws, j, rest, rfl, rfl⟩ := done
      obtain ⟨length, total, within, same⟩ := ih rest
      have digit := fullAdd_eq a 0 true
      have scaled := scale total
      simp only [mul_add] at scaled
      refine ⟨by simp [length], ?_, by simpa using within, by simpa using same⟩
      simp only [value_cons, Bool.toNat_true, toNat_zero] at digit ⊢
      omega

lemma subLoop_eq (noborrow : Bool) (len : as.length = bs.length) :
    (subLoop as bs noborrow).1.length = as.length ∧
      value (subLoop as bs noborrow).1 + value bs + 1 +
          radix ^ as.length * (subLoop as bs noborrow).2.toNat =
        value as + noborrow.toNat + radix ^ as.length := by
  induction as generalizing bs noborrow with
  | nil =>
    obtain rfl : bs = [] := List.eq_nil_of_length_eq_zero len.symm
    simp [subLoop, value_nil]
    omega
  | cons a as ih =>
    cases bs with
    | nil => simp at len
    | cons b bs =>
      obtain ⟨length, rest⟩ := ih (fullAdd a (~~~b) noborrow).1 (by simpa using len)
      have digit := fullAdd_eq a (~~~b) noborrow
      have flipped : (~~~b).toNat + b.toNat + 1 = radix := by
        have := toNat_lt_radix b
        have size : UInt32.size = radix := rfl
        rw [UInt32.toNat_not]
        omega
      have scaled := scale rest
      simp only [mul_add, mul_one] at scaled
      simp only [subLoop, length_cons, value_cons, length, pow_succ', mul_assoc, true_and]
      omega

lemma mulLoop_eq (as : List UInt32) (other carry : UInt32) :
    (mulLoop other as carry).1.length = as.length ∧
      value (mulLoop other as carry).1 + radix ^ as.length * (mulLoop other as carry).2.toNat =
        value as * other.toNat + carry.toNat := by
  induction as generalizing carry with
  | nil => simp [mulLoop, value_nil]
  | cons a as ih =>
    obtain ⟨length, rest⟩ := ih (fullMul a other carry).1
    have digit := fullMul_eq a other carry
    have scaled := scale rest
    simp only [mul_add] at scaled
    simp only [mulLoop, length_cons, value_cons, length, pow_succ', mul_assoc, add_mul, true_and]
    omega

lemma divLoop_eq {other : UInt32} (pos : 0 < other.toNat) (as : List UInt32) :
    (divLoop other as).1.length = as.length ∧
      value (divLoop other as).1 * other.toNat + (divLoop other as).2.toNat = value as ∧
      (divLoop other as).2.toNat < other.toNat := by
  induction as with
  | nil => simpa [divLoop, value_nil] using pos
  | cons a as ih =>
    obtain ⟨length, rest, small⟩ := ih
    obtain ⟨digit, below⟩ := fullDivRem_eq small
    have scaled := scale rest
    rw [mul_add, ← mul_assoc] at scaled
    refine ⟨by simp [divLoop, length], ?_, below⟩
    simp only [divLoop, value_cons, add_mul]
    rw [mul_comm _ radix] at digit
    omega

end

/-- The number of a bignum. -/
def Big.toNat (a : Big) : Nat := value a.base

/-- The digits at or above the size are zero. -/
structure Valid (a : Big) : Prop where
  length : a.base.length = n
  size_le : a.size ≤ n
  zeros : ∀ d ∈ a.base.drop a.size, d = 0

section
variable {fits : Prop} {result : Option Big} {a other : Big} {vs : List UInt32} {sz v : Nat}

/-- A result is a bignum of the number `v`; if `v` is in range there is one exactly if it `fits`. -/
structure Computes (fits : Prop) (result : Option Big) (v : Nat) : Prop where
  spec : ∀ b, result = some b → fits ∧ Valid b ∧ b.toNat = v
  returns : fits → v < radix ^ n → ∃ b, result = some b

lemma Computes.of_fits (computes : Computes True result v) (holds : fits) :
    Computes fits result v :=
  propext (iff_of_true trivial holds) ▸ computes

/-- The first of two operations has a result in range if the second has. -/
lemma Computes.bind {next : Big → Option Big} {w : Nat} (first : Computes fits result v)
    (le : v ≤ w)
    (second : ∀ b, result = some b → Valid b → b.toNat = v → Computes True (next b) w) :
    Computes fits (result.bind next) w where
  spec b done := by
    obtain ⟨c, made, rest⟩ := bind_eq_some_iff.mp done
    obtain ⟨holds, valid, total⟩ := first.spec c made
    exact ⟨holds, ((second c made valid total).spec b rest).2⟩
  returns holds less := by
    obtain ⟨c, made⟩ := first.returns holds (le.trans_lt less)
    obtain ⟨-, valid, total⟩ := first.spec c made
    rw [made]
    exact (second c made valid total).returns trivial less

lemma computes_none (beyond : radix ^ n ≤ v) : Computes fits none v where
  spec b done := by cases done
  returns _ less := absurd beyond (not_le.mpr less)

section
variable (length : vs.length = sz)
include length

/-- Digits with zeros behind them are a bignum of their value. -/
lemma computes_padded (le : sz ≤ n) :
    Computes True (some ⟨sz, vs ++ List.replicate (n - sz) 0⟩) (value vs) where
  spec b done := by
    cases done
    refine ⟨trivial, ⟨?_, le, ?_⟩, value_append_zeros _⟩
    · simp only [length_append, length_replicate]
      omega
    · intro d member
      simp only [List.drop_left' length] at member
      exact List.eq_of_mem_replicate member
  returns _ _ := ⟨_, rfl⟩

/-- A store right behind the digits is one more digit. -/
lemma store_padded (less : sz < n) (d : UInt32) : store (vs ++ List.replicate (n - sz) 0) sz d =
      some (vs ++ [d] ++ List.replicate (n - (sz + 1)) 0) := by
  have more : n - sz = n - (sz + 1) + 1 := by omega
  rw [store, more, List.replicate_succ, ← length]
  simp

lemma store_full (full : ¬ sz < n) (d : UInt32) :
    store (vs ++ List.replicate (n - sz) 0) sz d = none := by
  rw [store, if_neg (by rw [length_append, length_replicate]; omega)]

/-- The end of `add`, `mul_small` and `mul_pow2`: a last digit is stored if there is one. -/
lemma computes_stored (le : sz ≤ n) {carry : UInt32} (pos : 0 < carry.toNat) :
    Computes True ((store (vs ++ List.replicate (n - sz) 0) sz carry).bind
        fun base => some ⟨sz + 1, base⟩)
      (value vs + radix ^ sz * carry.toNat) := by
  by_cases less : sz < n
  · have longer : (vs ++ [carry]).length = sz + 1 := by rw [length_append, length]; rfl
    have total : value (vs ++ [carry]) = value vs + radix ^ sz * carry.toNat := by
      rw [value_append, length, value_cons, value_nil, mul_zero, add_zero]
    rw [store_padded length less, ← total]
    exact computes_padded longer less
  · have beyond := Nat.le_mul_of_pos_right (radix ^ sz) pos
    rw [store_full length less]
    obtain rfl : sz = n := by omega
    exact computes_none (beyond.trans (Nat.le_add_left _ _))

end

lemma Valid.slice (valid : Valid a) (above : a.size ≤ sz) (le : sz ≤ n) :
    ∃ vs, a.base = vs ++ List.replicate (n - sz) 0 ∧
      Bignum.slice a.base sz = some (vs, List.replicate (n - sz) 0) ∧ vs.length = sz ∧
      value vs = a.toNat := by
  have behind : a.base.drop sz = List.replicate (n - sz) 0 := by
    refine List.eq_replicate_iff.mpr ⟨by rw [List.length_drop, valid.length], ?_⟩
    intro d member
    rw [← Nat.add_sub_cancel' above, ← List.drop_drop] at member
    exact valid.zeros d (mem_of_mem_drop member)
  have whole := List.take_append_drop sz a.base
  rw [behind] at whole
  refine ⟨a.base.take sz, whole.symm, ?_, ?_, ?_⟩
  · rw [Bignum.slice, if_pos (valid.length ▸ le), behind]
  · rw [List.length_take, valid.length, min_eq_left le]
  · rw [Big.toNat, ← whole, value_append_zeros, whole]

lemma Valid.digits (valid : Valid a) :
    ∃ ds, a.base = ds ++ List.replicate (n - a.size) 0 ∧ Bignum.digits a = some ds ∧
      ds.length = a.size ∧ value ds = a.toNat := by
  obtain ⟨ds, base, sliced, length, total⟩ := valid.slice le_rfl valid.size_le
  exact ⟨ds, base, by rw [Bignum.digits, sliced]; rfl, length, total⟩

lemma fromSmall_computes (v : UInt32) : Computes True (some (fromSmall v)) v.toNat := by
  exact computes_padded (rfl : [v].length = 1) (by decide : 1 ≤ n)

lemma add_computes (ha : Valid a) (hb : Valid other) :
    Computes True (add a other) (a.toNat + other.toNat) := by
  have le : max a.size other.size ≤ n := Nat.max_le.mpr ⟨ha.size_le, hb.size_le⟩
  obtain ⟨as, -, sliceA, lenA, totalA⟩ := ha.slice (le_max_left _ _) le
  obtain ⟨bs, -, sliceB, lenB, totalB⟩ := hb.slice (le_max_right _ _) le
  obtain ⟨length, total⟩ := addLoop_eq false (lenA.trans lenB.symm)
  rw [totalA, totalB, Bool.toNat_false, add_zero, lenA] at total
  rw [lenA] at length
  simp only [add, sliceA, sliceB, bind_eq_bind, bind_some, ← total]
  split
  next carry =>
    rw [carry]
    exact computes_stored length le (by decide : 0 < (1 : UInt32).toNat)
  next carry =>
    rw [Bool.eq_false_iff.mpr carry]
    exact computes_padded length le

/-- A carry out of a digit is in range for the digits above it. -/
lemma carry_lt {low carry x y p : Nat} (digit : low + radix * carry = x)
    (less : x + radix * y < radix * p) : y + carry < p := by
  apply Nat.lt_of_mul_lt_mul_left (a := radix)
  rw [mul_add]
  omega

lemma carryLoop_returns {as : List UInt32} {carry : Bool}
    (less : value as + carry.toNat < radix ^ as.length) : ∃ r, carryLoop as carry = some r := by
  induction as generalizing carry with
  | nil =>
    cases carry with
    | false => exact ⟨_, rfl⟩
    | true => simp [value_nil] at less
  | cons a as ih =>
    cases carry with
    | false => exact ⟨_, rfl⟩
    | true =>
      rw [value_cons, length_cons, pow_succ', add_right_comm] at less
      obtain ⟨r, rest⟩ := ih (carry_lt (fullAdd_eq a 0 true) less)
      simp only [carryLoop, rest]
      exact ⟨_, rfl⟩

lemma addSmall_computes (valid : Valid a) (v : UInt32) :
    Computes True (addSmall a v) (a.toNat + v.toNat) := by
  have length := valid.length
  have zeros := valid.zeros
  have size_le := valid.size_le
  rw [addSmall, Big.toNat]
  cases digits : a.base with
  | nil =>
    rw [digits] at length
    exact absurd length (by decide)
  | cons d ds =>
    rw [digits, length_cons] at length
    rw [digits] at zeros
    have digit := fullAdd_eq d v false
    rw [Bool.toNat_false] at digit
    rw [value_cons, add_right_comm]
    constructor
    · intro b done
      simp only [bind_eq_bind, bind_eq_some_iff, pure_def, Option.some.injEq, Prod.exists] at done
      obtain ⟨vs, i, carried, rfl⟩ := done
      obtain ⟨len, total, within, same⟩ := carryLoop_eq carried
      have top : (if 1 + i > a.size then 1 + i else a.size) = max (1 + i) a.size := by
        split_ifs <;> omega
      rw [top]
      refine ⟨trivial, ⟨by rw [length_cons, len, length], by show max _ _ ≤ n; omega, ?_⟩, ?_⟩
      · intro x member
        -- behind the changed digits and behind the old size nothing changes
        have tails : ((fullAdd d v false).2 :: vs).drop (1 + i) = (d :: ds).drop (1 + i) := by
          rw [add_comm, List.drop_succ_cons, List.drop_succ_cons, same]
        have later := congrArg (List.drop (max (1 + i) a.size - (1 + i))) tails
        rw [List.drop_drop, List.drop_drop, Nat.add_sub_cancel' (le_max_left _ _)] at later
        simp only [later] at member
        rw [← Nat.add_sub_cancel' (le_max_right (1 + i) a.size), ← List.drop_drop] at member
        exact zeros x (mem_of_mem_drop member)
      · rw [Big.toNat, value_cons, total, mul_add]
        omega
    · intro _ less
      rw [← length, pow_succ'] at less
      obtain ⟨r, rest⟩ := carryLoop_returns (carry_lt digit less)
      simp only [rest]
      exact ⟨_, rfl⟩

/-- `sub` fails exactly if the result is negative. -/
lemma sub_spec (ha : Valid a) (hb : Valid other) :
    if other.toNat ≤ a.toNat then ∃ rest, sub a other = some rest ∧ Valid rest ∧
      rest.toNat + other.toNat = a.toNat ∧ rest.size = max a.size other.size
    else sub a other = none := by
  have le : max a.size other.size ≤ n := Nat.max_le.mpr ⟨ha.size_le, hb.size_le⟩
  obtain ⟨as, -, sliceA, lenA, totalA⟩ := ha.slice (le_max_left _ _) le
  obtain ⟨bs, -, sliceB, lenB, totalB⟩ := hb.slice (le_max_right _ _) le
  obtain ⟨length, total⟩ := subLoop_eq true (lenA.trans lenB.symm)
  rw [Bool.toNat_true, ← length] at total
  rw [lenA] at length
  have bound := value_lt (subLoop as bs true).1
  simp only [sub, sliceA, sliceB, bind_eq_bind, bind_some]
  cases noborrow : (subLoop as bs true).2 with
  | true =>
    rw [noborrow, Bool.toNat_true] at total
    obtain ⟨-, valid, difference⟩ := (computes_padded length le).spec _ rfl
    rw [if_pos (by omega)]
    exact ⟨_, rfl, valid, by omega, rfl⟩
  | false =>
    rw [noborrow, Bool.toNat_false] at total
    rw [if_neg (by omega), if_neg Bool.false_ne_true]

lemma mulSmall_computes (ha : Valid a) (v : UInt32) :
    Computes True (mulSmall a v) (a.toNat * v.toNat) := by
  obtain ⟨as, -, sliced, lenA, totalA⟩ := ha.slice le_rfl ha.size_le
  obtain ⟨length, total⟩ := mulLoop_eq as v 0
  rw [totalA, lenA, toNat_zero, add_zero] at total
  rw [lenA] at length
  simp only [mulSmall, sliced, bind_eq_bind, bind_some, ← total]
  split
  next carry =>
    exact computes_stored length ha.size_le (lt_iff_toNat_lt.mp carry)
  next none =>
    have zero : (mulLoop v as 0).2.toNat = 0 := by simpa [lt_iff_toNat_lt] using none
    rw [zero]
    exact computes_padded length ha.size_le

lemma divRemSmall_spec (ha : Valid a) (v : UInt32) : if v.toNat = 0 then divRemSmall a v = none
    else ∃ q r, divRemSmall a v = some (q, r) ∧ Valid q ∧ q.toNat = a.toNat / v.toNat ∧
      r.toNat = a.toNat % v.toNat := by
  have positive : v > 0 ↔ v.toNat ≠ 0 := by
    rw [gt_iff_lt, lt_iff_toNat_lt, toNat_zero, Nat.pos_iff_ne_zero]
  rw [divRemSmall]
  split
  next zero =>
    rw [if_neg (by rw [positive]; exact not_not.mpr zero)]
  next nonzero =>
    have pos : 0 < v.toNat := pos_of_ne_zero nonzero
    obtain ⟨as, -, sliced, lenA, totalA⟩ := ha.slice le_rfl ha.size_le
    obtain ⟨length, total, small⟩ := divLoop_eq pos as
    rw [totalA] at total
    rw [lenA] at length
    obtain ⟨-, valid, quotient⟩ := (computes_padded length ha.size_le).spec _ rfl
    simp only [if_pos (positive.mpr nonzero), sliced, bind_eq_bind, bind_some]
    refine ⟨_, _, rfl, valid, ?_, ?_⟩
    · rw [quotient, ← total, add_comm, Nat.add_mul_div_right _ _ pos, Nat.div_eq_of_lt small,
        zero_add]
    · rw [← total, add_comm, Nat.add_mul_mod_self_right, Nat.mod_eq_of_lt small]

end

section
variable {bits digits : Nat} {base base' : List UInt32} {d : UInt32}

lemma store_append {i : Nat} (xs rest : List UInt32) (at_ : xs.length = i) (x : UInt32) :
    store (xs ++ d :: rest) i x = some (xs ++ x :: rest) := by
  subst at_
  rw [store, if_pos (by simp), List.set_append_right _ _ le_rfl, Nat.sub_self]
  rfl

/-- The digits `xs` move up over a gap as wide as the move. -/
lemma moveLoop_eq (xs gap rest : List UInt32) (width : gap.length = digits) :
    ∃ front, front.length = digits ∧
      moveLoop digits xs.length (xs ++ gap ++ rest) = some (front ++ (xs ++ rest)) := by
  induction xs using List.reverseRecOn generalizing gap rest with
  | nil => exact ⟨gap, width, rfl⟩
  | append_singleton xs x ih =>
    -- the top digit goes to the end of the gap, and the gap is then one lower
    obtain ⟨lower, y, split⟩ : ∃ lower y, x :: gap = lower ++ [y] :=
      ⟨_, _, (List.dropLast_concat_getLast (List.cons_ne_nil x gap)).symm⟩
    have length : lower.length = digits := by
      have lengths := congrArg List.length split
      rw [length_cons, length_append, width] at lengths
      exact (Nat.succ.inj lengths).symm
    have shape : xs ++ [x] ++ gap ++ rest = xs ++ lower ++ y :: rest := by
      rw [append_assoc xs, List.singleton_append, split]
      simp
    have read : (xs ++ [x] ++ gap ++ rest)[xs.length]? = some x := by simp
    obtain ⟨front, low, moved⟩ := ih lower (x :: rest) length
    refine ⟨front, low, ?_⟩
    rw [length_append, List.length_singleton, moveLoop]
    simp only [read, bind_eq_bind, bind_some]
    rw [shape, store_append _ _ (by rw [length_append, length]), bind_some, moved, append_assoc xs,
      List.singleton_append]

lemma moveLoop_none {count : Nat} (pos : 0 < count) (beyond : base.length < count + digits) :
    moveLoop digits count base = none := by
  obtain ⟨i, rfl⟩ := Nat.exists_eq_add_of_lt pos
  rw [zero_add, moveLoop]
  cases base[i]? with
  | none => rfl
  | some d =>
    simp only [bind_eq_bind, bind_some, store, if_neg (show ¬ i + digits < base.length by omega)]
    rfl

/-- What the bit shift makes of a digit and the one below it. -/
def shifted (bits : Nat) (d below : UInt32) : UInt32 :=
  d <<< UInt32.ofNat bits ||| below >>> UInt32.ofNat (digitbits - bits)

/-- The bit shift of digits from the lowest on, with the bits that come in from below. -/
def shiftDigits (bits : Nat) : List UInt32 → UInt32 → List UInt32
  | [], _ => []
  | d :: ds, below => shifted bits d below :: shiftDigits bits ds d

lemma length_shiftDigits (bits : Nat) (ds : List UInt32) (below : UInt32) :
    (shiftDigits bits ds below).length = ds.length := by
  induction ds generalizing below with
  | nil => rfl
  | cons d ds ih => simp [shiftDigits, ih]

/-- Which bits of a digit stay and which go up. -/
lemma shifted_toNat {bits : Nat} (pos : 0 < bits) (small : bits < 32) (d below : UInt32) :
    (shifted bits d below).toNat + radix * (d.toNat / 2 ^ (32 - bits)) =
      d.toNat * 2 ^ bits + below.toNat / 2 ^ (32 - bits) := by
  have amount : ∀ k < 32, (UInt32.ofNat k).toNat % 32 = k := by
    intro k less
    have word : k < UInt32.size := less.trans (by decide)
    rw [UInt32.toNat_ofNat_of_lt' word, Nat.mod_eq_of_lt less]
  have whole : radix = 2 ^ bits * 2 ^ (32 - bits) := by
    rw [← pow_add, radix]
    congr 1
    omega
  have high : d.toNat <<< bits % 2 ^ 32 = 2 ^ bits * (d.toNat % 2 ^ (32 - bits)) := by
    rw [Nat.shiftLeft_eq, mul_comm, ← Nat.mul_mod_mul_left, ← whole]
    rfl
  have low : below.toNat / 2 ^ (32 - bits) < 2 ^ bits := by
    rw [Nat.div_lt_iff_lt_mul (Nat.two_pow_pos _), ← whole]
    exact toNat_lt_radix below
  have sum : (shifted bits d below).toNat =
      2 ^ bits * (d.toNat % 2 ^ (32 - bits)) + below.toNat / 2 ^ (32 - bits) := by
    rw [shifted, UInt32.toNat_or, UInt32.toNat_shiftLeft, UInt32.toNat_shiftRight,
      amount bits small, digitbits, amount (32 - bits) (by omega), high, Nat.shiftRight_eq_div_pow,
      Nat.two_pow_add_eq_or_of_lt low]
  have parts := Nat.mod_add_div d.toNat (2 ^ (32 - bits))
  calc (shifted bits d below).toNat + radix * (d.toNat / 2 ^ (32 - bits))
      = 2 ^ bits * (d.toNat % 2 ^ (32 - bits) + 2 ^ (32 - bits) * (d.toNat / 2 ^ (32 - bits))) +
          below.toNat / 2 ^ (32 - bits) := by
        rw [whole, mul_add, mul_assoc]
        omega
    _ = d.toNat * 2 ^ bits + below.toNat / 2 ^ (32 - bits) := by
        rw [parts, mul_comm]

/-- The last digit, or what stands below if there is none. -/
def lastDigit (below : UInt32) : List UInt32 → UInt32
  | [] => below
  | d :: ds => lastDigit d ds

lemma value_shiftDigits {bits : Nat} (pos : 0 < bits) (small : bits < 32) (ds : List UInt32)
    (below : UInt32) :
    value (shiftDigits bits ds below) +
        radix ^ ds.length * ((lastDigit below ds).toNat / 2 ^ (32 - bits)) =
      value ds * 2 ^ bits + below.toNat / 2 ^ (32 - bits) := by
  induction ds generalizing below with
  | nil => simp [shiftDigits, lastDigit, value_nil]
  | cons d ds ih =>
    have digit := shifted_toNat pos small d below
    have scaled := scale (ih d)
    simp only [mul_add, ← mul_assoc] at scaled
    simp only [shiftDigits, lastDigit, value_cons, length_cons, pow_succ', add_mul]
    omega

end

section
variable {fits : Prop} {a : Big} {bits digits : Nat} {d : UInt32}

lemma getElem?_lastDigit (zs es : List UInt32) (d : UInt32) :
    (zs ++ d :: es)[zs.length + es.length]? = some (lastDigit d es) := by
  induction es generalizing zs d with
  | nil => simp [lastDigit]
  | cons e es ih =>
    rw [List.append_cons, lastDigit, ← ih (zs ++ [d]) e, length_append]
    congr 1
    exact (by omega : zs.length + (es.length + 1) = zs.length + 1 + es.length)

lemma shiftDigits_append (es : List UInt32) (d e : UInt32) :
    shiftDigits bits (es ++ [e]) d =
      shiftDigits bits es d ++ [shifted bits e (lastDigit d es)] := by
  induction es generalizing d with
  | nil => rfl
  | cons c es ih => rw [List.cons_append, shiftDigits, ih]; rfl

/-- The digits `es` above `d` are shifted from the last one down. -/
lemma shiftLoop_eq (zs es rest : List UInt32) :
    shiftLoop bits (zs.length + 1) es.length (zs ++ d :: es ++ rest) =
      some (zs ++ d :: shiftDigits bits es d ++ rest) := by
  induction es using List.reverseRecOn generalizing rest with
  | nil => rfl
  | append_singleton es e ih =>
    have last : (zs ++ d :: es).length = zs.length + 1 + es.length := by simp; omega
    have read : (zs ++ d :: (es ++ [e]) ++ rest)[zs.length + 1 + es.length]? = some e := by
      rw [← last]
      simp
    have below : (zs ++ d :: (es ++ [e]) ++ rest)[zs.length + 1 + es.length - 1]? =
        some (lastDigit d es) := by
      rw [← getElem?_lastDigit zs es d, ← List.cons_append, ← append_assoc, append_assoc _ [e],
        getElem?_append_left (by omega)]
      congr 1
      omega
    have stored (x : UInt32) : store (zs ++ d :: (es ++ [e]) ++ rest) (zs.length + 1 + es.length)
        x = some (zs ++ d :: es ++ x :: rest) := by
      rw [← store_append (d := e) _ rest last x]
      simp
    rw [length_append, List.length_singleton, shiftLoop]
    simp only [read, below, stored, bind_eq_bind, bind_some]
    rw [ih, shiftDigits_append, shifted]
    simp

lemma shiftRight_toNat (pos : 0 < bits) (d : UInt32) :
    (d >>> UInt32.ofNat (digitbits - bits)).toNat = d.toNat / 2 ^ (32 - bits) := by
  have word : 32 - bits < UInt32.size := lt_of_le_of_lt (Nat.sub_le _ _) (by decide)
  rw [UInt32.toNat_shiftRight, digitbits, UInt32.toNat_ofNat_of_lt' word,
    Nat.mod_eq_of_lt (by omega), Nat.shiftRight_eq_div_pow]

/-- The loop and the last store, on digits between zeros and the rest. -/
lemma shiftFinish_eq {zs : List UInt32} (width : zs.length = digits) (es rest : List UInt32)
    (sz : Nat) :
    ((shiftLoop bits (digits + 1) es.length (zs ++ d :: es ++ rest)).bind fun base =>
        base[digits]?.bind fun d => (store base digits (d <<< UInt32.ofNat bits)).bind
          fun base => some (Big.mk sz base)) =
      some ⟨sz, zs ++ shiftDigits bits (d :: es) 0 ++ rest⟩ := by
  subst width
  have stored := store_append (d := d) zs (shiftDigits bits es d ++ rest) rfl
    (d <<< UInt32.ofNat bits)
  have lowest : shifted bits d 0 = d <<< UInt32.ofNat bits := by
    rw [shifted, UInt32.zero_shiftRight, UInt32.or_zero]
  rw [shiftLoop_eq]
  simp [stored, shiftDigits, lowest]

lemma shiftBits_computes (pos : 0 < bits) (small : bits < 32) (es : List UInt32)
    (le : (d :: es).length + digits ≤ n) :
    Computes True (shiftBits (List.replicate digits 0 ++ d :: es ++
        List.replicate (n - ((d :: es).length + digits)) 0) digits ((d :: es).length + digits) bits)
      (value (d :: es) * (radix ^ digits * 2 ^ bits)) := by
  have total := value_shiftDigits pos small (d :: es) 0
  rw [toNat_zero, Nat.zero_div] at total
  have old : (List.replicate digits (0 : UInt32) ++ d :: es).length =
      (d :: es).length + digits := by rw [length_append, length_replicate, add_comm]
  have new : (List.replicate digits (0 : UInt32) ++ shiftDigits bits (d :: es) 0).length =
      (d :: es).length + digits := by
    rw [length_append, length_replicate, length_shiftDigits, add_comm]
  have shifted : value (d :: es) * (radix ^ digits * 2 ^ bits) =
      value (List.replicate digits 0 ++ shiftDigits bits (d :: es) 0) +
        radix ^ ((d :: es).length + digits) *
          (lastDigit d es >>> UInt32.ofNat (digitbits - bits)).toNat := by
    rw [value_append, value_replicate, length_replicate, zero_add, shiftRight_toNat pos,
      pow_add, mul_comm (radix ^ (d :: es).length), mul_assoc, ← mul_add]
    exact (mul_left_comm _ _ _).trans (congrArg _ total.symm)
  have last : (List.replicate digits 0 ++ d :: es ++
      List.replicate (n - ((d :: es).length + digits)) 0)[(d :: es).length + digits - 1]? =
        some (lastDigit d es) := by
    rw [getElem?_append_left (by rw [old, length_cons]; omega), ← getElem?_lastDigit _ es d]
    congr 1
    rw [length_replicate, length_cons]
    omega
  have count : (d :: es).length + digits - (digits + 1) = es.length := by
    rw [length_cons]
    omega
  rw [shiftBits, if_neg (by rw [length_cons]; omega), shifted]
  simp only [last, bind_eq_bind, bind_some, pure_def, storeOverflow, count]
  split
  next overflow =>
    have positive := lt_iff_toNat_lt.mp overflow
    refine Eq.mp ?_ (computes_stored new le positive)
    by_cases less : (d :: es).length + digits < n
    · rw [store_padded new less, store_padded old less]
      simp only [Option.map_some, bind_some, append_assoc _ [_]]
      rw [shiftFinish_eq length_replicate]
    · rw [store_full new less, store_full old less]
      rfl
  next none =>
    have zero : (lastDigit d es >>> UInt32.ofNat (digitbits - bits)).toNat = 0 := by
      simpa [lt_iff_toNat_lt] using none
    rw [zero, bind_some, shiftFinish_eq length_replicate]
    exact computes_padded new le

/-- Without digits the result is zero with a larger size, or `last - 1` underflows. -/
lemma shiftBits_zeros (less : digits < n) : shiftBits (List.replicate n 0) digits digits bits =
    if digits = 0 then none else some ⟨digits, List.replicate n 0⟩ := by
  have top : (List.replicate n (0 : UInt32))[digits - 1]? = some 0 := by
    rw [getElem?_replicate, if_pos (by omega)]
  have there : (List.replicate n (0 : UInt32))[digits]? = some 0 := by
    rw [getElem?_replicate, if_pos less]
  have none : digits - (digits + 1) = 0 := by omega
  have stored : store (List.replicate n 0) digits 0 = some (List.replicate n 0) := by
    rw [store, if_pos (by exact less), List.set_replicate_self]
  rw [shiftBits]
  split
  · rfl
  · simp only [top, storeOverflow, UInt32.zero_shiftRight, UInt32.lt_irrefl, gt_iff_lt, if_false,
      none, shiftLoop, there, UInt32.zero_shiftLeft, bind_eq_bind, bind_some, stored, pure_def]

/-- When `mul_pow2` stays within the digits. -/
def ShiftFits (size bits : Nat) : Prop :=
  bits / digitbits < n ∧ (size = 0 → bits % digitbits = 0 ∨ bits / digitbits ≠ 0) ∧
    (0 < size → size + bits / digitbits ≤ n)

lemma mulPow2_computes (valid : Valid a) (bits : Nat) :
    Computes (ShiftFits a.size bits) (mulPow2 a bits) (a.toNat * 2 ^ bits) := by
  have power : 2 ^ bits = radix ^ (bits / digitbits) * 2 ^ (bits % digitbits) := by
    rw [radix, ← Nat.pow_mul, ← pow_add, digitbits, Nat.div_add_mod]
  have small : bits % digitbits < 32 := mod_lt _ (by decide)
  obtain ⟨ds, base, -, length, total⟩ := valid.digits
  rw [mulPow2, ShiftFits, power, ← total, ← length]
  generalize bits / digitbits = digits, bits % digitbits = bits at small ⊢
  by_cases inside : digits < n ∧ ds.length + digits ≤ n
  · obtain ⟨less, le⟩ := inside
    have gap : List.replicate (n - a.size) (0 : UInt32) =
        List.replicate digits 0 ++ List.replicate (n - (ds.length + digits)) 0 := by
      rw [List.replicate_append_replicate]
      congr 1
      omega
    obtain ⟨front, width, moved⟩ := moveLoop_eq ds _
      (List.replicate (n - (ds.length + digits)) (0 : UInt32)) length_replicate
    have size : (List.replicate digits (0 : UInt32) ++ ds).length = ds.length + digits := by
      rw [length_append, length_replicate, add_comm]
    rw [append_assoc, ← gap, ← base] at moved
    simp only [if_pos less, moved, bind_eq_bind, bind_some, List.drop_left' width]
    rw [← append_assoc]
    split
    next pos =>
      cases ds with
      | nil =>
        rw [List.append_nil, List.replicate_append_replicate, List.length_nil, zero_add,
          Nat.add_sub_cancel' less.le, value_nil, zero_mul, shiftBits_zeros less]
        split_ifs with none
        · exact ⟨fun b done => (nomatch done), fun holds => by omega⟩
        · have zeros := computes_padded (length_replicate (n := digits) (a := (0 : UInt32))) less.le
          rw [List.replicate_append_replicate, Nat.add_sub_cancel' less.le,
            value_replicate] at zeros
          exact zeros.of_fits ⟨less, fun _ => .inr none, fun _ => less.le⟩
      | cons d es =>
        exact (shiftBits_computes pos small es le).of_fits ⟨less, by simp, fun _ => le⟩
    · have zero : bits = 0 := by omega
      have shifted : value ds * (radix ^ digits * 2 ^ bits) =
          value (List.replicate digits 0 ++ ds) := by
        rw [value_append, value_replicate, length_replicate, zero, pow_zero, mul_one,
          zero_add, mul_comm]
      rw [shifted]
      exact (computes_padded size le).of_fits ⟨less, fun _ => .inl zero, fun _ => le⟩
  · refine ⟨fun b done => ?_, fun holds => by omega⟩
    split at done
    · rw [moveLoop_none (by omega) (by rw [valid.length]; omega)] at done
      cases done
    · cases done

end

section
variable {a : Big}

lemma restPower_toNat {e : Nat} (small : e < 13) : (restPower e).toNat = 5 ^ e := by
  have all : ∀ e : Fin 13, (restPower e).toNat = 5 ^ e.val := by decide
  exact all ⟨e, small⟩

lemma mulPow5_computes (valid : Valid a) (e : Nat) :
    Computes True (mulPow5 a e) (a.toNat * 5 ^ e) := by
  rw [mulPow5]
  fun_induction mulPow5Loop a e with
  | case1 a e large ih =>
    have power : smallPow5.1.toNat = 5 ^ 13 := by decide
    have split : 5 ^ 13 * 5 ^ (e - smallPow5.2) = 5 ^ e := by
      rw [← pow_add]
      congr 1
      exact Nat.add_sub_cancel' large
    have first := mulSmall_computes valid smallPow5.1
    rw [power] at first
    rw [bind_eq_bind, Option.bind_assoc]
    refine first.bind (Nat.mul_le_mul_left _ ?_) fun b _ validB total => ?_
    · rw [← split]
      exact Nat.le_mul_of_pos_right _ (Nat.pow_pos (by decide))
    · rw [← split, ← mul_assoc, ← total]
      exact ih b validB
  | case2 a e small =>
    rw [← restPower_toNat (not_le.mp small)]
    exact mulSmall_computes valid _

lemma fromU64Loop_computes {vs : List UInt32} {sz : Nat} (length : vs.length = sz) (le : sz ≤ n)
    (v : UInt64) :
    Computes True (fromU64Loop (vs ++ List.replicate (n - sz) 0) sz v)
      (value vs + radix ^ sz * v.toNat) := by
  rw [fromU64Loop]
  split
  next pos =>
    have positive : 0 < v.toNat := UInt64.lt_iff_toNat_lt.mp pos
    by_cases less : sz < n
    · have longer : (vs ++ [v.toUInt32]).length = sz + 1 := by rw [length_append, length]; rfl
      have parts : v.toUInt32.toNat + radix * (v >>> 32).toNat = v.toNat := by
        rw [UInt64.toNat_shiftRight, Nat.shiftRight_eq_div_pow]
        exact Nat.mod_add_div v.toNat (2 ^ 32)
      have total : value vs + radix ^ sz * v.toNat =
          value (vs ++ [v.toUInt32]) + radix ^ (sz + 1) * (v >>> 32).toNat := by
        rw [value_append, length, value_cons, value_nil, mul_zero, add_zero, pow_succ,
          mul_assoc, add_assoc, ← mul_add, parts]
      rw [store_padded length less, total]
      exact fromU64Loop_computes longer less (v >>> 32)
    · have beyond := Nat.le_mul_of_pos_right (radix ^ sz) positive
      rw [store_full length less]
      obtain rfl : sz = n := by omega
      exact computes_none (beyond.trans (Nat.le_add_left _ _))
  next none =>
    have zero : v.toNat = 0 := by simpa [UInt64.lt_iff_toNat_lt] using none
    rw [zero]
    exact computes_padded length le
termination_by v.toNat

lemma fromU64_computes (v : UInt64) : Computes True (fromU64 v) v.toNat := by
  have length : ([] : List UInt32).length = 0 := rfl
  have all := fromU64Loop_computes length (zero_le _) v
  rw [value_nil, pow_zero, one_mul, zero_add] at all
  exact all

end

/-- A row of the product, on digits that are zero behind those of `bb`. -/
lemma mulRow_spec {a : UInt32} {bb ret row : List UInt32} {carry : UInt32} {more : Nat}
    (zeros : ∀ d ∈ ret.drop bb.length, d = 0) (done : mulRow a bb ret carry = some (row, more)) :
    row.length = ret.length ∧ bb.length + more ≤ ret.length ∧ more ≤ 1 ∧
      value row = value ret + a.toNat * value bb + carry.toNat ∧
      ∀ d ∈ row.drop (bb.length + more), d = 0 := by
  induction bb generalizing ret row carry with
  | nil =>
    unfold mulRow at done
    split at done
    · cases ret with
      | nil => simp at done
      | cons r ret =>
        cases done
        have first : r = 0 := zeros r (by simp)
        refine ⟨rfl, by simp, le_rfl, ?_, ?_⟩
        · rw [value_cons, value_cons, first, value_nil, toNat_zero]
          omega
        · intro d member
          exact zeros d (List.mem_cons_of_mem _ (by simpa using member))
    next none =>
      cases done
      have zero : carry.toNat = 0 := by simpa [lt_iff_toNat_lt] using none
      exact ⟨rfl, by simp, zero_le _, by rw [value_nil]; omega, by simpa using zeros⟩
  | cons b bb ih =>
    cases ret with
    | nil => simp [mulRow] at done
    | cons r ret =>
      simp only [mulRow, bind_eq_bind, bind_eq_some_iff, pure_def,
        Option.some.injEq, Prod.mk.injEq, Prod.exists] at done
      obtain ⟨vs, more', rest, rfl, rfl⟩ := done
      obtain ⟨length, within, one, total, behind⟩ := ih (by simpa using zeros) rest
      have digit := fullMulAdd_eq a b r carry
      have scaled := scale total
      simp only [mul_add, mul_left_comm radix] at scaled
      refine ⟨by simp [length], by simp; omega, one, ?_, ?_⟩
      · simp only [value_cons, mul_add, mul_left_comm a.toNat radix]
        rw [mul_left_comm a.toNat radix] at scaled
        omega
      · have shift : (b :: bb).length + more' = bb.length + more' + 1 := by
          rw [length_cons]
          omega
        rw [shift]
        exact behind

lemma mulRow_returns {a : UInt32} {bb ret : List UInt32} {carry : UInt32}
    (le : bb.length ≤ ret.length)
    (less : value ret + a.toNat * value bb + carry.toNat < radix ^ ret.length) :
    ∃ r, mulRow a bb ret carry = some r := by
  induction bb generalizing ret carry with
  | nil =>
    unfold mulRow
    split
    next pos =>
      have positive := lt_iff_toNat_lt.mp pos
      cases ret with
      | nil => simp [value_nil] at less positive; omega
      | cons r ret => exact ⟨_, rfl⟩
    · exact ⟨_, rfl⟩
  | cons b bb ih =>
    cases ret with
    | nil => simp at le
    | cons r ret =>
      have rest : a.toNat * b.toNat + r.toNat + carry.toNat +
          radix * (value ret + a.toNat * value bb) < radix * radix ^ ret.length := by
        rw [value_cons, value_cons, length_cons, pow_succ', mul_add, mul_left_comm] at less
        rw [mul_add]
        omega
      obtain ⟨r', done⟩ := ih (Nat.le_of_succ_le_succ le)
        (carry_lt (fullMulAdd_eq a b r carry) rest)
      simp only [mulRow, done]
      exact ⟨_, rfl⟩

/-- The rows of the product from `i` on stay within the digits. -/
def RowsFit (bb aa : List UInt32) (i : Nat) : Prop :=
  ∀ k d, aa[k]? = some d → d ≠ 0 → i + k + bb.length ≤ n

lemma rowsFit_cons {bb aa : List UInt32} {a : UInt32} {i : Nat} :
    RowsFit bb (a :: aa) i ↔ (a ≠ 0 → i + bb.length ≤ n) ∧ RowsFit bb aa (i + 1) := by
  constructor
  · intro fits
    refine ⟨fits 0 a rfl, fun k d read nonzero => ?_⟩
    have := fits (k + 1) d read nonzero
    omega
  · rintro ⟨first, rest⟩ (_ | k) d read nonzero
    · cases read
      exact first nonzero
    · have := rest k d read nonzero
      omega

/-- The rows from `i` on: behind the digits of this row there is nothing yet. -/
lemma mulInner_computes {bb aa ret : List UInt32} {i retsz : Nat}
    (nonempty : bb ≠ [] ∨ aa = []) (length : ret.length = n)
    (unused : ∀ d ∈ ret.drop (i + bb.length), d = 0) (zeros : ∀ d ∈ ret.drop retsz, d = 0)
    (le : retsz ≤ n) :
    Computes (RowsFit bb aa i)
      ((mulInner bb aa i ret retsz).map fun (product, size) => ⟨size, product⟩)
      (value ret + radix ^ i * (value aa * value bb)) := by
  induction aa generalizing i ret retsz with
  | nil =>
    rw [value_nil, zero_mul, mul_zero, add_zero]
    refine ⟨fun b done => ?_, fun _ _ => ⟨_, rfl⟩⟩
    cases done
    exact ⟨fun k d read => (nomatch read), ⟨length, le, zeros⟩, rfl⟩
  | cons a aa ih =>
    have nonempty : bb ≠ [] := nonempty.resolve_right (List.cons_ne_nil a aa)
    have later : ∀ {l : List UInt32} {j k : Nat}, (∀ d ∈ l.drop j, d = 0) → j ≤ k →
        ∀ d ∈ l.drop k, d = 0 := by
      intro l j k all less d member
      rw [← Nat.add_sub_cancel' less, ← List.drop_drop] at member
      exact all d (mem_of_mem_drop member)
    rw [mulInner, rowsFit_cons]
    split
    next zero =>
      have rest := ih (.inl nonempty) length
        (later unused (by omega : i + bb.length ≤ i + 1 + bb.length)) zeros le
      rw [pow_succ, mul_assoc, ← mul_assoc radix] at rest
      rw [value_cons, zero, toNat_zero, zero_add, and_iff_right (absurd rfl)]
      exact rest
    next nonzero =>
      have positive : 0 < bb.length := List.length_pos_iff.mpr nonempty
      have split (inside : i ≤ n) : (ret.take i).length = i ∧
          value ret = value (ret.take i) + radix ^ i * value (ret.drop i) := by
        have front : (ret.take i).length = i := by rw [List.length_take]; omega
        have whole := value_append (ret.take i) (ret.drop i)
        rw [List.take_append_drop, front] at whole
        exact ⟨front, whole⟩
      cases rowed : mulRow a bb (ret.drop i) 0 with
      | none =>
        refine ⟨fun b done => (nomatch done), fun fits less => ?_⟩
        have inside := fits.1 nonzero
        obtain ⟨front, whole⟩ := split (by omega)
        have small : value (ret.drop i) + a.toNat * value bb + (0 : UInt32).toNat <
            radix ^ (ret.drop i).length := by
          apply Nat.lt_of_mul_lt_mul_left
          rw [List.length_drop, length, ← pow_add, Nat.add_sub_cancel' (by omega)]
          refine lt_of_le_of_lt ?_ less
          rw [whole, value_cons, toNat_zero, add_mul]
          simp only [mul_add]
          omega
        obtain ⟨r, made⟩ := mulRow_returns (by rw [List.length_drop]; omega) small
        rw [rowed] at made
        cases made
      | some result =>
        obtain ⟨row, more⟩ := result
        obtain ⟨rowLength, within, one, rowTotal, rowZeros⟩ := mulRow_spec
          (by rw [List.drop_drop]; exact unused) rowed
        rw [List.length_drop] at within rowLength
        obtain ⟨front, whole⟩ := split (by omega)
        have newLength : (ret.take i ++ row).length = n := by
          rw [length_append]
          omega
        have newZeros : ∀ d ∈ (ret.take i ++ row).drop (i + (bb.length + more)), d = 0 := by
          rw [List.drop_append, front, List.drop_of_length_le (by omega), Nat.add_sub_cancel_left]
          exact rowZeros
        have newSize : (if retsz < i + (bb.length + more) then i + (bb.length + more)
            else retsz) = max (i + (bb.length + more)) retsz := by
          split_ifs <;> omega
        have rest := ih (.inl nonempty) newLength
          (later newZeros (by omega : i + (bb.length + more) ≤ i + 1 + bb.length))
          (later newZeros (le_max_left _ retsz)) (Nat.max_le.mpr ⟨by omega, le⟩)
        have total : value ret + radix ^ i * (value (a :: aa) * value bb) =
            value (ret.take i ++ row) + radix ^ (i + 1) * (value aa * value bb) := by
          rw [value_append, front, rowTotal, toNat_zero, add_zero, value_cons,
            pow_succ, add_mul, mul_add, mul_add, mul_assoc, mul_assoc]
          omega
        rw [total, and_iff_right fun _ => by omega]
        simp only [bind_eq_bind, bind_some, newSize]
        exact rest

/-- When `mul_digits` stays within the digits: the shorter factor gives the rows. -/
def ProductFits (a : Big) (other : List UInt32) : Prop :=
  ∀ ds, digits a = some ds →
    if a.size < other.length then RowsFit other ds 0 else RowsFit ds other 0

lemma mulDigits_computes {a : Big} (valid : Valid a) (other : List UInt32) :
    Computes (ProductFits a other) (mulDigits a other) (a.toNat * value other) := by
  have zeros : ∀ k, ∀ d ∈ (List.replicate n (0 : UInt32)).drop k, d = 0 := by
    intro k d member
    exact List.eq_of_mem_replicate (mem_of_mem_drop member)
  obtain ⟨ds, -, digits, length, total⟩ := valid.digits
  have rows {aa bb : List UInt32} (nonempty : bb ≠ [] ∨ aa = []) :=
    mulInner_computes (i := 0) nonempty length_replicate (zeros _) (zeros _) (zero_le n)
  simp only [value_replicate, pow_zero, one_mul, zero_add] at rows
  simp only [mulDigits, ProductFits, digits, bind_eq_bind, bind_some, ← total, ← length,
    Option.some.injEq, forall_eq']
  split
  next shorter =>
    have nonempty : other ≠ [] := by
      rintro rfl
      simp at shorter
    exact rows (.inl nonempty)
  · have nonempty : ds ≠ [] ∨ other = [] := by
      by_cases empty : other = []
      · exact .inr empty
      · have := List.length_pos_iff.mpr empty
        rw [← List.length_pos_iff]
        omega
    rw [mul_comm]
    exact rows nonempty

end Bignum
