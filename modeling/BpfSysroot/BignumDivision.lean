import BpfSysroot.BignumSpecs

/-!
# Bits, comparison and division of bignums

The observers of a bignum tell facts about its value, and the bitwise long division of
`div_rem` keeps the equation of a division with the bits that it has read so far.
-/

namespace Bignum

open List
open Nat (add_zero div_add_mod mod_eq_of_lt mod_lt mul_add mul_assoc mul_comm mul_zero pow_mul
  pow_succ two_pow_pos)
open Option (bind_some getD_some)

section
variable {ds es : List UInt32}

lemma value_eq_zero_iff : value ds = 0 ↔ ∀ d ∈ ds, d = 0 := by
  induction ds with
  | nil => simp [value_nil]
  | cons d ds ih =>
    have zero : d.toNat = 0 ↔ d = 0 := by rw [← UInt32.toNat_inj, UInt32.toNat_zero]
    rw [value_cons, forall_mem_cons, ← ih, ← zero]
    simp [radix]

lemma value_inj (len : ds.length = es.length) : value ds = value es ↔ ds = es := by
  constructor
  · intro same
    induction ds generalizing es with
    | nil => exact (eq_nil_of_length_eq_zero len.symm).symm
    | cons d ds ih =>
      cases es with
      | nil => simp at len
      | cons e es =>
        rw [value_cons, value_cons] at same
        have low := toNat_lt_radix d
        have low' := toNat_lt_radix e
        have first : d.toNat = e.toNat := by
          have rem := congrArg (· % radix) same
          simpa [mod_eq_of_lt low, mod_eq_of_lt low'] using rem
        have rest : value ds = value es := by
          rw [first] at same
          exact Nat.eq_of_mul_eq_mul_left (by omega) (Nat.add_left_cancel same)
        rw [UInt32.toNat_inj.mp first, ih (by simpa using len) rest]
  · rintro rfl
    rfl

lemma testBit_value (ds : List UInt32) (i : Nat) :
    (value ds).testBit i = (ds[i / 32]?.getD 0).toNat.testBit (i % 32) := by
  induction ds generalizing i with
  | nil => simp [value_nil]
  | cons d ds ih =>
    have low : d.toNat < 2 ^ 32 := toNat_lt_radix d
    have split : value (d :: ds) = 2 ^ 32 * value ds + d.toNat := by
      rw [value_cons, radix, add_comm]
    rw [split, Nat.testBit_two_pow_mul_add _ low]
    split
    next first =>
      rw [Nat.div_eq_of_lt first, mod_eq_of_lt first]
      rfl
    · have quotient : i / 32 = (i - 32) / 32 + 1 := by omega
      have remainder : i % 32 = (i - 32) % 32 := by omega
      rw [ih, quotient, remainder, getElem?_cons_succ]

/-- The digits from the top down are compared as the numbers are. -/
lemma lexCmp_eq (len : ds.length = es.length) :
    lexCmp ds es = compare (value ds.reverse) (value es.reverse) := by
  induction ds generalizing es with
  | nil =>
    obtain rfl : es = [] := eq_nil_of_length_eq_zero len.symm
    simp [lexCmp]
  | cons d ds ih =>
    cases es with
    | nil => simp at len
    | cons e es =>
      have same : ds.length = es.length := by simpa using len
      have low := value_lt ds.reverse
      have low' := value_lt es.reverse
      rw [length_reverse] at low low'
      rw [← same] at low'
      rw [reverse_cons, reverse_cons, value_append, value_append, value_cons, value_cons,
        value_nil, length_reverse, length_reverse, ← same, mul_zero, add_zero,
        add_zero, lexCmp]
      have apart : ∀ {x y u v p : Nat}, u < p → x < y → u + p * x < v + p * y := by
        intro x y u v p small less
        calc u + p * x < p * (x + 1) := by
              rw [mul_add]
              omega
          _ ≤ p * y := Nat.mul_le_mul_left p less
          _ ≤ v + p * y := Nat.le_add_left _ _
      split
      next less =>
        exact (Nat.compare_eq_lt.mpr (apart low (UInt32.lt_iff_toNat_lt.mp less))).symm
      next notLess =>
        split
        next greater =>
          exact (Nat.compare_eq_gt.mpr (apart low' (UInt32.lt_iff_toNat_lt.mp greater))).symm
        next notGreater =>
          have equal : d.toNat = e.toNat := by
            rw [UInt32.lt_iff_toNat_lt] at notLess notGreater
            omega
          rw [ih same, equal]
          simp only [Nat.compare_eq_ite_lt, Nat.add_lt_add_iff_right]

end

section
variable {a other : Big} {i : Nat}

lemma isZero_spec (valid : Valid a) : isZero a = some (decide (a.toNat = 0)) := by
  obtain ⟨ds, -, digits, -, total⟩ := valid.digits
  have all : ds.all (· == 0) = decide (a.toNat = 0) := by
    rw [Bool.eq_iff_iff, decide_eq_true_iff, ← total, value_eq_zero_iff]
    simp
  simp only [isZero, digits, Option.bind_eq_bind, bind_some, all]
  rfl

lemma cmp_spec (ha : Valid a) (hb : Valid other) :
    cmp a other = some (compare a.toNat other.toNat) := by
  have le : max a.size other.size ≤ n := Nat.max_le.mpr ⟨ha.size_le, hb.size_le⟩
  obtain ⟨as, -, sliceA, lenA, totalA⟩ := ha.slice (le_max_left _ _) le
  obtain ⟨bs, -, sliceB, lenB, totalB⟩ := hb.slice (le_max_right _ _) le
  have len : as.reverse.length = bs.reverse.length := by
    rw [length_reverse, length_reverse, lenA, lenB]
  simp only [cmp, sliceA, sliceB, Option.bind_eq_bind, bind_some, lexCmp_eq len,
    reverse_reverse, totalA, totalB]
  rfl

lemma eq_spec (ha : Valid a) (hb : Valid other) : eq a other = decide (a.toNat = other.toNat) := by
  rw [eq, Bool.eq_iff_iff, beq_iff_eq, decide_eq_true_iff, Big.toNat, Big.toNat,
    value_inj (ha.length.trans hb.length.symm)]

/-- A bit as a number. -/
def bit (b : Bool) : UInt8 := if b then 1 else 0

lemma bit_of_digit (d : UInt32) {b : Nat} (small : b < 32) :
    (d >>> UInt32.ofNat b &&& 1).toUInt8 = bit (d.toNat.testBit b) := by
  have amount : (UInt32.ofNat b).toNat % 32 = b := by
    rw [UInt32.toNat_ofNat_of_lt' (small.trans (by decide)), mod_eq_of_lt small]
  apply UInt8.toNat_inj.mp
  rw [UInt32.toNat_toUInt8, UInt32.toNat_and, UInt32.toNat_shiftRight, amount,
    Nat.shiftRight_eq_div_pow, Nat.testBit_eq_decide_div_mod_eq]
  generalize d.toNat / 2 ^ b = q
  rcases Nat.mod_two_eq_zero_or_one q with even | odd
  · simp [even, bit]
  · simp [odd, bit]

lemma getBit_spec (valid : Valid a) (inside : i / digitbits < n) :
    getBit a i = some (bit (a.toNat.testBit i)) := by
  have there : i / digitbits < a.base.length := valid.length ▸ inside
  have read := testBit_value a.base i
  have small : i % digitbits < 32 := mod_lt _ (by decide)
  rw [← digitbits, getElem?_eq_getElem there, getD_some] at read
  simp only [getBit, getElem?_eq_getElem there, Option.bind_eq_bind, bind_some,
    bit_of_digit _ small, ← read]
  rfl

lemma getBit_inside (valid : Valid a) {b : UInt8} (read : getBit a i = some b) :
    i / digitbits < n := by
  simp only [getBit, Option.bind_eq_bind, Option.bind_eq_some_iff] at read
  obtain ⟨d, there, -⟩ := read
  obtain ⟨inside, -⟩ := List.getElem?_eq_some_iff.mp there
  exact valid.length ▸ inside

lemma bitLengthLoop_spec (valid : Valid a) (inside : i / digitbits < n)
    (pos : a.toNat ≠ 0) (bound : a.toNat < 2 ^ (i + 1)) :
    bitLengthLoop a i = some (Nat.size a.toNat) := by
  have read := getBit_spec valid inside
  induction i with
  | zero =>
    have one : a.toNat = 1 := by omega
    rw [bitLengthLoop, read, one]
    rfl
  | succ i ih =>
    rw [bitLengthLoop, read]
    by_cases set : a.toNat.testBit (i + 1)
    · have low : 2 ^ (i + 1) ≤ a.toNat := Nat.ge_two_pow_of_testBit set
      have size : Nat.size a.toNat = i + 2 :=
        le_antisymm (Nat.size_le.mpr bound) (Nat.lt_size.mpr low)
      rw [set, size]
      rfl
    · have clear := Bool.eq_false_iff.mpr set
      have smaller : a.toNat < 2 ^ (i + 1) := by
        rw [Nat.testBit_eq_decide_div_mod_eq, decide_eq_false_iff_not] at clear
        have two : a.toNat / 2 ^ (i + 1) < 2 := by
          rw [Nat.div_lt_iff_lt_mul (two_pow_pos _), mul_comm]
          exact bound
        rw [← Nat.div_eq_zero_iff_lt (two_pow_pos _)]
        generalize a.toNat / 2 ^ (i + 1) = q at clear two ⊢
        omega
      have lower : i / digitbits < n := lt_of_le_of_lt (Nat.div_le_div_right (Nat.le_succ i)) inside
      rw [clear]
      exact ih lower smaller (getBit_spec valid lower)

lemma nonzero_eq (ds : List UInt32) :
    ds.take (ds.length - (ds.reverse.takeWhile (· == 0)).length) = ds.rdropWhile (· == 0) := by
  have split : ds.rdropWhile (· == 0) ++ ds.rtakeWhile (· == 0) = ds := rdropWhile_append_rtakeWhile
  have zeros : (ds.reverse.takeWhile (· == 0)).length = (ds.rtakeWhile (· == 0)).length := by
    rw [rtakeWhile, length_reverse]
  rw [zeros]
  generalize ds.rtakeWhile (· == 0) = top at *
  generalize ds.rdropWhile (· == 0) = front at *
  rw [← split]
  exact take_left' (by rw [length_append]; omega)

lemma value_rdropWhile (ds : List UInt32) : value (ds.rdropWhile (· == 0)) = value ds := by
  have split : ds.rdropWhile (· == 0) ++ ds.rtakeWhile (· == 0) = ds := rdropWhile_append_rtakeWhile
  have zeros : value (ds.rtakeWhile (· == 0)) = 0 := by
    rw [value_eq_zero_iff]
    intro d member
    simpa using mem_rtakeWhile_imp member
  have total := value_append (ds.rdropWhile (· == 0)) (ds.rtakeWhile (· == 0))
  rw [split, zeros] at total
  exact total.symm

lemma bitLength_spec (valid : Valid a) : bitLength a = some (Nat.size a.toNat) := by
  obtain ⟨ds, -, digits, length, total⟩ := valid.digits
  have whole := value_rdropWhile ds
  have shorter := (List.rdropWhile_prefix (· == 0) (l := ds)).length_le
  have size_le := valid.size_le
  have bound := value_lt (ds.rdropWhile (· == 0))
  rw [whole, total] at bound
  simp only [bitLength, digits, Option.bind_eq_bind, bind_some, nonzero_eq]
  split
  next none =>
    rw [List.isEmpty_iff.mp none, total] at whole
    rw [← whole]
    rfl
  next some =>
    have nonempty : ds.rdropWhile (· == 0) ≠ [] := by simpa using some
    have top := rdropWhile_last_not (· == 0) ds nonempty
    have pos := List.length_pos_iff.mpr nonempty
    have notZero : a.toNat ≠ 0 := by
      intro zero
      rw [← total, ← whole, value_eq_zero_iff] at zero
      exact top (by simp [zero _ (getLast_mem nonempty)])
    generalize (ds.rdropWhile (· == 0)).length = m at *
    have last : m * digitbits - 1 + 1 = 32 * m := by
      simp only [digitbits]
      omega
    apply bitLengthLoop_spec valid _ notZero
    · rw [last, pow_mul]
      exact bound
    · simp only [digitbits]
      omega

end

variable {a d : Big}
variable {i : Nat} {x : UInt32} {r r' : Big} {s s' : DivState} {ds : List UInt32}

lemma value_set {v : UInt32} (read : ds[i]? = some x) :
    value (ds.set i v) + radix ^ i * x.toNat = value ds + radix ^ i * v.toNat := by
  induction ds generalizing i with
  | nil => simp at read
  | cons y ds ih =>
    cases i with
    | zero =>
      obtain rfl : y = x := by simpa using read
      rw [set_cons_zero, value_cons, value_cons, pow_zero]
      omega
    | succ i =>
      have scaled := scale (ih (by simpa using read))
      rw [mul_add, mul_add] at scaled
      rw [set_cons_succ, value_cons, value_cons, pow_succ', mul_assoc, mul_assoc]
      omega

lemma or_two_pow {x b : Nat} (clear : x.testBit b = false) : x ||| 2 ^ b = x + 2 ^ b := by
  have low : x % 2 ^ (b + 1) < 2 ^ b := by
    rw [Nat.testBit_eq_decide_div_mod_eq, decide_eq_false_iff_not] at clear
    rw [pow_succ, Nat.mod_mul]
    have rem := mod_lt x (two_pow_pos b)
    have even : x / 2 ^ b % 2 = 0 := by omega
    rw [even]
    exact rem
  have sum : x % 2 ^ (b + 1) + 2 ^ b < 2 ^ (b + 1) := by omega
  have parts : x = 2 ^ (b + 1) * (x / 2 ^ (b + 1)) + x % 2 ^ (b + 1) := (div_add_mod _ _).symm
  have lowBits : x % 2 ^ (b + 1) < 2 ^ (b + 1) := mod_lt _ (two_pow_pos _)
  calc x ||| 2 ^ b
      = 2 ^ (b + 1) * (x / 2 ^ (b + 1)) ||| (x % 2 ^ (b + 1) ||| 2 ^ b) := by
        conv_lhs => rw [parts, Nat.two_pow_add_eq_or_of_lt lowBits, Nat.or_assoc]
    _ = 2 ^ (b + 1) * (x / 2 ^ (b + 1)) + (x % 2 ^ (b + 1) + 2 ^ b) := by
        rw [Nat.or_two_pow_eq_add_of_lt low, Nat.two_pow_add_eq_or_of_lt sum]
    _ = x + 2 ^ b := by
        rw [← add_assoc, ← parts]

lemma value_setBit (read : ds[i / digitbits]? = some x) (clear : (value ds).testBit i = false) :
    value (ds.set (i / digitbits) (x ||| 1 <<< UInt32.ofNat (i % digitbits))) =
      value ds + 2 ^ i := by
  have small : i % digitbits < 32 := mod_lt _ (by decide)
  rw [testBit_value, ← digitbits, read, getD_some] at clear
  have one : ((1 : UInt32) <<< UInt32.ofNat (i % digitbits)).toNat = 2 ^ (i % digitbits) := by
    rw [UInt32.toNat_shiftLeft, UInt32.toNat_ofNat_of_lt' (small.trans (by decide)),
      mod_eq_of_lt small, UInt32.toNat_one, Nat.one_shiftLeft]
    exact mod_eq_of_lt (Nat.pow_lt_pow_right (by decide) small)
  have digit : (x ||| 1 <<< UInt32.ofNat (i % digitbits)).toNat =
      x.toNat + 2 ^ (i % digitbits) := by
    rw [UInt32.toNat_or, one, or_two_pow clear]
  have power : radix ^ (i / digitbits) * 2 ^ (i % digitbits) = 2 ^ i := by
    rw [radix, ← pow_mul, ← pow_add, digitbits, div_add_mod]
  have total := value_set (v := x ||| 1 <<< UInt32.ofNat (i % digitbits)) read
  rw [digit, mul_add] at total
  omega

lemma Valid.set (valid : Valid a) (inside : i < a.size) (v : UInt32) :
    Valid ⟨a.size, a.base.set i v⟩ where
  length := by rw [length_set, valid.length]
  size_le := valid.size_le
  zeros := by
    intro x member
    rw [drop_set_of_lt inside] at member
    exact valid.zeros x member

lemma shiftBits_size {base : List UInt32} {digits last bits : Nat} {b : Big}
    (done : shiftBits base digits last bits = some b) : 0 < b.size := by
  rw [shiftBits] at done
  split at done
  · simp at done
  next pos =>
    simp only [Option.bind_eq_bind, Option.bind_eq_some_iff, Option.pure_def, Option.some.injEq,
      Prod.exists] at done
    obtain ⟨d, -, base₀, sz, overflowed, base₁, -, d', -, base₂, -, rfl⟩ := done
    rw [storeOverflow] at overflowed
    split at overflowed
    · rw [Option.map_eq_some_iff] at overflowed
      obtain ⟨_, -, pair⟩ := overflowed
      cases pair
      exact Nat.succ_pos _
    · cases overflowed
      exact pos_of_ne_zero pos

lemma mulPow2_one_size (done : mulPow2 r 1 = some r') : 0 < r'.size := by
  rw [mulPow2] at done
  simp only [digitbits, n, Option.bind_eq_bind] at done
  norm_num only at done
  rw [if_pos trivial, Option.bind_eq_some_iff] at done
  obtain ⟨base, -, shifted⟩ := done
  exact shiftBits_size shifted

/-- Bit zero of an even number is free for the next bit. -/
lemma value_or_bit (read : ds[0]? = some x) (even : value ds % 2 = 0)
    (b : Bool) : value (ds.set 0 (x ||| (bit b).toUInt32)) = value ds + b.toNat := by
  cases b with
  | false =>
    have total := value_set (v := x) read
    have same : x ||| (bit false).toUInt32 = x := UInt32.or_zero
    rw [same, Bool.toNat_false]
    omega
  | true =>
    have clear : (value ds).testBit 0 = false := by
      rw [Nat.testBit_zero, decide_eq_false_iff_not]
      omega
    exact value_setBit read clear

lemma nextBit_size (done : nextBit a r i = some r') : 0 < r'.size := by
  simp only [nextBit, Option.bind_eq_bind, Option.bind_eq_some_iff, Option.pure_def,
    Option.some.injEq] at done
  obtain ⟨shifted, doubled, -, -, -, -, -, -, rfl⟩ := done
  have size := mulPow2_one_size doubled
  exact size

lemma nextBit_computes (ha : Valid a) (hr : Valid r) (inside : i / digitbits < n) :
    Computes (0 < r.size) (nextBit a r i) (2 * r.toNat + (a.toNat.testBit i).toNat) := by
  have size_le := hr.size_le
  have exact : ShiftFits r.size 1 ↔ 0 < r.size := by
    simp only [ShiftFits, digitbits, n] at size_le ⊢
    omega
  rw [← exact]
  refine (mulPow2_computes hr 1).bind (by omega) fun shifted doubled valid total => ?_
  have there : 0 < shifted.base.length := by rw [valid.length]; decide
  have read := getElem?_eq_getElem there
  have even : value shifted.base % 2 = 0 := by
    rw [← Big.toNat, total]
    exact Nat.mul_mod_left _ _
  simp only [getBit_spec ha inside, read, store, if_pos there, Option.bind_eq_bind, bind_some]
  refine ⟨fun b done => ?_, fun _ _ => ⟨_, rfl⟩⟩
  cases done
  refine ⟨trivial, valid.set (mulPow2_one_size doubled) _, ?_⟩
  rw [Big.toNat, value_or_bit read even, ← Big.toNat, total, Nat.pow_one, mul_comm]

lemma testBit_of_dvd {x : Nat} (multiple : 2 ^ (i + 1) ∣ x) : x.testBit i = false := by
  obtain ⟨k, rfl⟩ := multiple
  rw [Nat.testBit_eq_decide_div_mod_eq, pow_succ, mul_assoc,
    Nat.mul_div_cancel_left _ (two_pow_pos i), Nat.mul_mod_right]
  decide

/-- What the loop keeps when the bits at and above `i` are divided: the quotient so far is a
multiple of `2 ^ i`, and its size covers the bits below. -/
structure Divided (a d : Big) (i : Nat) (s : DivState) : Prop where
  quotient : Valid s.q
  remainder : Valid s.r
  less : s.r.toNat < d.toNat
  split : a.toNat / 2 ^ i = s.q.toNat / 2 ^ i * d.toNat + s.r.toNat
  multiple : 2 ^ i ∣ s.q.toNat
  empty : s.qIsZero → s.q.toNat = 0
  covers : s.qIsZero = false → i ≤ digitbits * s.q.size

lemma setBit_spec (valid : Valid s.q) (inside : i / digitbits < n)
    (multiple : 2 ^ (i + 1) ∣ s.q.toNat) (empty : s.qIsZero = true → s.q.toNat = 0)
    (covers : s.qIsZero = false → i + 1 ≤ digitbits * s.q.size) :
    ∃ s', setBit s i = some s' ∧ Valid s'.q ∧ s'.q.toNat = s.q.toNat + 2 ^ i ∧ s'.r = s.r ∧
      s'.qIsZero = false ∧ i ≤ digitbits * s'.q.size := by
  have there : i / digitbits < s.q.base.length := valid.length ▸ inside
  have read := getElem?_eq_getElem there
  have total := value_setBit read (testBit_of_dvd multiple)
  -- the size is set at the first bit, which is the highest
  have sized : Valid ⟨if s.qIsZero then i / digitbits + 1 else s.q.size, s.q.base⟩ ∧
      i / digitbits < (if s.qIsZero then i / digitbits + 1 else s.q.size) := by
    cases zero : s.qIsZero with
    | true =>
      refine ⟨⟨valid.length, inside, ?_⟩, Nat.lt_succ_self _⟩
      intro y member
      exact value_eq_zero_iff.mp (empty zero) y (mem_of_mem_drop member)
    | false =>
      have enough := covers zero
      refine ⟨⟨valid.length, valid.size_le, valid.zeros⟩, ?_⟩
      rw [Nat.div_lt_iff_lt_mul (by decide), mul_comm]
      exact enough
  simp only [setBit, read, store, if_pos there, Option.bind_eq_bind, bind_some]
  refine ⟨_, rfl, sized.1.set sized.2 _, total, rfl, rfl, ?_⟩
  have parts := div_add_mod i digitbits
  have low : i % digitbits < digitbits := mod_lt _ (by decide)
  have scaled := Nat.mul_le_mul_left digitbits (Nat.succ_le_of_lt sized.2)
  rw [Nat.succ_eq_add_one, mul_add] at scaled
  exact (by omega : i ≤ digitbits * (if s.qIsZero then i / digitbits + 1 else s.q.size))

lemma div_two_pow_succ (x i : Nat) : x / 2 ^ i = 2 * (x / 2 ^ (i + 1)) + (x.testBit i).toNat := by
  have parts := div_add_mod (x / 2 ^ i) 2
  rw [Nat.toNat_testBit, pow_succ, ← Nat.div_div_eq_div_mul]
  exact parts.symm

lemma Valid.toNat_lt (valid : Valid a) : a.toNat < radix ^ n := by
  rw [← valid.length]
  exact value_lt a.base

/-- The remainder, with the next bit, is not above the bits of `a` that it comes from. -/
lemma divStep_spec (ha : Valid a) (hd : Valid d) (inside : i / digitbits < n)
    (before : Divided a d (i + 1) s) (size : 0 < s.r.size) :
    ∃ s', divStep a d s i = some s' ∧ Divided a d i s' ∧ 0 < s'.r.size := by
  obtain ⟨k, quotient⟩ := before.multiple
  have split := before.split
  rw [quotient, Nat.mul_div_cancel_left _ (two_pow_pos _)] at split
  have bits := div_two_pow_succ a.toNat i
  have part := Nat.div_le_self a.toNat (2 ^ i)
  have range := ha.toNat_lt
  have computes := nextBit_computes ha before.remainder inside
  obtain ⟨r, next⟩ := computes.returns size (by omega)
  obtain ⟨-, valid, total⟩ := computes.spec r next
  have nextSize := nextBit_size next
  have less := before.less
  have single : (a.toNat.testBit i).toNat ≤ 1 := Bool.toNat_le _
  have doubled : s.q.toNat = 2 ^ i * (2 * k) := by
    rw [quotient, pow_succ, mul_assoc]
  simp only [divStep, next, cmp_spec valid hd, Option.bind_eq_bind, bind_some,
    ne_eq, compare_lt_iff_lt]
  split
  next ge =>
    have subtracted := sub_spec valid hd
    rw [if_pos (Nat.not_lt.mp ge)] at subtracted
    obtain ⟨rest, made, validRest, taken, size⟩ := subtracted
    obtain ⟨s', set, validQ, sum, same, flag, covers⟩ :=
      setBit_spec (s := { s with r := rest }) before.quotient inside before.multiple before.empty
        before.covers
    have sum' : s'.q.toNat = 2 ^ i * (2 * k + 1) := by
      rw [sum, doubled, mul_add, mul_one]
    rw [made, bind_some, set]
    refine ⟨s', rfl, ⟨validQ, same ▸ validRest, ?_, ?_, ⟨_, sum'⟩, ?_, fun _ => covers⟩, ?_⟩
    · rw [same]
      exact (by omega : rest.toNat < d.toNat)
    · rw [sum', Nat.mul_div_cancel_left _ (two_pow_pos _), same, bits, split,
        add_mul, mul_assoc, one_mul]
      exact (by omega : 2 * (k * d.toNat + s.r.toNat) + (a.toNat.testBit i).toNat =
        2 * (k * d.toNat) + d.toNat + rest.toNat)
    · intro zero
      rw [flag] at zero
      exact absurd zero Bool.false_ne_true
    · rw [same]
      exact (by omega : 0 < rest.size)
  next lt =>
    refine ⟨_, rfl, ⟨before.quotient, valid, not_not.mp lt, ?_, ⟨_, doubled⟩, before.empty, ?_⟩,
      nextSize⟩
    · rw [doubled, Nat.mul_div_cancel_left _ (two_pow_pos _), total, mul_assoc]
      omega
    · intro zero
      exact Nat.le_of_succ_le (before.covers zero)

lemma divRemLoop_spec (ha : Valid a) (hd : Valid d) (inside : i ≤ digitbits * n)
    (before : Divided a d i s) (size : 0 < s.r.size) :
    ∃ s', divRemLoop a d i s = some s' ∧ Divided a d 0 s' := by
  induction i generalizing s with
  | zero => exact ⟨s, rfl, before⟩
  | succ i ih =>
    have digit : i / digitbits < n := by
      rw [Nat.div_lt_iff_lt_mul (by decide)]
      exact inside
    obtain ⟨mid, made, after, sized⟩ := divStep_spec ha hd digit before size
    rw [divRemLoop, made, bind_some]
    exact ih (Nat.le_of_succ_le inside) after sized

lemma valid_zeros {sz : Nat} (le : sz ≤ n) :
    Valid ⟨sz, replicate n 0⟩ ∧ Big.toNat ⟨sz, replicate n 0⟩ = 0 := by
  have zeros : ∀ x ∈ replicate n (0 : UInt32), x = 0 := fun x => eq_of_mem_replicate
  refine ⟨⟨length_replicate, le, ?_⟩, value_eq_zero_iff.mpr zeros⟩
  intro x member
  exact zeros x (mem_of_mem_drop member)

/-- Long division by bits gives the quotient and the remainder, and fails by zero. -/
lemma divRem_spec (ha : Valid a) (hd : Valid d) : if d.toNat = 0 then divRem a d = none
    else ∃ q r, divRem a d = some (q, r) ∧ Valid q ∧ Valid r ∧ q.toNat = a.toNat / d.toNat ∧
      r.toNat = a.toNat % d.toNat := by
  simp only [divRem, isZero_spec hd, bitLength_spec ha, Option.bind_eq_bind, bind_some,
    decide_eq_true_eq]
  split
  next zero => rfl
  next nonzero =>
    have pos := pos_of_ne_zero nonzero
    have size : 0 < d.size := by
      obtain ⟨ds, -, -, length, total⟩ := hd.digits
      refine pos_of_ne_zero fun none => nonzero ?_
      rw [← total, eq_nil_of_length_eq_zero (length.trans none), value_nil]
    obtain ⟨validQ, zeroQ⟩ := valid_zeros (by decide : 1 ≤ n)
    obtain ⟨validR, zeroR⟩ := valid_zeros hd.size_le
    have first : Divided a d (Nat.size a.toNat)
        ⟨⟨1, List.replicate n 0⟩, ⟨d.size, List.replicate n 0⟩, true⟩ := by
      refine ⟨validQ, validR, ?_, ?_, ?_, fun _ => zeroQ, ?_⟩
      · exact pos
      · rw [zeroR, zeroQ, Nat.zero_div, zero_mul, Nat.div_eq_of_lt (Nat.lt_size_self _)]
      · exact Nat.dvd_zero _
      · intro zero
        exact absurd zero Bool.true_eq_false_eq_False
    have bits : Nat.size a.toNat ≤ digitbits * n := by
      rw [Nat.size_le, pow_mul]
      exact ha.toNat_lt
    obtain ⟨s, run, last⟩ := divRemLoop_spec ha hd bits first size
    have split := last.split
    rw [pow_zero, Nat.div_one, Nat.div_one, mul_comm] at split
    obtain ⟨quotient, remainder⟩ := (Nat.div_mod_unique pos).mpr
      ⟨(add_comm _ _).trans split.symm, last.less⟩
    exact ⟨s.q, s.r, by rw [run]; rfl, last.quotient, last.remainder, quotient.symm, remainder.symm⟩

end Bignum
