import BpfSysroot.Traced

/-!
# Double words of the runtime library

The integer types of `int_types.h` (`du_int`, `tu_int`, `su_int` and the union
`utwords`), the shifts and builtins of C with the cases they leave undefined as
faults, and the branch-free comparison that both division routines use. Every
shift and every comparison is noted as an event, so that a specification can
speak about the amounts that are shifted by.
-/

namespace WideWords

open Traced
open BitVec (eq_of_getLsbD_eq eq_of_toNat_eq getLsbD_append getLsbD_or getLsbD_shiftLeft
  getLsbD_ushiftRight le_def lt_def toNat_sub)

abbrev SuInt := BitVec 32
abbrev DuInt := BitVec 64
abbrev TuInt := BitVec 128

/-- The union of a 128-bit integer with its two halves. -/
structure Utwords where
  high : DuInt
  low : DuInt
  deriving DecidableEq

namespace Utwords

def all (t : Utwords) : TuInt := t.high ++ t.low

def ofAll (x : TuInt) : Utwords := ⟨x.extractLsb' 64 64, x.extractLsb' 0 64⟩

lemma toNat_all (t : Utwords) : t.all.toNat = t.high.toNat * 2 ^ 64 + t.low.toNat := by
  rw [all, BitVec.toNat_append, ← Nat.shiftLeft_add_eq_or_of_lt t.low.isLt, Nat.shiftLeft_eq]

lemma toNat_all_low {t : Utwords} (h : t.high = 0) : t.all.toNat = t.low.toNat := by
  rw [toNat_all, h]
  simp

lemma all_ofAll (x : TuInt) : (ofAll x).all = x := by
  apply eq_of_toNat_eq
  rw [toNat_all]
  simp only [ofAll, BitVec.extractLsb'_toNat, Nat.shiftRight_eq_div_pow]
  omega

end Utwords

/-- What a routine notes: a shift with its amount and the width of what is shifted, the value of
`sr` where a comment states its range (`orLarge` if the comment adds "or sr large"), and a
comparison of `r` with `d` together with the mask `s` that came out. -/
inductive Event
  | shift (amount width : Nat)
  | range (lowest highest : Nat) (orLarge : Bool) (sr : SuInt)
  | select (r d s : TuInt)
  deriving DecidableEq

section
variable {w : Nat}

section
variable (x : BitVec w) (amount : SuInt)

/-- A left shift, undefined unless the amount is below the width. -/
def shl : Run Event (BitVec w) :=
  if amount.toNat < w then .noting (.shift amount.toNat w) (x <<< amount.toNat) else .fault

/-- A right shift of an unsigned integer. -/
def shr : Run Event (BitVec w) :=
  if amount.toNat < w then .noting (.shift amount.toNat w) (x >>> amount.toNat) else .fault

/-- A right shift of a signed integer, which copies the sign. -/
def sar : Run Event (BitVec w) :=
  if amount.toNat < w then .noting (.shift amount.toNat w) (x.sshiftRight amount.toNat)
  else .fault

end

def quot (x y : BitVec w) : Run Event (BitVec w) := if y = 0 then .fault else .ret (x / y)

def remainder (x y : BitVec w) : Run Event (BitVec w) := if y = 0 then .fault else .ret (x % y)

/-- `__builtin_clzll`, undefined at zero. -/
def clzll (x : DuInt) : Run Event SuInt := if x = 0 then .fault else .ret (x.clz.setWidth 32)

/-- `__builtin_ctzll`, undefined at zero. -/
def ctzll (x : DuInt) : Run Event SuInt := if x = 0 then .fault else .ret (x.ctz.setWidth 32)

def inRange (lowest highest : Nat) (orLarge : Bool) (sr : SuInt) : Run Event Unit :=
  .noting (.range lowest highest orLarge sr) ()

/-- The branch-free comparison: the sign of `d - r - 1`, spread over the whole word. -/
def mask (r d : TuInt) : Run Event TuInt := do
  let s ← sar (d - r - 1) 127
  .noting (.select r d s) s

variable {allowed : Event → Prop} {x : DuInt}

lemma yields_shl {x : BitVec w} {k : SuInt} (hk : k.toNat < w)
    (hallowed : allowed (.shift k.toNat w)) : (shl x k).Yields allowed (· = x <<< k.toNat) := by
  rw [shl, if_pos hk]
  exact Run.yields_noting hallowed rfl

lemma yields_shr {x : BitVec w} {k : SuInt} (hk : k.toNat < w)
    (hallowed : allowed (.shift k.toNat w)) : (shr x k).Yields allowed (· = x >>> k.toNat) := by
  rw [shr, if_pos hk]
  exact Run.yields_noting hallowed rfl

lemma yields_quot {x y : BitVec w} (hy : y ≠ 0) : (quot x y).Yields allowed (· = x / y) := by
  rw [quot, if_neg hy]
  exact Run.yields_ret rfl

lemma yields_remainder {x y : BitVec w} (hy : y ≠ 0) :
    (remainder x y).Yields allowed (· = x % y) := by
  rw [remainder, if_neg hy]
  exact Run.yields_ret rfl

lemma clz_toNat_lt (hx : x ≠ 0) : x.clz.toNat < 64 := by
  have := BitVec.clz_lt_iff_ne_zero.mpr hx
  simpa [lt_def] using this

/-- There are `k` zeros above the leading one. -/
structure Leading (x : DuInt) (k : SuInt) : Prop where
  lt : k.toNat < 64
  low : 2 ^ (63 - k.toNat) ≤ x.toNat
  high : x.toNat < 2 ^ (64 - k.toNat)

lemma yields_clzll (hx : x ≠ 0) : (clzll x).Yields allowed (Leading x) := by
  rw [clzll, if_neg hx]
  apply Run.yields_ret
  have bound := clz_toNat_lt hx
  have small : (x.clz.setWidth 32).toNat = x.clz.toNat := by
    exact Nat.mod_eq_of_lt (by omega)
  exact ⟨small ▸ bound, small ▸ BitVec.two_pow_sub_clz_le_toNat_of_ne_zero (by decide) hx,
    small ▸ BitVec.toNat_lt_two_pow_sub_clz⟩

lemma ctz_toNat_lt (hx : x ≠ 0) : x.ctz.toNat < 64 := by
  have := BitVec.ctz_lt_iff_ne_zero.mpr hx
  simpa [lt_def] using this

/-- A word that shares no bit with its predecessor is the power of two of its trailing zeros. -/
lemma toNat_eq_two_pow_ctz (hx : x ≠ 0) (power : x &&& (x - 1) = 0) :
    x.toNat = 2 ^ x.ctz.toNat := by
  have positive : x.toNat ≠ 0 := fun h => hx (eq_of_toNat_eq h)
  have pred : (x - 1).toNat = x.toNat - 1 := by bv_omega
  have land : x.toNat &&& (x.toNat - 1) = 0 := by
    have := congrArg BitVec.toNat power
    rwa [BitVec.toNat_and, pred] at this
  obtain ⟨e, he⟩ := (Nat.and_sub_one_eq_zero_iff_isPowerOfTwo positive).mp land
  have bit := BitVec.getLsbD_true_ctz_of_ne_zero hx
  rw [BitVec.getLsbD, he, Nat.testBit_two_pow] at bit
  rw [he, of_decide_eq_true bit]

lemma yields_ctzll (hx : x ≠ 0) (power : x &&& (x - 1) = 0) :
    (ctzll x).Yields allowed (fun k => k.toNat < 64 ∧ x.toNat = 2 ^ k.toNat) := by
  rw [ctzll, if_neg hx]
  apply Run.yields_ret
  have bound := ctz_toNat_lt hx
  have small : (x.ctz.setWidth 32).toNat = x.ctz.toNat := by
    exact Nat.mod_eq_of_lt (by omega)
  rw [small]
  exact ⟨bound, toNat_eq_two_pow_ctz hx power⟩

end

/-- What a division returns and stores, from the numbers it computed. -/
lemma results_eq {a b x y : TuInt} (rem : Bool) (hx : x.toNat = a.toNat / b.toNat)
    (hy : y.toNat = a.toNat % b.toNat) :
    (x, if rem then some y else none) = (a / b, if rem then some (a % b) else none) := by
  have quotient : x = a / b := eq_of_toNat_eq (by rw [hx, BitVec.toNat_udiv])
  have remains : y = a % b := eq_of_toNat_eq (by rw [hy, BitVec.toNat_umod])
  rw [quotient, remains]

/-- The comparison is right as long as `r` and `d` are less than half the word apart. -/
lemma sshiftRight_sub_one {r d : TuInt} (above : d.toNat ≤ r.toNat + 2 ^ 127)
    (below : r.toNat < d.toNat + 2 ^ 127) :
    (d - r - 1).sshiftRight 127 = if d ≤ r then BitVec.allOnes 128 else 0 := by
  have sign : (d - r - 1).msb = decide (d ≤ r) := by
    rw [BitVec.msb_eq_decide, decide_eq_decide, le_def]
    simp only [toNat_sub, BitVec.reduceToNat]
    omega
  apply eq_of_toNat_eq
  rw [BitVec.toNat_sshiftRight, sign]
  have top := BitVec.msb_eq_decide (d - r - 1)
  rw [sign, decide_eq_decide] at top
  by_cases enough : d ≤ r
  · simp only [enough, decide_true, if_true, BitVec.toNat_allOnes, Nat.shiftRight_eq_div_pow]
    have := top.mp enough
    omega
  · simp only [enough, decide_false, if_false, Nat.shiftRight_eq_div_pow]
    have := mt top.mpr enough
    simp only [Bool.false_eq_true, if_false, BitVec.reduceToNat]
    omega

lemma yields_mask {allowed : Event → Prop} {r d : TuInt} (above : d.toNat ≤ r.toNat + 2 ^ 127)
    (below : r.toNat < d.toNat + 2 ^ 127) (hshift : allowed (.shift 127 128))
    (hselect : allowed (.select r d (if d ≤ r then BitVec.allOnes 128 else 0))) :
    (mask r d).Yields allowed (· = if d ≤ r then BitVec.allOnes 128 else 0) := by
  refine Run.Yields.bind (Q := (· = if d ≤ r then BitVec.allOnes 128 else 0)) ?_ ?_
  · exact Run.yields_noting hshift (sshiftRight_sub_one above below)
  · rintro s rfl
    exact Run.yields_noting hselect rfl

section
variable (t : Utwords) {k : Nat}

/- A shift of the pair is put together from shifts of its words. -/

lemma all_shiftRight (positive : 0 < k) (small : k < 64) :
    (Utwords.mk (t.high >>> k) (t.high <<< (64 - k) ||| t.low >>> k)).all = t.all >>> k := by
  apply eq_of_getLsbD_eq
  simp only [Utwords.all, getLsbD_append, getLsbD_ushiftRight, getLsbD_or, getLsbD_shiftLeft]
  grind

lemma all_shiftLeft (positive : 0 < k) (small : k < 64) :
    (Utwords.mk (t.high <<< k ||| t.low >>> (64 - k)) (t.low <<< k)).all = t.all <<< k := by
  apply eq_of_getLsbD_eq
  simp only [Utwords.all, getLsbD_append, getLsbD_ushiftRight, getLsbD_or, getLsbD_shiftLeft]
  grind

lemma all_shiftRight_word : (Utwords.mk 0 (t.high >>> k)).all = t.all >>> (64 + k) := by
  apply eq_of_getLsbD_eq
  simp only [Utwords.all, getLsbD_append, getLsbD_ushiftRight]
  grind

lemma all_shiftLeft_word : (Utwords.mk (t.low <<< k) 0).all = t.all <<< (64 + k) := by
  apply eq_of_getLsbD_eq
  simp only [Utwords.all, getLsbD_append, getLsbD_shiftLeft]
  grind

end

lemma toNat_shiftLeft_one_or {w : Nat} {x y : BitVec (w + 1)} (hy : y.toNat < 2) :
    (x <<< 1 ||| y).toNat = 2 * x.toNat % 2 ^ (w + 1) + y.toNat := by
  have hx : 2 * x.toNat % 2 ^ (w + 1) = 2 * (x.toNat % 2 ^ w) := by
    rw [pow_succ', Nat.mul_mod_mul_left]
  have join := Nat.shiftLeft_add_eq_or_of_lt (i := 1) hy (x.toNat % 2 ^ w)
  rw [Nat.shiftLeft_eq, mul_comm] at join
  rw [BitVec.toNat_or, BitVec.toNat_shiftLeft, Nat.shiftLeft_eq, mul_comm, hx, join]

lemma toNat_ushiftRight_top (x : DuInt) : (x >>> 63).toNat = x.toNat / 2 ^ 63 := by
  rw [BitVec.toNat_ushiftRight, Nat.shiftRight_eq_div_pow]

lemma toNat_all_double (t : Utwords) (bit : DuInt) (hbit : bit.toNat < 2) :
    (Utwords.mk (t.high <<< 1 ||| t.low >>> 63) (t.low <<< 1 ||| bit)).all.toNat =
      2 * t.all.toNat % 2 ^ 128 + bit.toNat := by
  have top : (t.low >>> 63).toNat < 2 := by
    rw [toNat_ushiftRight_top]
    omega
  rw [Utwords.toNat_all, Utwords.toNat_all, toNat_shiftLeft_one_or hbit,
    toNat_shiftLeft_one_or top, toNat_ushiftRight_top]
  omega

variable (t d : TuInt)

/-- The last bit of the mask is the next bit of the quotient. -/
lemma toNat_mask_and_one {w : Nat} (hw : 0 < w) :
    (((if d ≤ t then BitVec.allOnes 128 else 0) &&& 1 : TuInt).setWidth w : BitVec w).toNat =
      if d.toNat ≤ t.toNat then 1 else 0 := by
  have one : 1 < 2 ^ w := Nat.one_lt_two_pow hw.ne'
  simp only [le_def]
  split
  · have : (BitVec.allOnes 128 &&& 1 : TuInt).toNat = 1 := rfl
    rw [BitVec.toNat_setWidth, this, Nat.mod_eq_of_lt one]
  · have : ((0 : TuInt) &&& 1).toNat = 0 := rfl
    rw [BitVec.toNat_setWidth, this, Nat.zero_mod]

/-- Subtracting under the mask is subtracting if possible. -/
lemma toNat_sub_mask :
    (t - (d &&& if d ≤ t then BitVec.allOnes 128 else 0)).toNat =
      if d.toNat ≤ t.toNat then t.toNat - d.toNat else t.toNat := by
  simp only [le_def]
  split
  · rw [BitVec.and_allOnes, toNat_sub]
    omega
  · simp

end WideWords
