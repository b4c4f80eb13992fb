import Mathlib

/-!
# Long division of natural numbers

The two classical ways to divide with shifts and subtractions, and the digit
estimate of schoolbook division. Reading the dividend bit by bit, a pair of
quotient and remainder is doubled and corrected (`read_bit`), and a register can
hold the unread bits and the quotient bits together (`unread_double`); halving a shifted
divisor, the same correction is made the other way round (`halve`). A quotient
digit is estimated from the leading digit of the divisor and corrected
downwards; `digit_lt_iff` is the test that finds out whether it is still too
large.
-/

namespace LongDivision

open Nat

/-- Quotient and remainder of `n` by `d`. -/
def divMod (n d : Nat) : Nat × Nat := (n / d, n % d)

lemma divMod_eq {n d q r : Nat} (hr : r < d) (h : n = q * d + r) : divMod n d = (q, r) := by
  have positive : 0 < d := by omega
  have unique := (Nat.div_mod_unique positive).mpr (show r + d * q = n ∧ r < d from
    ⟨by rw [h, mul_comm d q, add_comm], hr⟩)
  simp only [divMod, unique.1, unique.2]

/-- Takes the next bit of the dividend into the remainder and corrects both parts. -/
lemma read_bit {d bit : Nat} (n : Nat) (hd : 0 < d) (hb : bit < 2) :
    (2 * n + bit) / d = 2 * (n / d) + (if d ≤ 2 * (n % d) + bit then 1 else 0) ∧
      (2 * n + bit) % d =
        if d ≤ 2 * (n % d) + bit then 2 * (n % d) + bit - d else 2 * (n % d) + bit := by
  have hn : n = n / d * d + n % d := (div_add_mod' n d).symm
  have hr : n % d < d := mod_lt n hd
  apply Prod.mk.inj
  apply divMod_eq
  · split <;> omega
  calc 2 * n + bit = 2 * (n / d * d + n % d) + bit := by rw [← hn]
    _ = 2 * (n / d) * d + (2 * (n % d) + bit) := by ring
    _ = _ := by split <;> simp only [add_mul, one_mul, zero_mul] <;> omega

/-- Passes from the divisor `2 * d` to the divisor `d`. -/
lemma halve {d : Nat} (n : Nat) (hd : 0 < d) :
    n / d = 2 * (n / (2 * d)) + (if d ≤ n % (2 * d) then 1 else 0) ∧
      n % d = if d ≤ n % (2 * d) then n % (2 * d) - d else n % (2 * d) := by
  have hn : n = n / (2 * d) * (2 * d) + n % (2 * d) := (div_add_mod' n (2 * d)).symm
  have hr : n % (2 * d) < 2 * d := mod_lt n (by omega)
  apply Prod.mk.inj
  apply divMod_eq
  · split <;> omega
  calc n = n / (2 * d) * (2 * d) + n % (2 * d) := hn
    _ = 2 * (n / (2 * d)) * d + n % (2 * d) := by ring
    _ = _ := by split <;> simp only [add_mul, one_mul, zero_mul] <;> omega

/-- Dividing the leading part first leaves a smaller leading part. -/
lemma divide_leading {d : Nat} (b h l : Nat) (hd : 0 < d) :
    (h * b + l) / d = h / d * b + (h % d * b + l) / d ∧ (h * b + l) % d = (h % d * b + l) % d := by
  have split : h * b + l = (h % d * b + l) + h / d * b * d := by
    calc h * b + l = (h / d * d + h % d) * b + l := by rw [div_add_mod']
      _ = (h % d * b + l) + h / d * b * d := by ring
  constructor
  · rw [split, add_mul_div_right _ _ hd, add_comm]
  · rw [split, add_mul_mod_self_right]

section
/- The dividend `n` shares a register of `w` bits with the quotient by `d`: with `k` bits unread,
these stand at the top, and the quotient without its last bit at the bottom. -/
variable {n d w k : Nat}

lemma div_pow_eq : n / 2 ^ k = 2 * (n / 2 ^ (k + 1)) + n / 2 ^ k % 2 := by
  rw [pow_succ, ← Nat.div_div_eq_div_mul]
  omega

lemma quotient_lt (hn : n < 2 ^ w) (hk : k ≤ w) : n / 2 ^ k / d / 2 < 2 ^ (w - k) := by
  have read : n / 2 ^ k < 2 ^ (w - k) := by
    apply Nat.div_lt_of_lt_mul
    rwa [← pow_add, Nat.add_sub_cancel' hk]
  calc n / 2 ^ k / d / 2 ≤ n / 2 ^ k := (Nat.div_le_self _ _).trans (Nat.div_le_self _ _)
    _ < 2 ^ (w - k) := read

/-- The top bit of the register is the next bit of the dividend. -/
lemma unread_top (hn : n < 2 ^ w) (hk : k < w) :
    (n % 2 ^ (k + 1) * 2 ^ (w - (k + 1)) + n / 2 ^ (k + 1) / d / 2) / 2 ^ (w - 1) =
      n / 2 ^ k % 2 := by
  have low := quotient_lt (d := d) hn (show k + 1 ≤ w by omega)
  have split : 2 ^ (w - 1) = 2 ^ (w - (k + 1)) * 2 ^ k := by
    rw [← pow_add]
    congr 1
    omega
  rw [split, ← Nat.div_div_eq_div_mul, mul_comm, Nat.mul_add_div (Nat.two_pow_pos _),
    Nat.div_eq_of_lt low, add_zero, pow_succ, Nat.mod_mul_right_div_self]

/-- Doubling the register drops that bit and makes room for the last bit of the quotient. -/
lemma unread_double (hn : n < 2 ^ w) (hk : k < w) :
    2 * (n % 2 ^ (k + 1) * 2 ^ (w - (k + 1)) + n / 2 ^ (k + 1) / d / 2) % 2 ^ w +
        n / 2 ^ (k + 1) / d % 2 =
      n % 2 ^ k * 2 ^ (w - k) + n / 2 ^ (k + 1) / d := by
  have low := quotient_lt (d := d) hn (show k + 1 ≤ w by omega)
  have twice : 2 * 2 ^ (w - (k + 1)) = 2 ^ (w - k) := by
    rw [← pow_succ']
    congr 1
    omega
  have whole : 2 ^ k * 2 ^ (w - k) = 2 ^ w := by
    rw [← pow_add, Nat.add_sub_cancel' hk.le]
  have next : n % 2 ^ (k + 1) = n % 2 ^ k + 2 ^ k * (n / 2 ^ k % 2) := by
    rw [pow_succ, Nat.mod_mul]
  have room : n % 2 ^ k * 2 ^ (w - k) + 2 ^ (w - k) ≤ 2 ^ w := by
    rw [← whole, ← Nat.succ_mul]
    exact Nat.mul_le_mul_right _ (Nat.mod_lt _ (Nat.two_pow_pos k))
  have parts : 2 * (n % 2 ^ (k + 1) * 2 ^ (w - (k + 1))) =
      n % 2 ^ k * 2 ^ (w - k) + 2 ^ w * (n / 2 ^ k % 2) := by
    rw [mul_left_comm, twice, next, ← whole]
    ring
  have small : n % 2 ^ k * 2 ^ (w - k) + 2 * (n / 2 ^ (k + 1) / d / 2) < 2 ^ w := by omega
  rw [mul_add, parts, add_right_comm, Nat.add_mul_mod_self_left, Nat.mod_eq_of_lt small]
  omega

end

/- A divisor of two digits `v1`, `v0` in base `b`, a partial remainder `u` below it, and the
next digit `w` of the dividend. -/
variable {b v1 v0 u w : Nat}

/-- The next digit of the quotient. -/
def digit (b v1 v0 u w : Nat) : Nat := (u * b + w) / (v1 * b + v0)

/-- The partial remainder after that digit. -/
def rest (b v1 v0 u w : Nat) : Nat := (u * b + w) % (v1 * b + v0)

lemma digit_lt (hu : u < v1 * b + v0) (hw : w < b) : digit b v1 v0 u w < b := by
  apply Nat.div_lt_of_lt_mul
  calc u * b + w < (u + 1) * b := by rw [add_mul]; omega
    _ ≤ (v1 * b + v0) * b := Nat.mul_le_mul_right b hu

lemma digit_mul_add_rest (b v1 v0 u w : Nat) :
    u * b + w = digit b v1 v0 u w * (v1 * b + v0) + rest b v1 v0 u w :=
  (div_add_mod' _ _).symm

lemma rest_lt (hv : 0 < v1 * b + v0) : rest b v1 v0 u w < v1 * b + v0 := mod_lt _ hv

/-- An estimate `q` with its remainder `r` is too large exactly if the second divisor digit does
not fit. -/
lemma digit_lt_iff {q r : Nat} (hv : 0 < v1 * b + v0) (estimate : u = q * v1 + r) :
    digit b v1 v0 u w < q ↔ b * r + w < q * v0 := by
  have expand : u * b + w = q * v1 * b + (b * r + w) := by rw [estimate]; ring
  rw [digit, div_lt_iff_lt_mul hv, mul_add, ← mul_assoc]
  omega

/-- Leaving out the second digit of the divisor can only make the estimate too large. -/
lemma digit_le_estimate (hv : 0 < v1) (hw : w < b) : digit b v1 v0 u w ≤ u / v1 := by
  have hb : 0 < b := by omega
  calc (u * b + w) / (v1 * b + v0) ≤ (u * b + w) / (v1 * b) :=
        Nat.div_le_div_left (by omega) (mul_pos hv hb)
    _ = (u * b + w) / b / v1 := by rw [mul_comm v1, Nat.div_div_eq_div_mul]
    _ = u / v1 := by rw [mul_comm u b, Nat.mul_add_div hb, Nat.div_eq_of_lt hw, add_zero]

/-- Once the remainder of the estimate is a whole digit, the estimate is not too large. -/
lemma estimate_le_digit {q r : Nat} (hv0 : v0 < b) (hu : u < v1 * b + v0)
    (estimate : u = q * v1 + r) (hr : b ≤ r) : q ≤ digit b v1 v0 u w := by
  have below : q * v1 < b * v1 := by rw [mul_comm b]; omega
  have small : q < b := Nat.lt_of_mul_lt_mul_right below
  by_contra large
  have test := (digit_lt_iff (by omega) estimate).mp (Nat.lt_of_not_le large)
  have top : q * v0 ≤ b * v0 := Nat.mul_le_mul_right v0 small.le
  have square : b * v0 ≤ b * r := Nat.mul_le_mul_left b (by omega)
  omega

/-- Two digits in a row divide a dividend of one digit more. -/
lemma two_digits {x : Nat} (hv : 0 < v1 * b + v0) :
    divMod (u * b * b + w * b + x) (v1 * b + v0) =
      (digit b v1 v0 u w * b + digit b v1 v0 (rest b v1 v0 u w) x,
        rest b v1 v0 (rest b v1 v0 u w) x) := by
  apply divMod_eq (rest_lt hv)
  have first := digit_mul_add_rest b v1 v0 u w
  have second := digit_mul_add_rest b v1 v0 (rest b v1 v0 u w) x
  calc u * b * b + w * b + x = (u * b + w) * b + x := by ring
    _ = digit b v1 v0 u w * b * (v1 * b + v0) + (rest b v1 v0 u w * b + x) := by rw [first]; ring
    _ = _ := by rw [second]; ring

end LongDivision
