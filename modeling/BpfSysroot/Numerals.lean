import Mathlib

/-!
# Positional numerals

Numbers written in a base, with the leading digit first. A numeral of fixed
length has leading zeros (`padded`); the canonical numeral has none (`numeral`).
Splitting a number by a power of the base splits both kinds of numerals, and
that is how a number is written in pieces.
-/

namespace Numerals

open List

variable {b : Nat}

/-- The number that a list of digits stands for. -/
def value (b : Nat) (ds : List Nat) : Nat := Nat.ofDigits b ds.reverse

/-- The last `k` digits of a number. -/
def padded (b : Nat) : Nat → Nat → List Nat
  | 0, _ => []
  | k + 1, n => padded b k (n / b) ++ [n % b]

/-- The numeral without leading zeros. -/
def numeral (b n : Nat) : List Nat := if n = 0 then [0] else (Nat.digits b n).reverse

/-- What makes a list of digits the canonical numeral of a number. -/
structure Canonical (b n : Nat) (ds : List Nat) : Prop where
  digits : ∀ d ∈ ds, d < b
  value_eq : value b ds = n
  nonempty : ds ≠ []
  leading : ds.head? = some 0 → ds = [0]

@[simp] theorem value_singleton (d : Nat) : value b [d] = d := by simp [value]

lemma value_eq_foldl (ds : List Nat) : value b ds = ds.foldl (fun n d => n * b + d) 0 := by
  rw [value, Nat.ofDigits_eq_foldr]
  simp [mul_comm, add_comm]

lemma le_foldl (hb : 0 < b) (ds : List Nat) (n : Nat) :
    n ≤ ds.foldl (fun n d => n * b + d) n := by
  induction ds generalizing n with
  | nil => exact le_refl n
  | cons d ds ih =>
    calc n ≤ n * b := Nat.le_mul_of_pos_right n hb
      _ ≤ n * b + d := Nat.le_add_right _ d
      _ ≤ _ := ih (n * b + d)

@[simp] theorem length_padded (k n : Nat) : (padded b k n).length = k := by
  induction k generalizing n with
  | zero => rfl
  | succ k ih => simp [padded, ih]

lemma padded_add (j k n : Nat) : padded b (j + k) n = padded b j (n / b ^ k) ++ padded b k n := by
  induction k generalizing n with
  | zero => simp [padded]
  | succ k ih =>
    rw [← add_assoc, padded, padded, ih, append_assoc, Nat.div_div_eq_div_mul, pow_succ, mul_comm b]

lemma padded_mod (k n : Nat) : padded b k (n % b ^ k) = padded b k n := by
  induction k generalizing n with
  | zero => rfl
  | succ k ih =>
    have high : n % b ^ (k + 1) / b = n / b % b ^ k := by
      rw [pow_succ, mul_comm, Nat.mod_mul_right_div_self]
    have low : n % b ^ (k + 1) % b = n % b :=
      Nat.mod_mod_of_dvd n (pow_succ b k ▸ Nat.dvd_mul_left b (b ^ k))
    rw [padded, padded, high, low, ih]

lemma numeral_of_lt {n : Nat} (small : n < b) : numeral b n = [n] := by
  by_cases zero : n = 0
  · simp [numeral, zero]
  · simp [numeral, zero, Nat.digits_of_lt b n zero small]

lemma numeral_of_le {n : Nat} (hb : 1 < b) (large : b ≤ n) :
    numeral b n = numeral b (n / b) ++ [n % b] := by
  have whole : n ≠ 0 := by omega
  have high : n / b ≠ 0 := (Nat.div_pos large (by omega)).ne'
  simp only [numeral, whole, high, if_false, Nat.digits_eq_cons_digits_div hb whole, reverse_cons]

/-- A numeral is that of the leading part with the other digits after it. -/
lemma numeral_eq_append {n : Nat} (hb : 1 < b) (k : Nat) (large : b ^ k ≤ n) :
    numeral b n = numeral b (n / b ^ k) ++ padded b k n := by
  induction k generalizing n with
  | zero => simp [padded]
  | succ k ih =>
    have high : b ^ k ≤ n / b := by
      rw [Nat.le_div_iff_mul_le (by omega)]
      exact pow_succ b k ▸ large
    have whole : b ≤ n := (Nat.le_self_pow (by omega) b).trans large
    rw [numeral_of_le hb whole, ih high, padded, Nat.div_div_eq_div_mul, pow_succ,
      mul_comm b, append_assoc]

lemma length_numeral_le {n k : Nat} (hb : 1 < b) (small : n < b ^ (k + 1)) :
    (numeral b n).length ≤ k + 1 := by
  by_cases zero : n = 0
  · simp [numeral, zero]
  · simpa [numeral, zero] using (Nat.digits_length_le_iff hb n).mpr small

lemma padded_zero (k : Nat) : padded b k 0 = replicate k 0 := by
  induction k with
  | zero => rfl
  | succ k ih => rw [padded, Nat.zero_div, ih, Nat.zero_mod, replicate_succ']

/-- Leading zeros fill a numeral up to a given length. -/
lemma replicate_append_numeral {n k : Nat} (hb : 1 < b) (small : n < b ^ (k + 1)) :
    replicate (k + 1 - (numeral b n).length) 0 ++ numeral b n = padded b (k + 1) n := by
  induction k generalizing n with
  | zero =>
    rw [pow_one] at small
    simp [numeral_of_lt small, padded, Nat.mod_eq_of_lt small]
  | succ k ih =>
    by_cases digit : n < b
    · rw [numeral_of_lt digit, padded, Nat.div_eq_of_lt digit, padded_zero, Nat.mod_eq_of_lt digit]
      rfl
    · have high : n / b < b ^ (k + 1) := by
        apply Nat.div_lt_of_lt_mul
        rwa [← pow_succ']
      rw [numeral_of_le hb (Nat.le_of_not_lt digit), padded, ← ih high, length_append,
        length_singleton, Nat.add_sub_add_right, append_assoc]

lemma canonical_numeral (hb : 1 < b) (n : Nat) : Canonical b n (numeral b n) := by
  by_cases zero : n = 0
  · subst zero
    have digit : (0 : Nat) < b := by omega
    exact ⟨by simpa [numeral] using digit, by simp [numeral], by simp [numeral], by simp [numeral]⟩
  · have some_digit : Nat.digits b n ≠ [] := Nat.digits_ne_nil_iff_ne_zero.mpr zero
    simp only [numeral, zero, if_false]
    constructor
    · intro d member
      exact Nat.digits_lt_base hb (mem_reverse.mp member)
    · rw [value, reverse_reverse, Nat.ofDigits_digits]
    · simpa using some_digit
    · intro leading
      rw [head?_reverse, getLast?_eq_getLast_of_ne_nil some_digit] at leading
      exact absurd (Option.some.inj leading) (Nat.getLast_digit_ne_zero b zero)

end Numerals
