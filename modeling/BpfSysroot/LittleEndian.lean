import Mathlib

/-!
# Words from bytes

The word whose bytes, from the least significant one up, are those of a list; a list of fewer
than eight bytes is extended by zeros. Two pieces are joined by a shift and an or.
-/

namespace LittleEndian

open List

def word (bytes : List UInt8) : UInt64 := .ofNat (Nat.ofDigits 256 (bytes.map UInt8.toNat))

/-- The words of the complete groups of eight bytes. -/
def words : List UInt8 → List UInt64
  | b₀ :: b₁ :: b₂ :: b₃ :: b₄ :: b₅ :: b₆ :: b₇ :: rest =>
    word [b₀, b₁, b₂, b₃, b₄, b₅, b₆, b₇] :: words rest
  | _ => []

variable {a b : List UInt8}

lemma ofDigits_lt (bytes : List UInt8) :
    Nat.ofDigits 256 (bytes.map UInt8.toNat) < 256 ^ bytes.length := by
  have digits := Nat.ofDigits_lt_base_pow_length (b := 256) (l := bytes.map UInt8.toNat)
    (by decide) fun d member => by
      obtain ⟨byte, -, rfl⟩ := mem_map.mp member
      exact byte.toNat_lt
  rwa [length_map] at digits

lemma toNat_word (bytes : List UInt8) (short : bytes.length ≤ 8) :
    (word bytes).toNat = Nat.ofDigits 256 (bytes.map UInt8.toNat) := by
  have less := ofDigits_lt bytes
  have bound : 256 ^ bytes.length ≤ 256 ^ 8 := Nat.pow_le_pow_right (by decide) short
  rw [word, UInt64.toNat_ofNat', Nat.mod_eq_of_lt]
  exact lt_of_lt_of_le less bound

lemma word_singleton (byte : UInt8) : word [byte] = byte.toUInt64 := by
  apply UInt64.toNat_inj.mp
  rw [toNat_word _ (Nat.le_of_ble_eq_true rfl)]
  exact Nat.ofDigits_singleton

lemma word_zeros (n : Nat) : word (replicate n 0) = 0 := by
  rw [word, map_replicate]
  have zero : Nat.ofDigits 256 (replicate n (0 : UInt8).toNat) = 0 := by
    induction n with
    | zero => rfl
    | succ n ih =>
      rw [replicate_succ, Nat.ofDigits_cons, ih]
      rfl
  rw [zero]
  rfl

/-- The bytes that follow are shifted over those that are there. -/
lemma word_append (short : a.length + b.length ≤ 8) (room : a.length < 8) :
    word (a ++ b) = word a ||| word b <<< UInt64.ofNat (8 * a.length) := by
  have less := ofDigits_lt a
  have whole := toNat_word (a ++ b) (by rw [length_append]; exact short)
  have bound := (word (a ++ b)).toNat_lt
  rw [map_append, Nat.ofDigits_append, length_map] at whole
  have power : 256 ^ a.length = 2 ^ (8 * a.length) := by
    rw [Nat.pow_mul]
  apply UInt64.toNat_inj.mp
  rw [whole, UInt64.toNat_or, UInt64.toNat_shiftLeft, toNat_word a (by omega),
    toNat_word b (by omega)]
  have amount : (UInt64.ofNat (8 * a.length)).toNat % 64 = 8 * a.length := by
    rw [UInt64.toNat_ofNat']
    omega
  rw [amount, Nat.shiftLeft_eq, Nat.mod_eq_of_lt, Nat.or_comm]
  · rw [power] at less ⊢
    rw [mul_comm _ (2 ^ _), ← Nat.two_pow_add_eq_or_of_lt less]
    exact add_comm _ _
  · rw [mul_comm, ← power]
    omega

lemma words_append_of_length (group : a.length = 8) : words (a ++ b) = word a :: words b := by
  match a, group with
  | [_, _, _, _, _, _, _, _], _ => rfl

lemma words_of_length (group : a.length = 8) : words a = [word a] := by
  have alone := words_append_of_length (b := []) group
  rwa [append_nil] at alone

lemma words_append (groups : 8 ∣ a.length) : words (a ++ b) = words a ++ words b := by
  obtain ⟨n, length⟩ := groups
  induction n generalizing a with
  | zero =>
    rw [eq_nil_of_length_eq_zero length]
    rfl
  | succ n ih =>
    have first : (a.take 8).length = 8 := by
      rw [length_take]
      omega
    have rest : (a.drop 8).length = 8 * n := by
      rw [length_drop]
      omega
    rw [← take_append_drop 8 a, append_assoc, words_append_of_length first,
      words_append_of_length first, ih rest]
    rfl

end LittleEndian
