import BpfSysroot.DisplayInt

/-!
# Parsing integers

`from_str_radix` of `core/src/num/mod.rs` with `char::to_digit`, for every integer
type. The accumulator is an integer of the type, and the checked operations fail
when their result leaves its range. `none` is the panic of the radix assertion.
-/

namespace ParseInt

open DisplayInt Numerals List Option

inductive IntErrorKind where
  | empty | invalidDigit | posOverflow | negOverflow
  deriving DecidableEq, Repr

/-- `u as Self`. -/
def fromU32 (t : IntType) (u : Nat) : Int :=
  if t.signed then (BitVec.ofNat t.width u).toInt else (BitVec.ofNat t.width u).toNat

def checked (t : IntType) (n : Int) : Option Int := if t.Contains n then some n else none

section
variable (t : IntType) (n : Int) (other : Nat)

def checkedMul : Option Int := checked t (n * fromU32 t other)

def checkedSub : Option Int := checked t (n - fromU32 t other)

def checkedAdd : Option Int := checked t (n + fromU32 t other)

end

/-- The value of a character; up to radix 10 only the digits are looked at. -/
def charVal (c : Nat) (radix : Nat) : Option Nat :=
  if radix ≤ 10 then
    if 48 ≤ c ∧ c ≤ 57 then some (c - 48) else none
  else if 48 ≤ c ∧ c ≤ 57 then some (c - 48)
  else if 97 ≤ c ∧ c ≤ 122 then some (c - 97 + 10)
  else if 65 ≤ c ∧ c ≤ 90 then some (c - 65 + 10)
  else none

/-- `char::to_digit` of a byte, for a radix of at most 36. -/
def toDigit (c : UInt8) (radix : Nat) : Option Nat := do
  let val ← charVal c.toNat radix
  if val < radix then some val else none

def isSignedTy (t : IntType) : Bool := decide (t.min < fromU32 t 0)

/-- The error of both checked operations of a loop. -/
def overflow (isPositive : Bool) : IntErrorKind := if isPositive then .posOverflow else .negOverflow

/-- The two loops over the digits: a negative number is accumulated downwards. -/
def accumulate (t : IntType) (radix : Nat) (isPositive : Bool) :
    List UInt8 → Int → Except IntErrorKind Int
  | [], result => .ok result
  | c :: digits, result =>
    match toDigit c radix with
    | none => .error .invalidDigit
    | some x =>
      match checkedMul t result radix with
      | none => .error (overflow isPositive)
      | some result =>
        match if isPositive then checkedAdd t result x else checkedSub t result x with
        | none => .error (overflow isPositive)
        | some result => accumulate t radix isPositive digits result

/-- The sign and the digits; a lone sign has no digits. -/
def splitSign (t : IntType) : List UInt8 → Except IntErrorKind (Bool × List UInt8)
  | [] => .error .empty
  | c :: rest =>
    if (c = 43 ∨ c = 45) ∧ rest = [] then .error .invalidDigit
    else if c = 43 then .ok (true, rest)
    else if c = 45 ∧ isSignedTy t then .ok (false, rest)
    else .ok (true, c :: rest)

def fromStrRadix (t : IntType) (src : List UInt8) (radix : Nat) :
    Option (Except IntErrorKind Int) :=
  if 2 ≤ radix ∧ radix ≤ 36 then
    some (do
      let (isPositive, digits) ← splitSign t src
      accumulate t radix isPositive digits (fromU32 t 0))
  else none

/-- The digit that a byte stands for in the largest radix. -/
def digitValue (c : UInt8) : Option Nat :=
  if 48 ≤ c ∧ c ≤ 57 then some (c.toNat - 48)
  else if 97 ≤ c ∧ c ≤ 122 then some (c.toNat - 87)
  else if 65 ≤ c ∧ c ≤ 90 then some (c.toNat - 55)
  else none

def IsDigit (radix : Nat) (c : UInt8) (d : Nat) : Prop := digitValue c = some d ∧ d < radix

/-- At least one digit, and the number that the digits stand for. -/
def Denotes (radix : Nat) (digits : List UInt8) (n : Nat) : Prop :=
  digits ≠ [] ∧ ∃ ds, List.Forall₂ (IsDigit radix) digits ds ∧ value radix ds = n

/-- The integer literals of a type: digits after an optional sign. -/
inductive Literal (t : IntType) (radix : Nat) : List UInt8 → Int → Prop where
  | bare {digits : List UInt8} {n : Nat} (denotes : Denotes radix digits n) :
    Literal t radix digits n
  | plus {digits : List UInt8} {n : Nat} (denotes : Denotes radix digits n) :
    Literal t radix (43 :: digits) n
  | minus {digits : List UInt8} {n : Nat} (signed : t.signed)
      (denotes : Denotes radix digits n) : Literal t radix (45 :: digits) (-n)

lemma toDigit_eq_some_iff {c : UInt8} {radix d : Nat} :
    toDigit c radix = some d ↔ IsDigit radix c d := by
  have same : toDigit c radix = some d ↔ charVal c.toNat radix = some d ∧ d < radix := by
    rw [toDigit]
    cases charVal c.toNat radix with
    | none => simp
    | some val =>
      simp only [bind_eq_bind, bind_some, some.injEq]
      split <;> grind
  rw [same, IsDigit, digitValue, charVal]
  simp only [UInt8.le_iff_toNat_le, UInt8.reduceToNat]
  -- letters are too large for the radices that do not look at them
  grind

lemma fromU32_small (t : IntType) {u : Nat} (small : u ≤ 36) : fromU32 t u = u := by
  have table : ∀ v : Fin 37, fromU32 t v.val = v.val := by cases t <;> decide +kernel
  exact table ⟨u, by omega⟩

lemma isSignedTy_eq (t : IntType) : isSignedTy t = t.signed := by cases t <;> decide +kernel

/-- The number with the sign that was read. -/
def withSign (isPositive : Bool) (n : Nat) : Int := if isPositive then n else -n

lemma contains_of_le {t : IntType} {isPositive : Bool} {m n : Nat} (le : m ≤ n)
    (inside : t.Contains (withSign isPositive n)) : t.Contains (withSign isPositive m) := by
  have zero : t.min ≤ 0 ∧ 0 ≤ t.max := by cases t <;> decide
  obtain ⟨low, high⟩ := inside
  constructor <;> cases isPositive <;> simp [withSign] at * <;> omega

section
variable {t : IntType} {radix : Nat} {isPositive : Bool}

lemma withSign_mul (m : Nat) (small : radix ≤ 36) :
    withSign isPositive m * fromU32 t radix = withSign isPositive (m * radix) := by
  rw [fromU32_small t small]
  cases isPositive <;> simp [withSign]

/-- One round of the loop, as a check of the new accumulator alone. -/
lemma advance_eq (m : Nat) {x : Nat} (small : radix ≤ 36) (digit : x < radix) :
    ((checkedMul t (withSign isPositive m) radix).bind fun result =>
        if isPositive then checkedAdd t result x else checkedSub t result x) =
      checked t (withSign isPositive (m * radix + x)) := by
  have cast := fromU32_small t (show x ≤ 36 by omega)
  have next : (if isPositive then checkedAdd t (withSign isPositive (m * radix)) x
      else checkedSub t (withSign isPositive (m * radix)) x) =
      checked t (withSign isPositive (m * radix + x)) := by
    cases isPositive with
    | false =>
      simp only [Bool.false_eq_true, if_false, checkedSub, withSign, cast]
      congr 1
      omega
    | true => simp only [if_true, checkedAdd, withSign, cast, Nat.cast_add]
  rw [checkedMul, withSign_mul m small, checked]
  by_cases inside : t.Contains (withSign isPositive (m * radix))
  · rw [if_pos inside, bind_some, next]
  · have outside : ¬ t.Contains (withSign isPositive (m * radix + x)) :=
      mt (contains_of_le (Nat.le_add_right _ x)) inside
    rw [if_neg inside, bind_none, checked, if_neg outside]

lemma accumulate_cons {c : UInt8} {x : Nat} (read : toDigit c radix = some x)
    (digits : List UInt8) (result : Int) :
    accumulate t radix isPositive (c :: digits) result =
      match (checkedMul t result radix).bind fun result =>
        if isPositive then checkedAdd t result x else checkedSub t result x with
      | none => .error (overflow isPositive)
      | some result => accumulate t radix isPositive digits result := by
  rw [accumulate, read]
  cases checkedMul t result radix <;> rfl

/-- The loop succeeds exactly on digits whose value, continued from `m`, is in range. -/
lemma accumulate_eq_ok_iff (low : 2 ≤ radix) (high : radix ≤ 36) (digits : List UInt8)
    (m : Nat) (inside : t.Contains (withSign isPositive m)) (v : Int) :
    accumulate t radix isPositive digits (withSign isPositive m) = .ok v ↔
      ∃ ds, List.Forall₂ (IsDigit radix) digits ds ∧
        v = withSign isPositive (ds.foldl (fun n d => n * radix + d) m) ∧ t.Contains v := by
  induction digits generalizing m with
  | nil =>
    constructor
    · intro done
      cases done
      exact ⟨[], .nil, rfl, inside⟩
    · rintro ⟨ds, read, rfl, -⟩
      cases read
      rfl
  | cons c digits ih =>
    cases read : toDigit c radix with
    | none =>
      constructor
      · intro done
        rw [accumulate, read] at done
        cases done
      · rintro ⟨ds, all, -⟩
        cases all with
        | cons first _ => cases read.symm.trans (toDigit_eq_some_iff.mpr first)
    | some x =>
      have digit := toDigit_eq_some_iff.mp read
      rw [accumulate_cons read, advance_eq m high digit.2, checked]
      by_cases fits : t.Contains (withSign isPositive (m * radix + x))
      · rw [if_pos fits]
        refine (ih (m * radix + x) fits).trans ?_
        constructor
        · rintro ⟨ds, all, result⟩
          exact ⟨x :: ds, .cons digit all, result⟩
        · rintro ⟨ds, all, result⟩
          cases all with
          | cons first all =>
            cases first.1.symm.trans digit.1
            exact ⟨_, all, result⟩
      · rw [if_neg fits]
        constructor
        · intro done
          cases done
        · rintro ⟨ds, all, rfl, result⟩
          cases all with
          | cons first all =>
            cases first.1.symm.trans digit.1
            rw [foldl_cons] at result
            exact absurd (contains_of_le (le_foldl (by omega) _ _) result) fits

end

section
variable {t : IntType} {radix : Nat}

lemma accumulate_zero_iff (low : 2 ≤ radix) (high : radix ≤ 36) (isPositive : Bool)
    {digits : List UInt8} (nonempty : digits ≠ []) (v : Int) :
    accumulate t radix isPositive digits (fromU32 t 0) = .ok v ↔
      ∃ n, Denotes radix digits n ∧ v = withSign isPositive n ∧ t.Contains v := by
  have zero : fromU32 t 0 = withSign isPositive 0 := by
    rw [fromU32_small t (by decide)]
    cases isPositive <;> rfl
  have inside : t.Contains (withSign isPositive 0) := by
    cases isPositive <;> cases t <;> decide
  rw [zero, accumulate_eq_ok_iff low high digits 0 inside]
  simp only [← value_eq_foldl]
  constructor
  · rintro ⟨ds, all, result⟩
    exact ⟨value radix ds, ⟨nonempty, ds, all, rfl⟩, result⟩
  · rintro ⟨n, ⟨-, ds, all, rfl⟩, result⟩
    exact ⟨ds, all, result⟩

lemma Denotes.head_ne {c : UInt8} {rest : List UInt8} {n : Nat}
    (denotes : Denotes radix (c :: rest) n) : c ≠ 43 ∧ c ≠ 45 := by
  obtain ⟨-, ds, all, -⟩ := denotes
  cases all with
  | cons first _ =>
    have plus : digitValue 43 = none := by decide
    have minus : digitValue 45 = none := by decide
    constructor
    · rintro rfl
      cases plus.symm.trans first.1
    · rintro rfl
      cases minus.symm.trans first.1

/-- The literals are what the sign and the digits after it make. -/
lemma literal_iff (src : List UInt8) (v : Int) :
    Literal t radix src v ↔ ∃ isPositive digits n,
      splitSign t src = .ok (isPositive, digits) ∧ Denotes radix digits n ∧
        v = withSign isPositive n := by
  constructor
  · intro literal
    cases literal with
    | bare denotes =>
      cases src with
      | nil => exact absurd rfl denotes.1
      | cons c rest =>
        obtain ⟨plus, minus⟩ := denotes.head_ne
        exact ⟨true, c :: rest, _, by simp [splitSign, plus, minus], denotes, rfl⟩
    | plus denotes =>
      exact ⟨true, _, _, by simp [splitSign, denotes.1], denotes, rfl⟩
    | minus signed denotes =>
      exact ⟨false, _, _, by simp [splitSign, denotes.1, isSignedTy_eq, signed], denotes, rfl⟩
  · rintro ⟨isPositive, digits, n, split, denotes, rfl⟩
    cases src with
    | nil => cases split
    | cons c rest =>
      rw [splitSign, isSignedTy_eq] at split
      split_ifs at split with lone plus minus
      · cases split
        exact plus ▸ .plus denotes
      · cases split
        exact minus.1 ▸ .minus minus.2 denotes
      · cases split
        exact .bare denotes

lemma splitSign_ne_nil {src digits : List UInt8} {isPositive : Bool}
    (split : splitSign t src = .ok (isPositive, digits)) : digits ≠ [] := by
  cases src with
  | nil => cases split
  | cons c rest =>
    rw [splitSign] at split
    split_ifs at split with lone plus minus
    · cases split
      exact fun empty => lone ⟨.inl plus, empty⟩
    · cases split
      exact fun empty => lone ⟨.inr minus.1, empty⟩
    · cases split
      exact cons_ne_nil c rest

lemma fromStrRadix_eq_ok_iff (low : 2 ≤ radix) (high : radix ≤ 36) (src : List UInt8) (v : Int) :
    fromStrRadix t src radix = some (.ok v) ↔ Literal t radix src v ∧ t.Contains v := by
  rw [fromStrRadix, if_pos ⟨low, high⟩, literal_iff, some.injEq]
  cases split : splitSign t src with
  | error kind =>
    constructor
    · intro failed
      cases failed
    · rintro ⟨⟨_, _, _, succeeded, _⟩, _⟩
      cases succeeded
  | ok parts =>
    obtain ⟨isPositive, digits⟩ := parts
    refine (accumulate_zero_iff low high isPositive (splitSign_ne_nil split) v).trans ?_
    constructor
    · rintro ⟨n, denotes, rfl, inside⟩
      exact ⟨⟨isPositive, digits, n, rfl, denotes, rfl⟩, inside⟩
    · rintro ⟨⟨_, _, n, same, denotes, rfl⟩, inside⟩
      cases same
      exact ⟨n, denotes, rfl, inside⟩

end

/-- The canonical decimal text of an integer: the sign exactly for negative numbers, then the
digits of the magnitude without leading zeros. -/
def CanonicalText (n : Int) (text : List UInt8) : Prop :=
  ∃ ds, Canonical 10 n.natAbs ds ∧ text = if n < 0 then 45 :: ascii ds else ascii ds

lemma denotes_ascii {n : Nat} {ds : List Nat} (canonical : Canonical 10 n ds) :
    Denotes 10 (ascii ds) n := by
  obtain ⟨digits, value_eq, nonempty, -⟩ := canonical
  have table : ∀ d : Fin 10, digitValue (digitByte d.val) = some d.val := by decide
  refine ⟨by simpa [ascii] using nonempty, ds, ?_, value_eq⟩
  rw [ascii, forall₂_map_left_iff, forall₂_same]
  intro d member
  exact ⟨table ⟨d, digits d member⟩, digits d member⟩

lemma literal_of_canonicalText {t : IntType} {n : Int} {text : List UInt8}
    (inside : t.Contains n) (canonical : CanonicalText n text) : Literal t 10 text n := by
  obtain ⟨ds, canonical, rfl⟩ := canonical
  have denotes := denotes_ascii canonical
  by_cases negative : n < 0
  · have signed : t.signed := by
      by_contra unsigned
      have low := inside.1
      rw [IntType.min, if_neg unsigned] at low
      omega
    have value : n = -(n.natAbs : Int) := by omega
    rw [if_pos negative]
    conv in Literal t 10 _ n => rw [value]
    exact .minus signed denotes
  · have value : n = (n.natAbs : Int) := by omega
    conv in Literal t 10 _ n => rw [value]
    exact .bare denotes

/-- Display writes the canonical text of every integer, all of it inside the buffer, and parsing
reads it back; parsing succeeds exactly on the literals whose value is in range. -/
theorem print_parse (t : IntType) :
    (∀ n, t.Contains n → ∃ text, display t n = some text ∧ CanonicalText n text ∧
      fromStrRadix t text 10 = some (.ok n)) ∧
    (∀ src radix, 2 ≤ radix → radix ≤ 36 → ∀ v,
      fromStrRadix t src radix = some (.ok v) ↔ Literal t radix src v ∧ t.Contains v) := by
  constructor
  · intro n inside
    have canonical :
        CanonicalText n (padIntegral .new (decide (0 ≤ n)) [] (ascii (numeral 10 n.natAbs))) := by
      refine ⟨numeral 10 n.natAbs, canonical_numeral (by decide) _, ?_⟩
      by_cases nonneg : 0 ≤ n
      · simp [padIntegral, Formatter.new, nonneg, Int.not_lt.mpr nonneg]
      · simp [padIntegral, Formatter.new, nonneg, Int.not_le.mp nonneg]
    refine ⟨_, display_eq inside, canonical, ?_⟩
    rw [fromStrRadix_eq_ok_iff (by decide) (by decide)]
    exact ⟨literal_of_canonicalText inside canonical, inside⟩
  · intro src radix low high v
    exact fromStrRadix_eq_ok_iff low high src v

theorem print_parse_extremes :
    (∃ text, display .i128 (-2 ^ 127) = some text ∧
      fromStrRadix .i128 text 10 = some (.ok (-2 ^ 127))) ∧ Literal .u8 16 [43, 70, 102] 255 := by
  constructor
  · obtain ⟨text, shown, -, parsed⟩ := (print_parse .i128).1 (-2 ^ 127) (by decide)
    exact ⟨text, shown, parsed⟩
  · exact (((print_parse .u8).2 [43, 70, 102] 16 (by decide) (by decide) 255).mp (by decide)).1

end ParseInt
