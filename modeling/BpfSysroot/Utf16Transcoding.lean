import BpfSysroot.Wtf8

/-!
# UTF-16 round trips and size hints

`char::encode_utf16`, `decode_utf16` and `String::from_utf16`, and the size hints of the iterators
`DecodeUtf16`, `EncodeUtf16` and `EncodeWide`. Each of these keeps one unit in a side slot, which
its size hint does not count.
-/

namespace Wtf8

open Utf8 Utf16 Chars DoubleEnded List

abbrev Item := Except UInt16 Char

def encodeUtf16 (c : Char) : Option (List UInt16) := encodeUtf16Raw c.val [0, 0]

/-- Each char replaced by its units, each error by its surrogate. -/
def unitsOf : List Item → Option (List UInt16)
  | [] => some []
  | .ok c :: items => do return (← encodeUtf16 c) ++ (← unitsOf items)
  | .error u :: items => do return u :: (← unitsOf items)

def stringPush (bytes : List UInt8) (c : Char) : Option (List UInt8) :=
  if lenUtf8 c.val = 1 then some (bytes ++ [c.val.toUInt8])
  else do return bytes ++ (← encodeUtf8 c [0, 0, 0, 0])

/-- The loop of `from_utf16`. -/
def pushUtf16 (ret : List UInt8) (s : DecodeUtf16) : Option (Except Unit (List UInt8)) :=
  match _answer : s.next with
  | none => none
  | some (none, _) => some (.ok ret)
  | some (some (.ok c), s') => (stringPush ret c).bind (pushUtf16 · s')
  | some (some (.error _), _) => some (.error ())
termination_by s.left.length
decreasing_by exact DecodeUtf16.next_shorter _answer

def fromUtf16 (v : List UInt16) : Option (Except Unit (List UInt8)) := pushUtf16 [] ⟨v, none⟩

/-- The item that stands for a code point. -/
def itemOf (n : Nat) : Item :=
  if valid : n.isValidChar then .ok (Char.ofNatAux n valid) else .error (.ofNat n)

lemma itemOf_toNat (c : Char) : itemOf c.toNat = .ok c := by
  rw [itemOf, dif_pos (isValidChar_toNat c)]
  rfl

lemma isValidChar_iff {n : Nat} (small : n < 0x110000) :
    n.isValidChar ↔ ¬ (IsLead n ∨ IsTrail n) := by
  rw [IsLead, IsTrail]
  omega

lemma eq_itemOf {item : Item} (small : number item < 0x110000)
    (surrogate : ∀ u, item = .error u → IsLead (number item) ∨ IsTrail (number item)) :
    item = itemOf (number item) := by
  cases item with
  | ok c => exact (itemOf_toNat c).symm
  | error u =>
    have invalid := fun valid => (isValidChar_iff small).mp valid (surrogate u rfl)
    rw [itemOf, dif_neg invalid, number, UInt16.ofNat_toNat]

/-- The items that are left: one for each code point that the units left stand for. -/
def DecodeUtf16.Left (s : DecodeUtf16) (items : List Item) : Prop :=
  items = (decode (s.left.map UInt16.toNat)).map itemOf

lemma DecodeUtf16.next_reads {s : DecodeUtf16} {items : List Item} (h : s.Left items) :
    ∃ s', s.next = some (items.head?, s') ∧ s'.Left items.tail := by
  have spec := next_decode s
  have small := decode_lt (toNat_lt s.left)
  subst h
  split at spec
  next none =>
    obtain ⟨s', answer⟩ := spec
    have ended : s' = s := by
      rw [DecodeUtf16.next, take_eq] at answer
      cases units : s.left with
      | nil => simp_all
      | cons u rest => cases rest <;> simp [units, decode] at none; split at none <;> cases none
    exact ⟨s', by rw [answer, none]; rfl, by rw [ended, Left, none]; rfl⟩
  next n rest found =>
    obtain ⟨item, s', answer, ⟨first, surrogate⟩, later⟩ := spec
    rw [found] at small
    subst first
    have same := eq_itemOf (small _ (by simp)) surrogate
    refine ⟨s', ?_, ?_⟩
    · rw [answer, found, map_cons, ← same]
      rfl
    · rw [found, Left, later]
      rfl

lemma yields_decode (s : DecodeUtf16) :
    Yields DecodeUtf16.next ((decode (s.left.map UInt16.toNat)).map itemOf) s :=
  yields_of_reads DecodeUtf16.next_reads _ rfl

lemma unitsOf_itemOf {points : List Nat} (bound : Bounded points) :
    unitsOf (points.map itemOf) = some (points.flatMap wide) := by
  induction points with
  | nil => rfl
  | cons n points ih =>
    obtain ⟨small, rest⟩ := bounded_cons.mp bound
    rw [map_cons, itemOf]
    split
    next valid =>
      have written : encodeUtf16 (Char.ofNatAux n valid) = some (wide n) :=
        @encodeUtf16Raw_wide (Char.ofNatAux n valid).val small
      simp [unitsOf, written, ih rest]
    next invalid =>
      have plane : n < 0x10000 := by
        rcases not_not.mp ((isValidChar_iff small).not.mp invalid) with h | h <;>
          obtain ⟨-, high⟩ := h <;> omega
      simp [unitsOf, wide, units_of_lt plane, ih rest]

lemma stringPush_eq (bytes : List UInt8) (c : Char) :
    stringPush bytes c = some (bytes ++ encoding c.toNat) := by
  have whole := @encodeUtf8_eq c [0, 0, 0, 0] (le_refl 4)
  rw [stringPush]
  split
  next one =>
    have ascii : c.toNat < 0x80 := by
      rw [lenUtf8_eq] at one
      split_ifs at one with h <;> first | exact h | cases one
    have byte : c.val.toUInt8 = .ofNat c.toNat := eq_ofNat (by
      exact Nat.mod_eq_of_lt (ascii.trans (by decide)))
    rw [encoding, if_pos ascii, byte]
  next => rw [whole]; rfl

/-- `from_utf16` writes the chars if there is no error among the items, and else fails. -/
lemma pushUtf16_eq (items : List Item) : ∀ {s : DecodeUtf16} (ret : List UInt8),
    Yields DecodeUtf16.next items s →
    (∀ cs, items = cs.map .ok → pushUtf16 ret s = some (.ok (ret ++ encodings cs))) ∧
      ∀ u, .error u ∈ items → pushUtf16 ret s = some (.error ()) := by
  induction items with
  | nil =>
    rintro s ret ⟨s', ended⟩
    rw [pushUtf16, ended]
    refine ⟨?_, nofun⟩
    rintro cs none
    rw [List.map_eq_nil_iff.mp none.symm]
    simp [encodings]
  | cons item items ih =>
    rintro s ret ⟨s', answer, later⟩
    rw [pushUtf16, answer]
    cases item with
    | error u =>
      refine ⟨fun cs ok => ?_, fun _ _ => rfl⟩
      cases cs <;> simp at ok
    | ok c =>
      simp only [stringPush_eq, Option.bind_some]
      refine ⟨fun cs ok => ?_, fun u found => ?_⟩
      · cases cs with
        | nil => cases ok
        | cons d cs =>
          rw [map_cons, List.cons.injEq, Except.ok.injEq] at ok
          rw [(ih _ later).1 cs ok.2, ok.1, encodings_cons, append_assoc]
      · rcases List.mem_cons.mp found with same | found
        · cases same
        · exact (ih _ later).2 u found

/-- For each unit of an item whether it is reported as an error. -/
def reported : Item → List Bool
  | .ok c => (wide c.toNat).map fun _ => false
  | .error _ => [true]

lemma reported_itemOf {n : Nat} (small : n < 0x110000) : reported (itemOf n) = flags n := by
  have valid := isValidChar_iff small
  rw [itemOf, flags]
  split
  next h =>
    rw [if_neg (valid.mp h), reported, wide, map_map]
    rfl
  next h => rw [if_pos (not_not.mp (valid.not.mp h)), reported]

/-- The units of chars decode to them. Any units decode to items that stand for them, in which the
surrogates without their other half are the errors, and `from_utf16` fails if there is one. -/
theorem utf16_round_trip :
    (∀ cs : List Char, ∃ us, unitsOf (cs.map .ok) = some us ∧
      Yields DecodeUtf16.next (cs.map .ok) ⟨us, none⟩) ∧
    ∀ v : List UInt16, ∃ items, Yields DecodeUtf16.next items ⟨v, none⟩ ∧
      unitsOf items = some v ∧
      items.flatMap reported = unpaired none (v.map UInt16.toNat) ∧
      (∀ cs, items = cs.map .ok → fromUtf16 v = some (.ok (encodings cs))) ∧
      ∀ u, .error u ∈ items → fromUtf16 v = some (.error ()) := by
  constructor
  · intro cs
    obtain ⟨⟨-, bound, unpaired⟩, -⟩ := holds_encodings cs
    have items : cs.map Except.ok = (cs.map Char.toNat).map itemOf := by
      rw [List.map_map]
      exact List.map_congr_left fun c _ => (itemOf_toNat c).symm
    refine ⟨_, items ▸ unitsOf_itemOf bound, ?_⟩
    have given := yields_decode ⟨(cs.map Char.toNat).flatMap wide, none⟩
    rwa [DecodeUtf16.left, Option.toList_none, List.nil_append, toNat_wides bound,
      decode_units bound unpaired, ← items] at given
  · intro v
    have small := toNat_lt v
    have bound : Bounded (decode (v.map UInt16.toNat)) := decode_lt small
    have given := yields_decode ⟨v, none⟩
    refine ⟨_, given, ?_, ?_, pushUtf16_eq _ [] given⟩
    · rw [DecodeUtf16.left, Option.toList_none, List.nil_append, unitsOf_itemOf bound, wide_eq,
        units_decode small, map_ofNat_toNat]
    · rw [← flags_decode small (by simp), List.flatMap_map]
      exact List.flatMap_congr fun n member => reported_itemOf (bound n member)

structure EncodeUtf16 where
  chars : List UInt8
  extra : UInt16

def EncodeUtf16.next (s : EncodeUtf16) : Option (Option UInt16 × EncodeUtf16) :=
  if s.extra ≠ 0 then some (some s.extra, { s with extra := 0 })
  else do
    match ← Chars.next s.chars with
    | (none, chars) => return (none, { s with chars })
    | (some ch, chars) =>
      match ← encodeUtf16 ch with
      | [] => none
      | [first] => return (some first, { s with chars })
      | first :: second :: _ => return (some first, ⟨chars, second⟩)

def checkedMul (m n : Nat) : Option Nat := if m * n < 2 ^ 64 then some (m * n) else none

def charsHint (iter : List UInt8) : Nat × Option Nat := ((iter.length + 3) / 4, some iter.length)

/-- `Wtf8CodePoints::size_hint`. -/
def codePointsHint (bytes : List UInt8) : Nat × Option Nat :=
  (min (bytes.length + 3) (2 ^ 64 - 1) / 4, some bytes.length)

/-- The iterator over the units delivers its length as both bounds. -/
def DecodeUtf16.sizeHint (s : DecodeUtf16) : Nat × Option Nat :=
  (s.iter.length / 2, some s.iter.length)

def EncodeUtf16.sizeHint (s : EncodeUtf16) : Nat × Option Nat :=
  ((charsHint s.chars).1, (charsHint s.chars).2.bind (checkedMul · 2))

def EncodeWide.sizeHint (s : EncodeWide) : Nat × Option Nat :=
  ((codePointsHint s.codePoints).1, (codePointsHint s.codePoints).2.bind (checkedMul · 2))

def Between (hint : Nat × Option Nat) (n : Nat) : Prop := hint.1 ≤ n ∧ ∀ high ∈ hint.2, n ≤ high

/-- An item has two units if it is beyond the first plane. -/
lemma length_units (points : List Nat) :
    (points.flatMap units).length = points.length + points.countP (0x10000 ≤ ·) := by
  induction points with
  | nil => rfl
  | cons n points ih =>
    by_cases plane : n < 0x10000
    · simp [units_of_lt plane, ih, plane]
      omega
    · simp [units, plane, ih, Nat.le_of_not_lt plane]
      omega

lemma DecodeUtf16.between_iff {s : DecodeUtf16} {items : List Item} (h : s.Left items) :
    Between s.sizeHint items.length ↔
      s.buf = none ∨ ∃ c, .ok c ∈ items ∧ 0x10000 ≤ c.toNat := by
  subst h
  have small := toNat_lt s.left
  have count := length_units (decode (s.left.map UInt16.toNat))
  rw [units_decode small, length_map] at count
  have pairs : (∃ c, .ok c ∈ (decode (s.left.map UInt16.toNat)).map itemOf ∧ 0x10000 ≤ c.toNat) ↔
      0 < (decode (s.left.map UInt16.toNat)).countP (0x10000 ≤ ·) := by
    simp only [countP_pos_iff, mem_map, decide_eq_true_eq]
    constructor
    · rintro ⟨c, ⟨n, member, item⟩, large⟩
      refine ⟨n, member, ?_⟩
      rw [itemOf] at item
      split at item
      · cases item
        exact large
      · cases item
    · rintro ⟨n, member, large⟩
      have valid : n.isValidChar := .inr ⟨by omega, decode_lt small n member⟩
      exact ⟨Char.ofNatAux n valid, ⟨n, member, dif_pos valid⟩, large⟩
  have most : (decode (s.left.map UInt16.toNat)).countP (0x10000 ≤ ·) ≤
    (decode (s.left.map UInt16.toNat)).length := countP_le_length
  have left_length : s.left.length = s.buf.toList.length + s.iter.length := length_append
  rw [pairs, Between, sizeHint]
  generalize (decode (s.left.map UInt16.toNat)).countP _ = wider at count most ⊢
  cases buf : s.buf <;> simp [buf] at left_length ⊢ <;> omega

lemma length_wides {points : List Nat} (bound : Bounded points) :
    (bytesOf points).length ≤ 4 * (points.flatMap wide).length ∧
      (points.flatMap wide).length + points.length ≤ 2 * (bytesOf points).length := by
  induction points with
  | nil => simp [bytesOf]
  | cons n points ih =>
    obtain ⟨small, rest⟩ := bounded_cons.mp bound
    obtain ⟨fewer, more⟩ := ih rest
    have one : (encoding n).length ≤ 4 * (wide n).length ∧
        (wide n).length + 1 ≤ 2 * (encoding n).length := by
      rw [wide, units, encoding]
      split_ifs <;> simp
      omega
    simp only [bytesOf_cons, flatMap_cons, length_append, length_cons]
    omega

variable {us : List UInt16}

/-- The two hints of the encoders differ in nothing that matters here. -/
lemma EncodeWide.between_iff {P : Nat → Prop} {s : EncodeWide}
    (h : s.Left P us) {low : Nat} (le : low ≤ (s.codePoints.length + 3) / 4) :
    Between (low, checkedMul s.codePoints.length 2) us.length ↔
      s.extra = 0 ∨ s.codePoints ≠ [] := by
  obtain ⟨points, bound, -, bytes, rfl⟩ := h
  obtain ⟨fewer, more⟩ := length_wides bound
  have empty : s.codePoints = [] ↔ s.codePoints.length = 0 := List.length_eq_zero_iff.symm
  have none : points.length = 0 → s.codePoints.length = 0 := by
    intro h
    rw [bytes, List.length_eq_zero_iff.mp h]
    rfl
  rw [← bytes] at fewer more
  have both : ((if s.extra ≠ 0 then [s.extra] else []) ++ points.flatMap wide).length =
      (if s.extra = 0 then 0 else 1) + (points.flatMap wide).length := by
    by_cases pending : s.extra = 0 <;> simp [pending, add_comm]
  rw [Between, checkedMul, both, ne_eq, empty]
  generalize (points.flatMap wide).length = count at fewer more ⊢
  generalize s.codePoints.length = len at *
  by_cases pending : s.extra = 0 <;> split_ifs <;> simp [pending] <;> omega

lemma EncodeUtf16.next_eq {s : EncodeUtf16}
    (h : EncodeWide.Left Nat.isValidChar ⟨s.chars, s.extra⟩ us) :
    s.next = (EncodeWide.next ⟨s.chars, s.extra⟩).map fun x =>
      (x.1, ⟨x.2.codePoints, x.2.extra⟩) := by
  obtain ⟨points, -, valid, bytes, -⟩ := h
  rw [next, EncodeWide.next]
  split
  next => rfl
  next =>
    cases points with
    | nil =>
      have none : s.chars = [] := bytes
      simp [none, Chars.next, nextCodePoint, decoded]
    | cons n points =>
      have first := valid n (by simp)
      obtain ⟨sequence, number⟩ := sequence_encoding first
      obtain ⟨code, read, same⟩ := nextCodePoint_eq sequence
      have valid : code.toNat.isValidChar := by rwa [same, number]
      rw [← bytesOf_cons, ← bytes] at read
      simp only [Chars.next, read, decoded, fromU32Unchecked, encodeUtf16]
      rw [dif_pos valid]
      simp only [Option.pure_def, Option.bind_eq_bind, Option.bind_some]
      cases encodeUtf16Raw code [0, 0] with
      | none => rfl
      | some buf => rcases buf with _ | ⟨_, _ | ⟨_, _⟩⟩ <;> rfl

lemma EncodeUtf16.next_reads {s : EncodeUtf16}
    (h : EncodeWide.Left Nat.isValidChar ⟨s.chars, s.extra⟩ us) :
    ∃ s' : EncodeUtf16, s.next = some (us.head?, s') ∧
      EncodeWide.Left Nat.isValidChar ⟨s'.chars, s'.extra⟩ us.tail := by
  obtain ⟨s', answer, later⟩ := EncodeWide.next_reads h
  exact ⟨⟨s'.codePoints, s'.extra⟩, by rw [next_eq h, answer]; rfl, later⟩

/-- After any number of calls, the size hint of a decoder holds if and only if no unit is read ahead
or a pair is to come, and that of an encoder if and only if no second half is kept or bytes are
left. -/
theorem utf16_size_hints_iff (v : List UInt16) (cs : List Char) (bytes : List UInt8)
    (wellFormed : WellFormed bytes) (k : Nat) :
    (∃ s items, advance DecodeUtf16.next k ⟨v, none⟩ = some s ∧
      Yields DecodeUtf16.next items s ∧ (Between s.sizeHint items.length ↔
        s.buf = none ∨ ∃ c, .ok c ∈ items ∧ 0x10000 ≤ c.toNat)) ∧
    (∃ s us, advance EncodeUtf16.next k ⟨encodings cs, 0⟩ = some s ∧
      Yields EncodeUtf16.next us s ∧ (Between s.sizeHint us.length ↔ s.extra = 0 ∨ s.chars ≠ [])) ∧
    ∃ s us, advance EncodeWide.next k ⟨bytes, 0⟩ = some s ∧ Yields EncodeWide.next us s ∧
      (Between s.sizeHint us.length ↔ s.extra = 0 ∨ s.codePoints ≠ []) := by
  refine ⟨?_, ?_, ?_⟩
  · obtain ⟨s, reached, left⟩ :=
      advance_of_reads (R := DecodeUtf16.Left) DecodeUtf16.next_reads k rfl
    exact ⟨s, _, reached, yields_of_reads DecodeUtf16.next_reads _ left,
      DecodeUtf16.between_iff left⟩
  · obtain ⟨⟨written, bound, -⟩, -⟩ := holds_encodings cs
    have valid : ∀ n ∈ cs.map Char.toNat, n.isValidChar := by
      intro n member
      obtain ⟨c, -, rfl⟩ := List.mem_map.mp member
      exact isValidChar_toNat c
    obtain ⟨s, reached, left⟩ := advance_of_reads
      (R := fun s : EncodeUtf16 => EncodeWide.Left Nat.isValidChar ⟨s.chars, s.extra⟩)
      EncodeUtf16.next_reads k (s := ⟨encodings cs, 0⟩) ⟨_, bound, valid, written, rfl⟩
    exact ⟨s, _, reached, yields_of_reads EncodeUtf16.next_reads _ left,
      EncodeWide.between_iff left le_rfl⟩
  · obtain ⟨points, written, bound, -⟩ := wellFormed.holds
    obtain ⟨s, reached, left⟩ := advance_of_reads (R := EncodeWide.Left fun _ => True)
      EncodeWide.next_reads k (s := ⟨bytes, 0⟩) ⟨points, bound, fun _ _ => trivial, written, rfl⟩
    exact ⟨s, _, reached, yields_of_reads EncodeWide.next_reads _ left,
      EncodeWide.between_iff left (Nat.div_le_div_right (min_le_left ..))⟩

theorem utf16_size_hints_iff_letter : ∃ s us,
    advance EncodeWide.next 1 ⟨[0x41], 0⟩ = some s ∧ Yields EncodeWide.next us s ∧
      (Between s.sizeHint us.length ↔ s.extra = 0 ∨ s.codePoints ≠ []) :=
  (utf16_size_hints_iff [] [] [0x41]
    ⟨[[0x41]], rfl, by simpa using .scalar (.one (by decide)), by simp⟩ 1).2.2

/-- A lead surrogate before a letter, and one char of two units, after one call. -/
theorem utf16_size_hints_too_small :
    (∃ s, advance DecodeUtf16.next 1 ⟨[0xD800, 0x41], none⟩ = some s ∧
      Yields DecodeUtf16.next [.ok 'A'] s ∧ s.sizeHint = (0, some 0)) ∧
    (∃ s, advance EncodeUtf16.next 1 ⟨[0xF0, 0x9D, 0x84, 0x9E], 0⟩ = some s ∧
      Yields EncodeUtf16.next [0xDD1E] s ∧ s.sizeHint = (0, some 0)) ∧
    ∃ s, advance EncodeWide.next 1 ⟨[0xF0, 0x9D, 0x84, 0x9E], 0⟩ = some s ∧
      Yields EncodeWide.next [0xDD1E] s ∧ s.sizeHint = (0, some 0) :=
  ⟨⟨⟨[], some 0x41⟩, rfl, ⟨⟨[], none⟩, rfl, _, rfl⟩, rfl⟩,
    ⟨⟨[], 0xDD1E⟩, rfl, ⟨⟨[], 0⟩, rfl, _, rfl⟩, rfl⟩,
    ⟨[], 0xDD1E⟩, rfl, ⟨⟨[], 0⟩, rfl, _, rfl⟩, rfl⟩

end Wtf8
