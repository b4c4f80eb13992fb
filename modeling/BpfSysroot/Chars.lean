import BpfSysroot.DoubleEnded
import BpfSysroot.Utf8Validation

/-!
# `Chars` and `encode_utf8`

`encode_utf8_raw` of `core/src/char/methods.rs`, `next_code_point` and
`next_code_point_reverse` of `core/src/str/validations.rs`, and the iterators
`Chars` and `CharIndices` of `core/src/str/iter.rs`. The byte iterator is the list
of the bytes that are left. An invalid `char` and a buffer that is too small have
no result.
-/

namespace Chars

open Utf8 Utf8Validation DoubleEnded List

def tagCont : UInt8 := 0x80
def tagTwoB : UInt8 := 0xC0
def tagThreeB : UInt8 := 0xE0
def tagFourB : UInt8 := 0xF0

def lenUtf8 (code : UInt32) : Nat :=
  if code < 0x80 then 1 else if code < 0x800 then 2 else if code < 0x10000 then 3 else 4

/-- The part of the buffer that is filled. -/
def encodeUtf8Raw (code : UInt32) (dst : List UInt8) : Option (List UInt8) :=
  match lenUtf8 code, dst with
  | 1, _ :: _ => some [code.toUInt8]
  | 2, _ :: _ :: _ =>
    some [(code >>> 6 &&& 0x1F).toUInt8 ||| tagTwoB, (code &&& 0x3F).toUInt8 ||| tagCont]
  | 3, _ :: _ :: _ :: _ =>
    some [(code >>> 12 &&& 0x0F).toUInt8 ||| tagThreeB, (code >>> 6 &&& 0x3F).toUInt8 ||| tagCont,
      (code &&& 0x3F).toUInt8 ||| tagCont]
  | 4, _ :: _ :: _ :: _ :: _ =>
    some [(code >>> 18 &&& 0x07).toUInt8 ||| tagFourB, (code >>> 12 &&& 0x3F).toUInt8 ||| tagCont,
      (code >>> 6 &&& 0x3F).toUInt8 ||| tagCont, (code &&& 0x3F).toUInt8 ||| tagCont]
  | _, _ => none

def encodeUtf8 (c : Char) (dst : List UInt8) : Option (List UInt8) := encodeUtf8Raw c.val dst

/-- The encoded characters one after the other, each by way of a buffer of four bytes. -/
def encodeAll : List Char → Option (List UInt8)
  | [] => some []
  | c :: cs => do
    let s ← encodeUtf8 c [0, 0, 0, 0]
    return s ++ (← encodeAll cs)

def utf8FirstByte (byte width : UInt8) : UInt32 := (byte &&& (0x7F >>> width)).toUInt32

def utf8AccContByte (ch : UInt32) (byte : UInt8) : UInt32 :=
  ch <<< 6 ||| (byte &&& contMask).toUInt32

def utf8IsContByte (byte : UInt8) : Bool := byte &&& ~~~contMask == tagContU8

def unwrapOr0 : Option UInt8 → UInt8
  | some byte => byte
  | none => 0

def nextCodePoint : List UInt8 → Option UInt32 × List UInt8
  | [] => (none, [])
  | x :: bytes =>
    if x < 128 then
      (some x.toUInt32, bytes)
    else
      let init := utf8FirstByte x 2
      let y := unwrapOr0 bytes.head?
      let bytes := bytes.tail
      if x ≥ 0xE0 then
        let z := unwrapOr0 bytes.head?
        let bytes := bytes.tail
        let yz := utf8AccContByte (y &&& contMask).toUInt32 z
        if x ≥ 0xF0 then
          let w := unwrapOr0 bytes.head?
          let bytes := bytes.tail
          (some ((init &&& 7) <<< 18 ||| utf8AccContByte yz w), bytes)
        else
          (some (init <<< 12 ||| yz), bytes)
      else
        (some (utf8AccContByte init y), bytes)

def nextCodePointReverse (bytes : List UInt8) : Option UInt32 × List UInt8 :=
  match bytes.getLast? with
  | none => (none, bytes)
  | some w =>
    let bytes := bytes.dropLast
    if w < 128 then
      (some w.toUInt32, bytes)
    else
      let z := unwrapOr0 bytes.getLast?
      let bytes := bytes.dropLast
      if utf8IsContByte z then
        let y := unwrapOr0 bytes.getLast?
        let bytes := bytes.dropLast
        if utf8IsContByte y then
          let x := unwrapOr0 bytes.getLast?
          let bytes := bytes.dropLast
          let ch := utf8AccContByte (utf8FirstByte x 4) y
          (some (utf8AccContByte (utf8AccContByte ch z) w), bytes)
        else
          (some (utf8AccContByte (utf8AccContByte (utf8FirstByte y 3) z) w), bytes)
      else
        (some (utf8AccContByte (utf8FirstByte z 2) w), bytes)

def fromU32Unchecked (ch : UInt32) : Option Char :=
  if h : ch.isValidChar then some ⟨ch, h⟩ else none

/-- The decoded code point as a `char`. -/
def decoded : Option UInt32 × List UInt8 → Option (Option Char × List UInt8)
  | (none, iter) => some (none, iter)
  | (some ch, iter) => do return (some (← fromU32Unchecked ch), iter)

section
variable (iter : List UInt8)

def next : Option (Option Char × List UInt8) := decoded (nextCodePoint iter)

def nextBack : Option (Option Char × List UInt8) :=
  decoded (nextCodePointReverse iter)

def step : Call → Option (Option Char × List UInt8)
  | .next => next iter
  | .nextBack => nextBack iter
  | .nth n => nthByNext next n iter
  | .nthBack n => nthByNext nextBack n iter

def count : Nat :=
  iter.length - iter.foldl (fun contBytes byte => contBytes + (utf8IsContByte byte).toNat) 0

end

/-- All characters, by `next`. -/
def collect : Nat → List UInt8 → Option (List Char)
  | 0, _ => none
  | fuel + 1, iter => do
    match ← next iter with
    | (none, _) => return []
    | (some c, iter) => return c :: (← collect fuel iter)

structure CharIndices where
  frontOffset : Nat
  iter : List UInt8

namespace CharIndices

def next (s : CharIndices) : Option (Option (Nat × Char) × CharIndices) := do
  let preLen := s.iter.length
  match ← Chars.next s.iter with
  | (none, iter) => return (none, { s with iter })
  | (some ch, iter) =>
    return (some (s.frontOffset, ch), ⟨s.frontOffset + (preLen - iter.length), iter⟩)

def nextBack (s : CharIndices) : Option (Option (Nat × Char) × CharIndices) := do
  match ← Chars.nextBack s.iter with
  | (none, iter) => return (none, { s with iter })
  | (some ch, iter) => return (some (s.frontOffset + iter.length, ch), { s with iter })

def step (s : CharIndices) : Call → Option (Option (Nat × Char) × CharIndices)
  | .next => next s
  | .nextBack => nextBack s
  | .nth n => nthByNext next n s
  | .nthBack n => nthByNext nextBack n s

end CharIndices

lemma utf8FirstByte_toNat : ∀ b : UInt8,
    (utf8FirstByte b 2).toNat = b.toNat % 32 ∧ (utf8FirstByte b 3).toNat = b.toNat % 16 ∧
      (utf8FirstByte b 4).toNat = b.toNat % 8 := forall_byte (by decide +kernel)

lemma contMask_toNat : ∀ b : UInt8, (b &&& contMask).toUInt32.toNat = b.toNat % 64 :=
  forall_byte (by decide +kernel)

lemma shiftLeft_or_toNat {x y k : UInt32} {n : Nat} (shift : k.toNat = n) (room : n < 32)
    (high : x.toNat * 2 ^ n < 2 ^ 32) (low : y.toNat < 2 ^ n) :
    (x <<< k ||| y).toNat = x.toNat * 2 ^ n + y.toNat := by
  rw [UInt32.toNat_or, UInt32.toNat_shiftLeft, shift, Nat.mod_eq_of_lt room, Nat.shiftLeft_eq,
    Nat.mod_eq_of_lt high, mul_comm, Nat.two_pow_add_eq_or_of_lt low]

lemma utf8AccContByte_toNat (ch : UInt32) (b : UInt8) (small : ch.toNat < 2 ^ 26) :
    (utf8AccContByte ch b).toNat = ch.toNat * 64 + b.toNat % 64 := by
  have low := contMask_toNat b
  have power : 2 ^ 6 = 64 := by decide
  rw [utf8AccContByte, shiftLeft_or_toNat (n := 6) rfl (by decide) (by omega) (by omega), low,
    power]

lemma utf8IsContByte_iff {b : UInt8} : utf8IsContByte b ↔ 128 ≤ b.toNat ∧ b.toNat ≤ 191 :=
  contByte_iff.trans tail_iff

lemma tag_toNat {x : UInt32} {mask : UInt32} {tag : UInt8} {m : Nat}
    (hmask : mask.toNat = 2 ^ m - 1)
    (free : ∀ n < 2 ^ m, n ||| tag.toNat = tag.toNat + n) (small : m ≤ 6) :
    ((x &&& mask).toUInt8 ||| tag).toNat = tag.toNat + x.toNat % 2 ^ m := by
  have below : x.toNat % 2 ^ m < 2 ^ m := Nat.mod_lt _ (Nat.two_pow_pos m)
  have bound : 2 ^ m ≤ 2 ^ 6 := Nat.pow_le_pow_right (by decide) small
  rw [UInt8.toNat_or, UInt32.toNat_toUInt8, UInt32.toNat_and, hmask, Nat.and_two_pow_sub_one_eq_mod,
    Nat.mod_eq_of_lt (by omega : x.toNat % 2 ^ m < 256), free _ below]

lemma lenUtf8_eq (code : UInt32) :
    lenUtf8 code = if code.toNat < 0x80 then 1 else if code.toNat < 0x800 then 2 else
      if code.toNat < 0x10000 then 3 else 4 := by
  simp [lenUtf8, UInt32.lt_iff_toNat_lt]

lemma cont_toNat (x : UInt32) : ((x &&& 0x3F).toUInt8 ||| tagCont).toNat = 128 + x.toNat % 64 :=
  tag_toNat (m := 6) rfl (by decide) (by decide)

lemma shiftRight_toNat (x : UInt32) :
    (x >>> 6).toNat = x.toNat / 64 ∧ (x >>> 12).toNat = x.toNat / 4096 ∧
      (x >>> 18).toNat = x.toNat / 262144 := by
  simp [UInt32.toNat_shiftRight, Nat.shiftRight_eq_div_pow]

lemma eq_ofNat {b : UInt8} {n : Nat} (h : b.toNat = n) : b = .ofNat n :=
  (ofNat_eq_of_toNat h.symm).symm

/-- The code writes the encoding into any buffer that is large enough. -/
lemma encodeUtf8Raw_eq {code : UInt32} {dst : List UInt8} (small : code.toNat < 0x110000)
    (room : lenUtf8 code ≤ dst.length) : encodeUtf8Raw code dst = some (encoding code.toNat) := by
  obtain ⟨six, twelve, eighteen⟩ := shiftRight_toNat code
  have last := eq_ofNat (cont_toNat code)
  have second := eq_ofNat (six ▸ cont_toNat (code >>> 6))
  have third := eq_ofNat (twelve ▸ cont_toNat (code >>> 12))
  unfold encodeUtf8Raw
  by_cases one : code.toNat < 0x80
  · have len : lenUtf8 code = 1 := by rw [lenUtf8_eq, if_pos one]
    have first : code.toUInt8 = .ofNat code.toNat := eq_ofNat (by rw [UInt32.toNat_toUInt8]; omega)
    rw [len] at room ⊢
    rcases dst with _ | ⟨_, dst⟩
    · cases room
    · simp only [encoding, if_pos one, first]
  by_cases two : code.toNat < 0x800
  · have len : lenUtf8 code = 2 := by rw [lenUtf8_eq, if_neg one, if_pos two]
    have first : (code >>> 6 &&& 0x1F).toUInt8 ||| tagTwoB = .ofNat (192 + code.toNat / 64) :=
      eq_ofNat ((tag_toNat (m := 5) rfl (by decide) (by decide)).trans (by
        rw [show tagTwoB.toNat = 192 from rfl]
        omega))
    rw [len] at room ⊢
    rcases dst with _ | ⟨_, _ | ⟨_, dst⟩⟩
    iterate 2 exact absurd room (by simp)
    simp only [encoding, if_neg one, if_pos two, first, last]
  by_cases three : code.toNat < 0x10000
  · have len : lenUtf8 code = 3 := by rw [lenUtf8_eq, if_neg one, if_neg two, if_pos three]
    have first : (code >>> 12 &&& 0x0F).toUInt8 ||| tagThreeB = .ofNat (224 + code.toNat / 4096) :=
      eq_ofNat ((tag_toNat (m := 4) rfl (by decide) (by decide)).trans (by
        rw [show tagThreeB.toNat = 224 from rfl]
        omega))
    rw [len] at room ⊢
    rcases dst with _ | ⟨_, _ | ⟨_, _ | ⟨_, dst⟩⟩⟩
    iterate 3 exact absurd room (by simp)
    simp only [encoding, if_neg one, if_neg two, if_pos three, first, second, last]
  · have len : lenUtf8 code = 4 := by rw [lenUtf8_eq, if_neg one, if_neg two, if_neg three]
    have first : (code >>> 18 &&& 0x07).toUInt8 ||| tagFourB = .ofNat (240 + code.toNat / 262144) :=
      eq_ofNat ((tag_toNat (m := 3) rfl (by decide) (by decide)).trans (by
        rw [show tagFourB.toNat = 240 from rfl]
        omega))
    rw [len] at room ⊢
    rcases dst with _ | ⟨_, _ | ⟨_, _ | ⟨_, _ | ⟨_, dst⟩⟩⟩⟩
    iterate 4 exact absurd room (by simp)
    simp only [encoding, if_neg one, if_neg two, if_neg three, first, third, second, last]

/-- The encodings one after the other. -/
def encodings (cs : List Char) : List UInt8 := cs.flatMap fun c => encoding c.toNat

lemma isValidChar_toNat (c : Char) : c.toNat.isValidChar := c.valid

lemma encodeUtf8_eq (c : Char) {dst : List UInt8} (room : 4 ≤ dst.length) :
    encodeUtf8 c dst = some (encoding c.toNat) := by
  have small : c.val.toNat < 0x110000 := by
    rcases c.valid with less | ⟨_, less⟩
    · exact less.trans (by decide)
    · exact less
  apply encodeUtf8Raw_eq small
  have len := lenUtf8_eq c.val
  split_ifs at len <;> omega

lemma encodeAll_eq (cs : List Char) : encodeAll cs = some (encodings cs) := by
  induction cs with
  | nil => rfl
  | cons c cs ih => simp [encodeAll, encodeUtf8_eq c, ih, encodings]

lemma text_encodings (cs : List Char) : Text (encodings cs) := by
  induction cs with
  | nil => exact .nil
  | cons c cs ih =>
    exact .append (sequence_encoding (isValidChar_toNat c)).1 ih

section
variable {s r : List UInt8} {a : UInt8}

lemma lt_128_iff : a < 128 ↔ a.toNat < 128 := UInt8.lt_iff_toNat_lt

lemma ge_E0_iff : a ≥ 0xE0 ↔ 224 ≤ a.toNat := UInt8.le_iff_toNat_le

lemma ge_F0_iff : a ≥ 0xF0 ↔ 240 ≤ a.toNat := UInt8.le_iff_toNat_le

lemma nextCodePoint_of_shape (ranges : Shape s) :
    ∃ ch, nextCodePoint (s ++ r) = (some ch, r) ∧ ch.toNat = value s := by
  match s with
  | [a] =>
    simp only [Shape, Ranges] at ranges
    have ascii : a < 128 := lt_128_iff.mpr (by omega)
    exact ⟨a.toUInt32, by simp [nextCodePoint, ascii], by simp [value]⟩
  | [a, b] =>
    simp only [Shape, Ranges] at ranges
    have ascii : ¬ a < 128 := mt lt_128_iff.mp (by omega)
    have three : ¬ a ≥ 0xE0 := mt ge_E0_iff.mp (by omega)
    have first := (utf8FirstByte_toNat a).1
    refine ⟨utf8AccContByte (utf8FirstByte a 2) b, ?_, ?_⟩
    · simp [nextCodePoint, ascii, three, unwrapOr0]
    · rw [utf8AccContByte_toNat _ b (by omega), first, value]
  | [a, b, c] =>
    simp only [Shape] at ranges
    have ascii : ¬ a < 128 := mt lt_128_iff.mp (by omega)
    have three : a ≥ 0xE0 := ge_E0_iff.mpr (by omega)
    have four : ¬ a ≥ 0xF0 := mt ge_F0_iff.mp (by omega)
    have first := (utf8FirstByte_toNat a).1
    have second := contMask_toNat b
    have third := utf8AccContByte_toNat (b &&& contMask).toUInt32 c (by omega)
    refine ⟨utf8FirstByte a 2 <<< 12 ||| utf8AccContByte (b &&& contMask).toUInt32 c, ?_, ?_⟩
    · simp [nextCodePoint, ascii, three, four, unwrapOr0]
    · rw [shiftLeft_or_toNat (n := 12) rfl (by decide) (by omega) (by omega), value]
      omega
  | [a, b, c, d] =>
    simp only [Shape, Ranges] at ranges
    have ascii : ¬ a < 128 := mt lt_128_iff.mp (by omega)
    have three : a ≥ 0xE0 := ge_E0_iff.mpr (by omega)
    have four : a ≥ 0xF0 := ge_F0_iff.mpr (by omega)
    have first : (utf8FirstByte a 2 &&& 7).toNat = a.toNat % 8 := by
      rw [UInt32.toNat_and, (utf8FirstByte_toNat a).1]
      change a.toNat % 32 &&& 2 ^ 3 - 1 = _
      rw [Nat.and_two_pow_sub_one_eq_mod]
      omega
    have second := contMask_toNat b
    have third := utf8AccContByte_toNat (b &&& contMask).toUInt32 c (by omega)
    have fourth := utf8AccContByte_toNat (utf8AccContByte (b &&& contMask).toUInt32 c) d
      (by omega)
    refine ⟨(utf8FirstByte a 2 &&& 7) <<< 18 |||
      utf8AccContByte (utf8AccContByte (b &&& contMask).toUInt32 c) d, ?_, ?_⟩
    · simp [nextCodePoint, ascii, three, four, unwrapOr0]
    · rw [shiftLeft_or_toNat (n := 18) rfl (by decide) (by omega) (by omega), value]
      omega

lemma nextCodePoint_eq (h : Sequence s) :
    ∃ ch, nextCodePoint (s ++ r) = (some ch, r) ∧ ch.toNat = value s :=
  nextCodePoint_of_shape h.ranges.shape

lemma nextCodePointReverse_eq (h : Sequence s) :
    ∃ ch, nextCodePointReverse (r ++ s) = (some ch, r) ∧ ch.toNat = value s := by
  have ranges := h.ranges
  match s with
  | [a] =>
    simp only [Ranges] at ranges
    have ascii : a < 128 := lt_128_iff.mpr (by omega)
    exact ⟨a.toUInt32, by simp [nextCodePointReverse, ascii], by simp [value]⟩
  | [a, b] =>
    simp only [Ranges] at ranges
    have ascii : ¬ b < 128 := mt lt_128_iff.mp (by omega)
    have start : ¬ utf8IsContByte a := mt utf8IsContByte_iff.mp (by omega)
    have first := (utf8FirstByte_toNat a).1
    refine ⟨utf8AccContByte (utf8FirstByte a 2) b, ?_, ?_⟩
    · simp [nextCodePointReverse, ascii, start, unwrapOr0]
    · rw [utf8AccContByte_toNat _ b (by omega), first, value]
  | [a, b, c] =>
    simp only [Ranges] at ranges
    have ascii : ¬ c < 128 := mt lt_128_iff.mp (by omega)
    have tail : utf8IsContByte b := utf8IsContByte_iff.mpr (by omega)
    have start : ¬ utf8IsContByte a := mt utf8IsContByte_iff.mp (by omega)
    have first := (utf8FirstByte_toNat a).2.1
    have second := utf8AccContByte_toNat (utf8FirstByte a 3) b (by omega)
    refine ⟨utf8AccContByte (utf8AccContByte (utf8FirstByte a 3) b) c, ?_, ?_⟩
    · simp [nextCodePointReverse, ascii, tail, start, unwrapOr0]
    · rw [utf8AccContByte_toNat _ c (by omega), value]
      omega
  | [a, b, c, d] =>
    simp only [Ranges] at ranges
    have ascii : ¬ d < 128 := mt lt_128_iff.mp (by omega)
    have tail : utf8IsContByte c := utf8IsContByte_iff.mpr (by omega)
    have tail' : utf8IsContByte b := utf8IsContByte_iff.mpr (by omega)
    have first := (utf8FirstByte_toNat a).2.2
    have second := utf8AccContByte_toNat (utf8FirstByte a 4) b (by omega)
    have third := utf8AccContByte_toNat (utf8AccContByte (utf8FirstByte a 4) b) c (by omega)
    refine ⟨utf8AccContByte (utf8AccContByte (utf8AccContByte (utf8FirstByte a 4) b) c) d, ?_, ?_⟩
    · simp [nextCodePointReverse, ascii, tail, tail', unwrapOr0]
    · rw [utf8AccContByte_toNat _ d (by omega), value]
      omega

lemma decoded_eq {c : Char} {ch : UInt32} (h : ch.toNat = c.toNat) :
    decoded (some ch, r) = some (some c, r) := by
  obtain rfl : c.val = ch := UInt32.toNat_inj.mp h.symm
  simp [decoded, fromU32Unchecked, c.valid]

lemma next_encoding (c : Char) : next (encoding c.toNat ++ r) = some (some c, r) := by
  obtain ⟨sequence, number⟩ := sequence_encoding (isValidChar_toNat c)
  obtain ⟨ch, read, same⟩ := nextCodePoint_eq sequence
  rw [next, read]
  exact decoded_eq (same.trans number)

lemma nextBack_encoding (c : Char) : nextBack (r ++ encoding c.toNat) = some (some c, r) := by
  obtain ⟨sequence, number⟩ := sequence_encoding (isValidChar_toNat c)
  obtain ⟨ch, read, same⟩ := nextCodePointReverse_eq sequence
  rw [nextBack, read]
  exact decoded_eq (same.trans number)

end

lemma encodings_cons (c : Char) (cs : List Char) :
    encodings (c :: cs) = encoding c.toNat ++ encodings cs := flatMap_cons

lemma encodings_append (cs ds : List Char) :
    encodings (cs ++ ds) = encodings cs ++ encodings ds := flatMap_append

lemma encodings_concat (cs : List Char) (c : Char) :
    encodings (cs ++ [c]) = encodings cs ++ encoding c.toNat := by
  rw [encodings_append, encodings_cons, show encodings [] = [] from rfl, append_nil]

lemma next_encodings (cs : List Char) :
    next (encodings cs) = some (cs.head?, encodings cs.tail) := by
  cases cs with
  | nil => rfl
  | cons c cs => rw [encodings_cons, next_encoding, head?_cons, tail_cons]

lemma nextBack_encodings (cs : List Char) :
    nextBack (encodings cs) = some (cs.getLast?, encodings cs.dropLast) := by
  rcases eq_nil_or_concat' cs with rfl | ⟨cs, c, rfl⟩
  · rfl
  · rw [encodings_concat, nextBack_encoding, getLast?_concat, dropLast_concat]

/-- The iterator over encoded characters gives them from both ends. -/
lemma step_follows : Follows step (fun iter cs => iter = encodings cs) := by
  have front {iter cs} (related : iter = encodings cs) :
      ∃ iter', next iter = some (cs.head?, iter') ∧ iter' = encodings cs.tail :=
    related ▸ ⟨_, next_encodings cs, rfl⟩
  have back {iter cs} (related : iter = encodings cs) :
      ∃ iter', nextBack iter = some (cs.getLast?, iter') ∧ iter' = encodings cs.dropLast :=
    related ▸ ⟨_, nextBack_encodings cs, rfl⟩
  rintro (_ | _ | n | n) iter cs related
  · exact front related
  · exact back related
  · exact nthByNext_eq next _ front n related
  · exact nthByNext_back nextBack _ back n related

/-- The characters with their byte positions, from the given one on. -/
def indexed : Nat → List Char → List (Nat × Char)
  | _, [] => []
  | offset, c :: cs => (offset, c) :: indexed (offset + (encoding c.toNat).length) cs

lemma indexed_concat (offset : Nat) (cs : List Char) (c : Char) :
    indexed offset (cs ++ [c]) = indexed offset cs ++ [(offset + (encodings cs).length, c)] := by
  induction cs generalizing offset with
  | nil => rfl
  | cons d cs ih =>
    rw [cons_append, indexed, ih, encodings_cons, length_append, add_assoc]
    rfl

namespace CharIndices

/-- What is left to give. -/
def Gives (s : CharIndices) (l : List (Nat × Char)) : Prop :=
  ∃ cs, s.iter = encodings cs ∧ l = indexed s.frontOffset cs

lemma next_gives {s : CharIndices} {l : List (Nat × Char)} (h : Gives s l) :
    ∃ s', next s = some (l.head?, s') ∧ Gives s' l.tail := by
  obtain ⟨cs, same, rfl⟩ := h
  cases cs with
  | nil =>
    refine ⟨s, ?_, [], same, rfl⟩
    rw [next, same, next_encodings]
    cases s
    simp_all [indexed]
  | cons c cs =>
    refine ⟨⟨s.frontOffset + (encoding c.toNat).length, encodings cs⟩, ?_, cs, rfl, rfl⟩
    rw [next, same, next_encodings]
    simp [indexed, encodings_cons]

lemma nextBack_gives {s : CharIndices} {l : List (Nat × Char)} (h : Gives s l) :
    ∃ s', nextBack s = some (l.getLast?, s') ∧ Gives s' l.dropLast := by
  obtain ⟨cs, same, rfl⟩ := h
  rcases eq_nil_or_concat' cs with rfl | ⟨cs, c, rfl⟩
  · refine ⟨s, ?_, [], same, rfl⟩
    rw [nextBack, same, nextBack_encodings]
    cases s
    simp_all [indexed]
  · refine ⟨{ s with iter := encodings cs }, ?_, cs, rfl, ?_⟩
    · rw [nextBack, same, nextBack_encodings, indexed_concat]
      simp
    · rw [indexed_concat, dropLast_concat]

lemma step_gives : Follows step Gives := by
  rintro (_ | _ | n | n) s l gives
  · exact next_gives gives
  · exact nextBack_gives gives
  · exact nthByNext_eq next Gives next_gives n gives
  · exact nthByNext_back nextBack Gives nextBack_gives n gives

end CharIndices

lemma foldl_utf8IsContByte (l : List UInt8) (n : Nat) :
    l.foldl (fun contBytes byte => contBytes + (utf8IsContByte byte).toNat) n =
      n + l.countP utf8IsContByte := by
  induction l generalizing n with
  | nil => rfl
  | cons b l ih =>
    rw [foldl_cons, ih, countP_cons]
    cases utf8IsContByte b <;> simp [add_assoc, add_comm 1]

lemma countP_sequence {s : List UInt8} (h : Sequence s) :
    s.countP utf8IsContByte + 1 = s.length := by
  have ranges := h.ranges
  match s with
  | [a] | [a, b] | [a, b, c] | [a, b, c, d] =>
    simp only [Ranges] at ranges
    simp only [countP_cons, countP_nil, utf8IsContByte_iff, length_cons, length_nil]
    simp (disch := omega) only [if_pos, if_neg]

lemma countP_encodings (cs : List Char) :
    (encodings cs).countP utf8IsContByte + cs.length = (encodings cs).length := by
  induction cs with
  | nil => rfl
  | cons c cs ih =>
    have first := countP_sequence (sequence_encoding (isValidChar_toNat c)).1
    rw [encodings_cons, countP_append, length_append, length_cons]
    omega

lemma count_encodings (cs : List Char) : count (encodings cs) = cs.length := by
  have := countP_encodings cs
  rw [count, foldl_utf8IsContByte]
  omega

lemma exists_encodings {v : List UInt8} (h : Text v) : ∃ cs, encodings cs = v := by
  induction h with
  | nil => exact ⟨[], rfl⟩
  | @append s l first rest ih =>
    obtain ⟨cs, rfl⟩ := ih
    refine ⟨Char.ofNatAux (value s) first.isValidChar :: cs, ?_⟩
    rw [encodings_cons]
    congr 1
    exact encoding_value first

lemma collect_encodings (cs : List Char) {fuel : Nat} (enough : cs.length < fuel) :
    collect fuel (encodings cs) = some cs := by
  induction cs generalizing fuel with
  | nil =>
    obtain ⟨fuel, rfl⟩ := Nat.exists_eq_succ_of_ne_zero (ne_of_gt enough)
    simp [collect, next_encodings]
  | cons c cs ih =>
    obtain ⟨fuel, rfl⟩ := Nat.exists_eq_succ_of_ne_zero (ne_of_gt (Nat.zero_lt_of_lt enough))
    simp [collect, next_encodings, ih (Nat.lt_of_succ_lt_succ enough)]

lemma length_le_length_encodings (cs : List Char) : cs.length ≤ (encodings cs).length := by
  have := countP_encodings cs
  omega

/-- Encoded characters are valid, and both iterators give exactly them, from both ends and at their
positions; the characters of a valid string encode to the string. -/
theorem utf8_round_trip :
    (∀ cs : List Char, ∃ v, encodeAll cs = some v ∧
      (∀ start, runUtf8Validation start v = some (.ok ())) ∧
      (∀ calls, run step calls v = some (replies calls cs)) ∧
      (∀ calls, run CharIndices.step calls ⟨0, v⟩ = some (replies calls (indexed 0 cs))) ∧
      count v = cs.length) ∧
    ∀ start v, runUtf8Validation start v = some (.ok ()) →
      ∃ cs, collect (v.length + 1) v = some cs ∧ encodeAll cs = some v := by
  constructor
  · intro cs
    refine ⟨encodings cs, encodeAll_eq cs, ?_, ?_, ?_, count_encodings cs⟩
    · intro start
      obtain ⟨r, ran, judges⟩ := runUtf8Validation_judges start (encodings cs)
      cases r with
      | ok _ => exact ran
      | error e =>
        obtain ⟨text, less, broken⟩ := judges
        exact absurd (text_encodings cs) (broken.not_text text less)
    · exact fun calls => step_follows.run calls rfl
    · exact fun calls => CharIndices.step_gives.run calls ⟨cs, rfl, rfl⟩
  · intro start v valid
    obtain ⟨r, ran, judges⟩ := runUtf8Validation_judges start v
    rw [valid] at ran
    obtain rfl := Option.some.inj ran
    obtain ⟨cs, rfl⟩ := exists_encodings judges
    have enough := length_le_length_encodings cs
    exact ⟨cs, collect_encodings cs (Nat.lt_succ_of_le enough), encodeAll_eq cs⟩

theorem utf8_round_trip_accent : runUtf8Validation none [0xC3, 0xA9] = some (.ok ()) ∧
    ∃ cs, collect 3 [0xC3, 0xA9] = some cs ∧ encodeAll cs = some [0xC3, 0xA9] := by
  have valid : runUtf8Validation none [0xC3, 0xA9] = some (.ok ()) := by decide +kernel
  exact ⟨valid, utf8_round_trip.2 none _ valid⟩

end Chars
