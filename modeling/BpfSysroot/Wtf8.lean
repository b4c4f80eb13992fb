import BpfSysroot.Chars
import BpfSysroot.Utf16

/-!
# `Wtf8Buf`

The WTF-8 buffer of `std/src/sys_common/wtf8.rs` as the list of its bytes, with
`DecodeUtf16` of `core/src/char/decode.rs` and `encode_utf16_raw` of
`core/src/char/methods.rs`. A failed assertion, an invalid `char` and a buffer that is
too small have no result. `reserve` does nothing to the bytes.
-/

namespace Wtf8

open Utf8 Utf16 Chars List

structure CodePoint where
  value : UInt32
  valid : value.toNat < 0x110000

def CodePoint.fromChar (c : Char) : CodePoint where
  value := c.val
  valid := by
    rcases c.valid with less | ⟨_, less⟩
    · exact less.trans (by decide)
    · exact less

structure DecodeUtf16 where
  iter : List UInt16
  buf : Option UInt16

namespace DecodeUtf16

/-- `buf.take()`, and without one the next unit. -/
def take : DecodeUtf16 → Option (UInt16 × DecodeUtf16)
  | ⟨iter, some u⟩ => some (u, ⟨iter, none⟩)
  | ⟨u :: iter, none⟩ => some (u, ⟨iter, none⟩)
  | ⟨[], none⟩ => none

/-- An unpaired surrogate is an error. -/
def next (s : DecodeUtf16) : Option (Option (Except UInt16 Char) × DecodeUtf16) :=
  match s.take with
  | none => some (none, s)
  | some (u, s) =>
    if u < 0xD800 ∨ 0xDFFF < u then do
      let c ← fromU32Unchecked u.toUInt32
      return (some (.ok c), s)
    else if u ≥ 0xDC00 then
      some (some (.error u), s)
    else
      match s.iter with
      | [] => some (some (.error u), s)
      | u₂ :: iter =>
        if u₂ < 0xDC00 ∨ u₂ > 0xDFFF then
          some (some (.error u), ⟨iter, some u₂⟩)
        else do
          let c ← fromU32Unchecked
            (((u - 0xD800).toUInt32 <<< 10 ||| (u₂ - 0xDC00).toUInt32) + 0x10000)
          return (some (.ok c), ⟨iter, none⟩)

def left (s : DecodeUtf16) : List UInt16 := s.buf.toList ++ s.iter

lemma take_eq (s : DecodeUtf16) :
    s.take = match s.left with
      | [] => none
      | u :: rest => some (u, ⟨rest, none⟩) := by
  rcases s with ⟨_ | ⟨u, iter⟩, _ | b⟩ <;> rfl

lemma next_shorter {s s' : DecodeUtf16} {item : Except UInt16 Char}
    (answer : s.next = some (some item, s')) : s'.left.length < s.left.length := by
  rw [next, take_eq] at answer
  cases units : s.left with
  | nil => simp [units] at answer
  | cons u rest =>
    simp only [units] at answer
    split_ifs at answer
    · simp only [Option.pure_def, Option.bind_eq_bind, Option.bind_eq_some_iff,
        Option.some.injEq, Prod.mk.injEq] at answer
      obtain ⟨c, -, -, rfl⟩ := answer
      simp [left]
    · cases answer
      simp [left]
    · cases rest with
      | nil =>
        cases answer
        simp [left]
      | cons u₂ rest =>
        simp only at answer
        split_ifs at answer
        · cases answer
          simp [left]
        · simp only [Option.pure_def, Option.bind_eq_bind, Option.bind_eq_some_iff,
            Option.some.injEq, Prod.mk.injEq] at answer
          obtain ⟨c, -, -, rfl⟩ := answer
          simp only [left, Option.toList_none, nil_append, length_cons]
          omega

end DecodeUtf16

section
variable (bytes : List UInt8)

def pushCodePointUnchecked (codePoint : CodePoint) : Option (List UInt8) := do
  return bytes ++ (← encodeUtf8Raw codePoint.value [0, 0, 0, 0])

def pushChar (c : Char) : Option (List UInt8) :=
  pushCodePointUnchecked bytes (.fromChar c)

/-- `from_u32_unchecked`: a unit is in the range of code points. -/
def CodePoint.ofUnit (u : UInt16) : CodePoint where
  value := u.toUInt32
  valid := by
    have := u.toNat_lt
    rw [UInt16.toNat_toUInt32]
    omega

/-- The loop of `from_wide`. -/
def pushWide (bytes : List UInt8) (s : DecodeUtf16) : Option (List UInt8) :=
  match _answer : s.next with
  | none => none
  | some (none, _) => some bytes
  | some (some (.ok c), s') => (pushChar bytes c).bind (pushWide · s')
  | some (some (.error surrogate), s') =>
    (pushCodePointUnchecked bytes (.ofUnit surrogate)).bind (pushWide · s')
termination_by s.left.length
decreasing_by all_goals exact DecodeUtf16.next_shorter _answer

def fromWide (v : List UInt16) : Option (List UInt8) := pushWide [] ⟨v, none⟩

def decodeSurrogate (secondByte thirdByte : UInt8) : UInt16 :=
  (0xD800 : UInt16) ||| (secondByte.toUInt16 &&& 0x3F) <<< 6 ||| (thirdByte.toUInt16 &&& 0x3F)

def decodeSurrogatePair (lead trail : UInt16) : Option Char :=
  fromU32Unchecked
    ((0x10000 : UInt32) + ((lead - 0xD800).toUInt32 <<< 10 ||| (trail - 0xDC00).toUInt32))

def finalLeadSurrogate : Option UInt16 :=
  match bytes.reverse with
  | b₃ :: b₂ :: b₁ :: _ =>
    if b₁ = 0xED ∧ 0xA0 ≤ b₂ ∧ b₂ ≤ 0xAF then some (decodeSurrogate b₂ b₃) else none
  | _ => none

def initialTrailSurrogate : Option UInt16 :=
  match bytes with
  | b₁ :: b₂ :: b₃ :: _ =>
    if b₁ = 0xED ∧ 0xB0 ≤ b₂ ∧ b₂ ≤ 0xBF then some (decodeSurrogate b₂ b₃) else none
  | _ => none

def pushStr (bytes other : List UInt8) : List UInt8 := bytes ++ other

def pushWtf8 (bytes other : List UInt8) : Option (List UInt8) :=
  match finalLeadSurrogate bytes, initialTrailSurrogate other with
  | some lead, some trail => do
    let bytes := bytes.take (bytes.length - 3)
    let bytes ← pushChar bytes (← decodeSurrogatePair lead trail)
    return bytes ++ other.drop 3
  | _, _ => some (bytes ++ other)

def push (codePoint : CodePoint) : Option (List UInt8) :=
  let trail := codePoint.value
  if 0xDC00 ≤ trail ∧ trail ≤ 0xDFFF then
    match finalLeadSurrogate bytes with
    | some lead => do
      let bytes := bytes.take (bytes.length - 3)
      pushChar bytes (← decodeSurrogatePair lead trail.toUInt16)
    | none => pushCodePointUnchecked bytes codePoint
  else pushCodePointUnchecked bytes codePoint

/-- `for_each(push)`. -/
def extend (codePoints : List CodePoint) : Option (List UInt8) :=
  codePoints.foldlM push bytes

def isCodePointBoundary (index : Nat) : Bool :=
  if index = bytes.length then true
  else
    match bytes[index]? with
    | none => false
    | some b => b < 128 || b ≥ 192

def truncate (newLen : Nat) : Option (List UInt8) :=
  if isCodePointBoundary bytes newLen then some (bytes.take newLen) else none

end

/-- The part of the buffer that is filled. -/
def encodeUtf16Raw (code : UInt32) (dst : List UInt16) : Option (List UInt16) :=
  if code &&& 0xFFFF = code ∧ dst ≠ [] then some [code.toUInt16]
  else if 2 ≤ dst.length then
    let code := code - 0x10000
    some [(0xD800 : UInt16) ||| (code >>> 10).toUInt16,
      (0xDC00 : UInt16) ||| (code.toUInt16 &&& 0x3FF)]
  else none

lemma nextCodePoint_shorter {bytes rest : List UInt8} {code : UInt32}
    (answer : nextCodePoint bytes = (some code, rest)) : rest.length < bytes.length := by
  cases bytes with
  | nil => simp [nextCodePoint] at answer
  | cons x bytes =>
    simp only [nextCodePoint] at answer
    split_ifs at answer <;> cases answer <;> simp <;> omega

structure EncodeWide where
  codePoints : List UInt8
  extra : UInt16

namespace EncodeWide

def next (s : EncodeWide) : Option (Option UInt16 × EncodeWide) :=
  if s.extra ≠ 0 then some (some s.extra, { s with extra := 0 })
  else
    match nextCodePoint s.codePoints with
    | (none, bytes) => some (none, { s with codePoints := bytes })
    | (some code, bytes) => do
      match ← encodeUtf16Raw code [0, 0] with
      | [] => none
      | [first] => return (some first, { s with codePoints := bytes })
      | first :: second :: _ => return (some first, ⟨bytes, second⟩)

/-- A bound on the units that are left. -/
def left (s : EncodeWide) : Nat := 2 * s.codePoints.length + if s.extra ≠ 0 then 1 else 0

variable {s s' : EncodeWide}

lemma next_shorter {unit : UInt16} (answer : s.next = some (some unit, s')) : s'.left < s.left := by
  rw [next] at answer
  split at answer
  next pending =>
    cases answer
    simp [left, pending]
  · split at answer
    · simp at answer
    next code bytes read =>
      have shorter := nextCodePoint_shorter read
      have bound : ∀ extra, left ⟨bytes, extra⟩ < s.left := by
        intro extra
        simp only [left]
        split_ifs <;> omega
      simp only [Option.bind_eq_bind, Option.bind_eq_some_iff] at answer
      obtain ⟨buf, -, answer⟩ := answer
      split at answer
      · simp at answer
      · cases answer
        exact bound _
      · cases answer
        exact bound _

/-- All units, by `next`. -/
def collect (s : EncodeWide) : Option (List UInt16) :=
  match _answer : s.next with
  | none => none
  | some (none, _) => some []
  | some (some unit, s') => (collect s').map (unit :: ·)
termination_by s.left
decreasing_by exact next_shorter _answer

lemma collect_next {unit : UInt16} {us : List UInt16}
    (answer : s.next = some (some unit, s')) (later : s'.collect = some us) :
    s.collect = some (unit :: us) := by
  rw [collect]
  split <;> simp_all

lemma collect_end (answer : s.next = some (none, s')) : s.collect = some [] := by
  rw [collect]
  split <;> simp_all

end EncodeWide

def encodeWide (bytes : List UInt8) : Option (List UInt16) := EncodeWide.collect ⟨bytes, 0⟩

section
open Utf8Validation

/-- The high part of a surrogate, where the top bit of the six is set. -/
lemma surrogateHigh_toNat : ∀ b : UInt8, 0xA0 ≤ b → b ≤ 0xBF →
    ((0xD800 : UInt16) ||| (b.toUInt16 &&& 0x3F) <<< 6).toNat = 64 * (832 + b.toNat % 64) :=
  forall_byte (by decide +kernel)

lemma contBits_toNat : ∀ b : UInt8, (b.toUInt16 &&& 0x3F).toNat = b.toNat % 64 :=
  forall_byte (by decide +kernel)

lemma decodeSurrogate_toNat {b c : UInt8} (low : 0xA0 ≤ b) (high : b ≤ 0xBF) :
    (decodeSurrogate b c).toNat = value [0xED, b, c] := by
  have small : c.toNat % 64 < 2 ^ 6 := Nat.mod_lt _ (by decide)
  have join : 64 * (832 + b.toNat % 64) ||| c.toNat % 64 =
      64 * (832 + b.toNat % 64) + c.toNat % 64 :=
    (Nat.two_pow_add_eq_or_of_lt small (832 + b.toNat % 64)).symm
  rw [decodeSurrogate, UInt16.toNat_or, surrogateHigh_toNat b low high, contBits_toNat]
  show _ = 237 % 16 * 4096 + _ + _
  omega

variable {u v : UInt16}

/-- The sum by which both decoders join a pair. -/
lemma joined_toNat (lead : IsLead u.toNat) (trail : IsTrail v.toNat) :
    ((u - 0xD800).toUInt32 <<< 10 ||| (v - 0xDC00).toUInt32).toNat + 0x10000 =
      Utf16.join u.toNat v.toNat := by
  obtain ⟨lowLead, highLead⟩ := lead
  obtain ⟨lowTrail, highTrail⟩ := trail
  have first : (u - 0xD800).toUInt32.toNat = u.toNat - 0xD800 := by
    have le : 0xD800 ≤ u := UInt16.le_iff_toNat_le.mpr lowLead
    rw [UInt16.toNat_toUInt32, UInt16.toNat_sub_of_le _ _ le]
    rfl
  have second : (v - 0xDC00).toUInt32.toNat = v.toNat - 0xDC00 := by
    have le : 0xDC00 ≤ v := UInt16.le_iff_toNat_le.mpr lowTrail
    rw [UInt16.toNat_toUInt32, UInt16.toNat_sub_of_le _ _ le]
    rfl
  have power : 2 ^ 10 = 0x400 := by decide
  rw [shiftLeft_or_toNat (n := 10) rfl (by decide) (by omega) (by omega), first, second, power,
    Utf16.join]

variable {code : UInt32}

lemma fromU32Unchecked_eq (valid : code.toNat.isValidChar) :
    ∃ c, fromU32Unchecked code = some c ∧ c.toNat = code.toNat :=
  ⟨⟨code, valid⟩, dif_pos valid, rfl⟩

lemma decodedPair_eq (lead : IsLead u.toNat) (trail : IsTrail v.toNat) : ∃ c, fromU32Unchecked
        (((u - 0xD800).toUInt32 <<< 10 ||| (v - 0xDC00).toUInt32) + 0x10000) = some c ∧
      c.toNat = Utf16.join u.toNat v.toNat := by
  have bounds := join_bounds lead trail
  have joined := joined_toNat lead trail
  have sum : (((u - 0xD800).toUInt32 <<< 10 ||| (v - 0xDC00).toUInt32) + 0x10000).toNat =
      Utf16.join u.toNat v.toNat := by
    rw [UInt32.toNat_add]
    show (_ + 0x10000) % 2 ^ 32 = _
    omega
  have valid : (Utf16.join u.toNat v.toNat).isValidChar := .inr ⟨by omega, bounds.2⟩
  rw [← sum] at valid
  obtain ⟨c, result, number⟩ := fromU32Unchecked_eq valid
  exact ⟨c, result, number.trans sum⟩

lemma decodeSurrogatePair_eq (lead : IsLead u.toNat) (trail : IsTrail v.toNat) :
    ∃ c, decodeSurrogatePair u v = some c ∧ c.toNat = Utf16.join u.toNat v.toNat := by
  rw [decodeSurrogatePair, UInt32.add_comm]
  exact decodedPair_eq lead trail

lemma tagged_toNat {x tag : UInt16} {k : Nat} (shape : tag.toNat = 0x400 * k)
    (small : x.toNat < 0x400) : (tag ||| x).toNat = x.toNat + tag.toNat := by
  have power : 0x400 = 2 ^ 10 := by decide
  have join := Nat.two_pow_add_eq_or_of_lt (power ▸ small) k
  rw [UInt16.toNat_or, shape, ← join, add_comm]

lemma encodeUtf16Raw_eq (small : code.toNat < 0x110000) :
    ∃ us, encodeUtf16Raw code [0, 0] = some us ∧ us.map UInt16.toNat = units code.toNat := by
  have masked : code &&& 0xFFFF = code ↔ code.toNat < 0x10000 := by
    rw [← UInt32.toNat_inj]
    change code.toNat &&& 2 ^ 16 - 1 = _ ↔ _
    rw [Nat.and_two_pow_sub_one_eq_mod]
    omega
  rw [encodeUtf16Raw]
  by_cases plane : code.toNat < 0x10000
  · rw [if_pos ⟨masked.mpr plane, by simp⟩, units_of_lt plane]
    refine ⟨_, rfl, ?_⟩
    rw [map_singleton, UInt32.toNat_toUInt16, Nat.mod_eq_of_lt (by omega)]
  · rw [if_neg (fun h => plane (masked.mp h.1)), units, if_neg plane]
    refine ⟨_, rfl, ?_⟩
    have reduced : (code - 0x10000).toNat = code.toNat - 0x10000 := by
      have le : 0x10000 ≤ code := UInt32.le_iff_toNat_le.mpr (not_lt.mp plane)
      rw [UInt32.toNat_sub_of_le _ _ le]
      rfl
    have high : ((code - 0x10000) >>> 10).toUInt16.toNat = (code.toNat - 0x10000) / 0x400 := by
      rw [UInt32.toNat_toUInt16, UInt32.toNat_shiftRight, reduced, Nat.shiftRight_eq_div_pow]
      show (code.toNat - 0x10000) / 0x400 % 0x10000 = _
      omega
    have low : ((code - 0x10000).toUInt16 &&& 0x3FF).toNat = (code.toNat - 0x10000) % 0x400 := by
      rw [UInt16.toNat_and, UInt32.toNat_toUInt16]
      change _ &&& 2 ^ 10 - 1 = _
      rw [Nat.and_two_pow_sub_one_eq_mod]
      omega
    have highSmall : ((code - 0x10000) >>> 10).toUInt16.toNat < 0x400 := by omega
    have lowSmall : ((code - 0x10000).toUInt16 &&& 0x3FF).toNat < 0x400 := by omega
    rw [map_cons, map_singleton, tagged_toNat (k := 54) rfl highSmall,
      tagged_toNat (k := 55) rfl lowSmall, high, low]
    rfl

/-- The units of a code point. -/
def wide (n : Nat) : List UInt16 := (units n).map UInt16.ofNat

lemma wide_eq (points : List Nat) :
    points.flatMap wide = (points.flatMap units).map UInt16.ofNat := by
  rw [map_flatMap]
  rfl

lemma map_ofNat_toNat (us : List UInt16) : (us.map UInt16.toNat).map UInt16.ofNat = us := by
  have same : UInt16.ofNat ∘ UInt16.toNat = id := funext fun _ => UInt16.ofNat_toNat
  rw [map_map, same, map_id]

lemma encodeUtf16Raw_wide (small : code.toNat < 0x110000) :
    encodeUtf16Raw code [0, 0] = some (wide code.toNat) := by
  obtain ⟨us, written, numbers⟩ := encodeUtf16Raw_eq small
  rw [written, wide, ← numbers, map_ofNat_toNat]

lemma toNat_wide {n : Nat} (small : n < 0x110000) : (wide n).map UInt16.toNat = units n := by
  have same : (UInt32.ofNat n).toNat = n := UInt32.toNat_ofNat_of_lt' (small.trans (by decide))
  obtain ⟨us, -, numbers⟩ := @encodeUtf16Raw_eq (.ofNat n) (by rwa [same])
  rw [same] at numbers
  rw [wide, ← numbers, map_ofNat_toNat]

end

section

/-- The bytes of a sequence of code points. -/
def bytesOf (points : List Nat) : List UInt8 := points.flatMap encoding

lemma bytesOf_append (points others : List Nat) :
    bytesOf (points ++ others) = bytesOf points ++ bytesOf others := flatMap_append

lemma bytesOf_cons (n : Nat) (points : List Nat) :
    bytesOf (n :: points) = encoding n ++ bytesOf points := flatMap_cons

lemma bytesOf_singleton (n : Nat) : bytesOf [n] = encoding n := flatMap_singleton ..

def Bounded (points : List Nat) : Prop := ∀ n ∈ points, n < 0x110000

lemma bounded_append {points others : List Nat} :
    Bounded (points ++ others) ↔ Bounded points ∧ Bounded others := forall_mem_append

lemma bounded_cons {n : Nat} {points : List Nat} :
    Bounded (n :: points) ↔ n < 0x110000 ∧ Bounded points := forall_mem_cons

variable {points : List Nat} {bytes : List UInt8}

lemma shape_encoding {n : Nat} (small : n < 0x110000) : Shape (encoding n) :=
  (generalized_encoding small).1.shape

/-- Three first bytes that look like a surrogate are the first code point. -/
lemma first_of_cons_three (bound : Bounded points) {rest : List UInt8} {b c : UInt8}
    (same : bytesOf points = 0xED :: b :: c :: rest) :
    ∃ after, points = value [0xED, b, c] :: after ∧ rest = bytesOf after := by
  cases points with
  | nil => simp [bytesOf] at same
  | cons n points =>
    obtain ⟨small, -⟩ := bounded_cons.mp bound
    obtain ⟨generalized, number⟩ := generalized_encoding small
    have shape := generalized.shape
    rw [bytesOf_cons] at same
    match code : encoding n, shape with
    | [a], shape | [a, b'], shape | [a, b', c', d], shape =>
      simp only [code, cons_append, List.cons.injEq] at same
      simp [Shape, Ranges, same.1] at shape
    | [a, b', c'], shape =>
      simp only [code, cons_append, nil_append, List.cons.injEq] at same
      obtain ⟨rfl, rfl, rfl, others⟩ := same
      rw [code] at number
      exact ⟨points, by rw [number], others.symm⟩

/-- Three last bytes that look like a surrogate are the last code point. -/
lemma last_of_concat_three (bound : Bounded points) {front : List UInt8} {b c : UInt8}
    (same : bytesOf points = front ++ [0xED, b, c]) :
    ∃ before, points = before ++ [value [0xED, b, c]] ∧ front = bytesOf before := by
  have shape := fun m member => shape_encoding (bound m member)
  -- the first of the three is no continuation byte, so a code point starts there
  obtain ⟨k, taken, dropped⟩ := split_of_boundary shape front.length fun x found => by
    rw [← bytesOf, same] at found
    obtain rfl : 0xED = x := by simpa using found
    decide
  rw [← bytesOf, same] at taken dropped
  rw [take_left] at taken
  rw [drop_left] at dropped
  obtain ⟨after, three, none⟩ :=
    first_of_cons_three (fun m h => bound m (mem_of_mem_drop h)) dropped.symm
  have last : after = [] := by
    cases after with
    | nil => rfl
    | cons n after =>
      have inside : n ∈ points.drop k := by simp [three]
      have some := shape_encoding (bound n (mem_of_mem_drop inside))
      rw [(append_eq_nil_iff.mp none.symm).1] at some
      exact some.elim
  rw [last] at three
  exact ⟨points.take k, by rw [← three, take_append_drop], taken⟩

end

section
variable {points : List Nat} {bytes : List UInt8} {n : Nat}

/-- A surrogate is three bytes, whose second one tells which kind it is. -/
lemma encoding_surrogate (low : 0xD800 ≤ n) (high : n ≤ 0xDFFF) :
    ∃ b c : UInt8, encoding n = [0xED, b, c] ∧ b.toNat = 128 + n / 64 % 64 := by
  have first : 224 + n / 4096 = 237 := by omega
  have small : 128 + n / 64 % 64 < 256 := by omega
  refine ⟨.ofNat (128 + n / 64 % 64), .ofNat (128 + n % 64), ?_, UInt8.toNat_ofNat_of_lt' small⟩
  rw [encoding, if_neg (by omega), if_neg (by omega), if_pos (by omega), first]
  rfl

/-- The encoding of a lead surrogate. -/
def LeadPiece (p : List UInt8) : Prop := ∃ b c, p = [0xED, b, c] ∧ 0xA0 ≤ b ∧ b ≤ 0xAF

/-- The encoding of a trail surrogate. -/
def TrailPiece (p : List UInt8) : Prop := ∃ b c, p = [0xED, b, c] ∧ 0xB0 ≤ b ∧ b ≤ 0xBF

lemma leadPiece_encoding (lead : IsLead n) : LeadPiece (encoding n) := by
  obtain ⟨lowLead, highLead⟩ := lead
  obtain ⟨b, c, code, second⟩ := encoding_surrogate lowLead (by omega)
  refine ⟨b, c, code, UInt8.le_iff_toNat_le.mpr ?_, UInt8.le_iff_toNat_le.mpr ?_⟩
  · show 160 ≤ _
    omega
  · show _ ≤ 175
    omega

lemma trailPiece_encoding (trail : IsTrail n) : TrailPiece (encoding n) := by
  obtain ⟨lowTrail, highTrail⟩ := trail
  obtain ⟨b, c, code, second⟩ := encoding_surrogate (by omega) highTrail
  refine ⟨b, c, code, UInt8.le_iff_toNat_le.mpr ?_, UInt8.le_iff_toNat_le.mpr ?_⟩
  · show 176 ≤ _
    omega
  · show _ ≤ 191
    omega

lemma isLead_value {b : UInt8} (low : 0xA0 ≤ b) (high : b ≤ 0xAF) (c : UInt8) :
    IsLead (value [0xED, b, c]) := by
  have lowB : 160 ≤ b.toNat := low
  have highB : b.toNat ≤ 175 := high
  show 0xD800 ≤ 237 % 16 * 4096 + _ + _ ∧ 237 % 16 * 4096 + _ + _ ≤ 0xDBFF
  omega

lemma isTrail_value {b : UInt8} (low : 0xB0 ≤ b) (high : b ≤ 0xBF) (c : UInt8) :
    IsTrail (value [0xED, b, c]) := by
  have lowB : 176 ≤ b.toNat := low
  have highB : b.toNat ≤ 191 := high
  show 0xDC00 ≤ 237 % 16 * 4096 + _ + _ ∧ 237 % 16 * 4096 + _ + _ ≤ 0xDFFF
  omega

lemma finalLeadSurrogate_concat {front : List UInt8} {b c : UInt8} (low : 0xA0 ≤ b)
    (high : b ≤ 0xAF) :
    finalLeadSurrogate (front ++ [0xED, b, c]) = some (decodeSurrogate b c) := by
  simp [finalLeadSurrogate, low, high]

lemma exists_of_finalLeadSurrogate {lead : UInt16} (found : finalLeadSurrogate bytes = some lead) :
    ∃ front b c, bytes = front ++ [0xED, b, c] ∧ 0xA0 ≤ b ∧ b ≤ 0xAF ∧
      lead = decodeSurrogate b c := by
  rw [finalLeadSurrogate] at found
  split at found
  next c b a front reversed =>
    split at found
    next test =>
      obtain ⟨rfl, low, high⟩ := test
      refine ⟨front.reverse, b, c, ?_, low, high, by simpa using found.symm⟩
      rw [← reverse_inj, reversed]
      simp
    · simp at found
  · simp at found

/-- What `final_lead_surrogate` finds is the last code point. -/
lemma finalLeadSurrogate_some (bound : Bounded points) {lead : UInt16}
    (found : finalLeadSurrogate (bytesOf points) = some lead) :
    ∃ before, points = before ++ [lead.toNat] ∧ IsLead lead.toNat ∧
      (bytesOf points).take ((bytesOf points).length - 3) = bytesOf before := by
  obtain ⟨front, b, c, same, low, high, rfl⟩ := exists_of_finalLeadSurrogate found
  obtain ⟨before, split, rfl⟩ := last_of_concat_three bound same
  have top : b ≤ 0xBF := UInt8.le_trans high (by decide)
  rw [decodeSurrogate_toNat low top]
  refine ⟨before, split, isLead_value low high c, ?_⟩
  rw [same]
  simp

lemma finalLeadSurrogate_none (found : finalLeadSurrogate (bytesOf points) = none) :
    ∀ n ∈ points.getLast?, ¬ IsLead n := by
  intro n last lead
  obtain ⟨before, rfl⟩ := List.getLast?_eq_some_iff.mp last
  obtain ⟨b, c, code, low, high⟩ := leadPiece_encoding lead
  rw [bytesOf_append, bytesOf_singleton, code, finalLeadSurrogate_concat low high] at found
  simp at found

/-- What `initial_trail_surrogate` finds is the first code point. -/
lemma initialTrailSurrogate_some (bound : Bounded points) {trail : UInt16}
    (found : initialTrailSurrogate (bytesOf points) = some trail) :
    ∃ after, points = trail.toNat :: after ∧ IsTrail trail.toNat ∧
      (bytesOf points).drop 3 = bytesOf after := by
  unfold initialTrailSurrogate at found
  split at found
  next a b c rest same =>
    split at found
    next test =>
      obtain ⟨rfl, low, high⟩ := test
      obtain ⟨after, split, others⟩ := first_of_cons_three bound same
      have start : 0xA0 ≤ b := UInt8.le_trans (by decide) low
      cases found
      rw [decodeSurrogate_toNat start high, same]
      exact ⟨after, split, isTrail_value low high c, others⟩
    · simp at found
  · simp at found

lemma initialTrailSurrogate_none (found : initialTrailSurrogate (bytesOf points) = none) :
    ∀ n ∈ points.head?, ¬ IsTrail n := by
  intro n first trail
  obtain ⟨after, rfl⟩ := List.head?_eq_some_iff.mp first
  obtain ⟨b, c, code, low, high⟩ := trailPiece_encoding trail
  rw [bytesOf_cons, code] at found
  simp [initialTrailSurrogate, low, high] at found

end

section
variable {points : List Nat} {bytes : List UInt8}

lemma not_boundary_of_cont {b : UInt8} (cont : 128 ≤ b.toNat ∧ b.toNat ≤ 191) :
    (b < 128 || b ≥ 192) = false := by
  rw [Bool.or_eq_false_iff, decide_eq_false_iff_not, decide_eq_false_iff_not,
    UInt8.lt_iff_toNat_lt, ge_iff_le, UInt8.le_iff_toNat_le]
  show ¬ _ < 128 ∧ ¬ 192 ≤ _
  omega

lemma take_of_boundary (bound : Bounded points) {n : Nat}
    (boundary : isCodePointBoundary (bytesOf points) n) :
    ∃ k, (bytesOf points).take n = bytesOf (points.take k) := by
  have shape := fun m member => shape_encoding (bound m member)
  obtain ⟨k, taken, -⟩ := split_of_boundary shape n fun b found cont => by
    rw [isCodePointBoundary, bytesOf, found] at boundary
    split_ifs at boundary with whole
    · simp [whole] at found
    · exact absurd boundary (by simp [not_boundary_of_cont cont])
  exact ⟨k, taken⟩

lemma pushCodePointUnchecked_eq (bytes : List UInt8) (codePoint : CodePoint) :
    pushCodePointUnchecked bytes codePoint =
      some (bytes ++ encoding codePoint.value.toNat) := by
  have len := lenUtf8_eq codePoint.value
  have room : lenUtf8 codePoint.value ≤ [(0 : UInt8), 0, 0, 0].length := by
    rw [len]
    split_ifs <;> decide
  rw [pushCodePointUnchecked, encodeUtf8Raw_eq codePoint.valid room]
  rfl

lemma pushChar_eq (bytes : List UInt8) (c : Char) :
    pushChar bytes c = some (bytes ++ encoding c.toNat) := pushCodePointUnchecked_eq bytes _

/-- The units that are left: `extra`, and those of the code points, which all satisfy `P`. -/
def EncodeWide.Left (P : Nat → Prop) (s : EncodeWide) (us : List UInt16) : Prop :=
  ∃ points, Bounded points ∧ (∀ n ∈ points, P n) ∧ s.codePoints = bytesOf points ∧
    us = (if s.extra ≠ 0 then [s.extra] else []) ++ points.flatMap wide

/-- `next` gives the units that are left, one by one. -/
lemma EncodeWide.next_reads {P : Nat → Prop} {s : EncodeWide} {us : List UInt16}
    (h : s.Left P us) : ∃ s', s.next = some (us.head?, s') ∧ s'.Left P us.tail := by
  obtain ⟨points, bound, holds, bytes, rfl⟩ := h
  by_cases pending : s.extra ≠ 0
  · exact ⟨{ s with extra := 0 }, by simp [next, pending], points, bound, holds, bytes,
      by simp [pending]⟩
  · rw [not_not] at pending
    cases points with
    | nil =>
      refine ⟨⟨[], 0⟩, ?_, [], bound, holds, rfl, by simp [pending]⟩
      simp [next, pending, bytes, bytesOf, nextCodePoint]
    | cons n points =>
      obtain ⟨small, rest⟩ := bounded_cons.mp bound
      have later := fun m h => holds m (mem_cons_of_mem n h)
      obtain ⟨generalized, number⟩ := generalized_encoding small
      obtain ⟨code, read, same⟩ := nextCodePoint_of_shape generalized.shape
      rw [number] at same
      have written := encodeUtf16Raw_wide (same ▸ small)
      rw [bytesOf_cons] at bytes
      rw [← bytes] at read
      rw [same] at written
      by_cases plane : n < 0x10000
      · have one : wide n = [.ofNat n] := by rw [wide, units_of_lt plane, map_singleton]
        refine ⟨⟨bytesOf points, 0⟩, ?_, points, rest, later, rfl, by simp [pending, one]⟩
        simp [next, pending, read, written, one]
      · obtain ⟨u, v, lead, trail, rfl⟩ := exists_join (not_lt.mp plane) small
        have two : wide (Utf16.join u v) = [.ofNat u, .ofNat v] := by
          rw [wide, units_join lead trail, map_cons, map_singleton]
        -- the second unit of a pair is kept as `extra`, which marks it by not being zero
        have second : UInt16.ofNat v ≠ 0 := by
          obtain ⟨low, high⟩ := trail
          intro zero
          have := congrArg UInt16.toNat zero
          rw [UInt16.toNat_ofNat_of_lt' (lt_of_le_of_lt high (by decide))] at this
          exact absurd (this ▸ low) (by decide)
        refine ⟨⟨bytesOf points, .ofNat v⟩, ?_, points, rest, later, rfl, by
          simp [pending, two, second]⟩
        simp [next, pending, read, written, two]

lemma EncodeWide.collect_of_yields (us : List UInt16) :
    ∀ {s : EncodeWide}, DoubleEnded.Yields next us s → s.collect = some us := by
  induction us with
  | nil => exact fun ⟨_, ended⟩ => collect_end ended
  | cons u us ih => exact fun ⟨_, answer, later⟩ => collect_next answer (ih later)

/-- `encode_wide` writes the units of the code points. -/
lemma encodeWide_bytesOf (bound : Bounded points) :
    encodeWide (bytesOf points) = some (points.flatMap wide) :=
  EncodeWide.collect_of_yields _ (DoubleEnded.yields_of_reads EncodeWide.next_reads _
    ⟨points, bound, fun _ _ => trivial, rfl, rfl⟩)

lemma toNat_wides (bound : Bounded points) :
    (points.flatMap wide).map UInt16.toNat = points.flatMap units := by
  rw [map_flatMap]
  exact flatMap_congr fun n member => toNat_wide (bound n member)

variable {v : List UInt16}

/-- The code point an item of the decoder stands for. -/
def number : Except UInt16 Char → Nat
  | .ok c => c.toNat
  | .error u => u.toNat

lemma surrogate_tests (u : UInt16) :
    (¬ (u < 0xD800 ∨ 0xDFFF < u) ∧ ¬ u ≥ 0xDC00 ↔ IsLead u.toNat) ∧
      (¬ (u < 0xDC00 ∨ u > 0xDFFF) ↔ IsTrail u.toNat) := by
  show (¬ (u.toNat < 0xD800 ∨ 0xDFFF < u.toNat) ∧ ¬ 0xDC00 ≤ u.toNat ↔ 0xD800 ≤ u.toNat ∧ _) ∧
    (¬ (u.toNat < 0xDC00 ∨ 0xDFFF < u.toNat) ↔ 0xDC00 ≤ u.toNat ∧ _)
  omega

/-- `next` gives the code points that the units left stand for, one by one. -/
lemma next_decode (s : DecodeUtf16) :
    match decode (s.left.map UInt16.toNat) with
    | [] => ∃ s', s.next = some (none, s')
    | n :: rest => ∃ item s', s.next = some (some item, s') ∧
        (number item = n ∧ ∀ u, item = .error u → IsLead n ∨ IsTrail n) ∧
        decode (s'.left.map UInt16.toNat) = rest := by
  rw [DecodeUtf16.next, DecodeUtf16.take_eq]
  cases s.left with
  | nil => exact ⟨s, rfl⟩
  | cons u rest =>
    obtain ⟨leadTests, -⟩ := surrogate_tests u
    by_cases lead : IsLead u.toNat
    · obtain ⟨notScalar, notTrail⟩ := leadTests.mpr lead
      simp only [if_neg notScalar, if_neg notTrail, map_cons]
      cases rest with
      | nil => exact ⟨.error u, ⟨[], none⟩, rfl, ⟨rfl, fun _ _ => .inl lead⟩, rfl⟩
      | cons u₂ rest =>
        obtain ⟨-, trailTest⟩ := surrogate_tests u₂
        by_cases trail : IsTrail u₂.toNat
        · obtain ⟨c, result, code⟩ := decodedPair_eq lead trail
          simp only [if_neg (trailTest.mpr trail), map_cons, result]
          rw [decode, if_pos ⟨lead, trail⟩]
          exact ⟨.ok c, ⟨rest, none⟩, rfl, ⟨code, fun _ no => by cases no⟩, rfl⟩
        · have test := not_imp_comm.mp trailTest.mp trail
          simp only [if_pos test, map_cons]
          rw [decode, if_neg fun pair => trail pair.2]
          exact ⟨.error u, ⟨rest, some u₂⟩, rfl, ⟨rfl, fun _ _ => .inl lead⟩, rfl⟩
    · rw [map_cons, decode_alone fun _ _ pair => lead pair.1]
      by_cases scalar : u < 0xD800 ∨ 0xDFFF < u
      · have valid : u.toUInt32.toNat.isValidChar := by
          have := u.toNat_lt
          rw [UInt16.toNat_toUInt32]
          have cases : u.toNat < 0xD800 ∨ 0xDFFF < u.toNat := scalar
          omega
        obtain ⟨c, result, code⟩ := fromU32Unchecked_eq valid
        simp only [if_pos scalar, result]
        exact ⟨.ok c, ⟨rest, none⟩, rfl, ⟨code, fun _ no => by cases no⟩, rfl⟩
      · have trail : u ≥ 0xDC00 := by
          by_contra below
          exact lead (leadTests.mp ⟨scalar, below⟩)
        have isTrail : IsTrail u.toNat := by
          apply (surrogate_tests u).2.mp
          rintro (low | high)
          · exact absurd low (UInt16.not_lt.mpr trail)
          · exact scalar (.inr high)
        simp only [if_neg scalar, if_pos trail]
        exact ⟨.error u, ⟨rest, none⟩, rfl, ⟨rfl, fun _ _ => .inr isTrail⟩, rfl⟩

lemma decode_next (s : DecodeUtf16) :
    match s.next with
    | none => False
    | some (none, _) => decode (s.left.map UInt16.toNat) = []
    | some (some item, s') => decode (s.left.map UInt16.toNat) =
        number item :: decode (s'.left.map UInt16.toNat) := by
  have spec := next_decode s
  split at spec
  · obtain ⟨s', answer⟩ := spec
    rwa [answer]
  next n rest decoded =>
    obtain ⟨item, s', answer, ⟨first, -⟩, later⟩ := spec
    rw [answer]
    simp only
    rw [decoded, first, later]

end

section

/-- The buffer is written by code points without a pair of surrogates. -/
structure Holds (points : List Nat) (bytes : List UInt8) : Prop where
  written : bytes = bytesOf points
  bounded : Bounded points
  unpaired : Unpaired points

variable {points others : List Nat} {bytes other : List UInt8}

lemma pushWide_eq (bytes : List UInt8) (s : DecodeUtf16) :
    pushWide bytes s = some (bytes ++ bytesOf (decode (s.left.map UInt16.toNat))) := by
  have spec := decode_next s
  rw [pushWide]
  split <;> rename_i answer <;> rw [answer] at spec
  · exact spec.elim
  · rw [spec]
    simp [bytesOf]
  · have shorter := DecodeUtf16.next_shorter answer
    rw [pushChar_eq, Option.bind_some, pushWide_eq, spec, append_assoc]
    rfl
  · have shorter := DecodeUtf16.next_shorter answer
    rw [pushCodePointUnchecked_eq, Option.bind_some, pushWide_eq, spec, append_assoc]
    rfl
termination_by s.left.length

lemma toNat_lt (v : List UInt16) : ∀ u ∈ v.map UInt16.toNat, u < 0x10000 := by
  intro u member
  obtain ⟨x, -, rfl⟩ := List.mem_map.mp member
  exact x.toNat_lt

lemma fromWide_holds (v : List UInt16) :
    ∃ bytes, fromWide v = some bytes ∧ Holds (decode (v.map UInt16.toNat)) bytes :=
  ⟨_, pushWide_eq [] _, ⟨nil_append _, decode_lt (toNat_lt v), unpaired_decode _⟩⟩

lemma Holds.nil : Holds [] [] := ⟨rfl, by simp [Bounded], .nil⟩

/-- Two sequences whose seam is no pair. -/
lemma Holds.append (holds : Holds points bytes) (more : Holds others other)
    (seam : ∀ a ∈ points.getLast?, ∀ b ∈ others.head?, ¬ (IsLead a ∧ IsTrail b)) :
    Holds (points ++ others) (bytes ++ other) where
  written := by rw [holds.written, more.written, bytesOf_append]
  bounded := bounded_append.mpr ⟨holds.bounded, more.bounded⟩
  unpaired := List.isChain_append.mpr ⟨holds.unpaired, more.unpaired, seam⟩

lemma holds_singleton {n : Nat} (small : n < 0x110000) : Holds [n] (encoding n) where
  written := (bytesOf_singleton n).symm
  bounded := by simpa [Bounded] using small
  unpaired := .singleton n

/-- A scalar value has no part in a pair of surrogates. -/
lemma Holds.scalar (holds : Holds points bytes) {n : Nat} (small : n < 0x110000)
    (notTrail : ¬ IsTrail n) : Holds (points ++ [n]) (bytes ++ encoding n) := by
  apply holds.append (holds_singleton small)
  rintro a - b first ⟨-, trail⟩
  obtain rfl : n = b := by simpa using first
  exact notTrail trail

lemma pushChar_holds (holds : Holds points bytes) (c : Char) :
    ∃ result, pushChar bytes c = some result ∧ Holds (points ++ [c.toNat]) result := by
  refine ⟨_, pushChar_eq bytes c, holds.scalar (CodePoint.fromChar c).valid ?_⟩
  rintro ⟨low, high⟩
  have valid := isValidChar_toNat c
  omega

/-- A lead and a trail surrogate that meet become one code point with the same units. -/
lemma Holds.rejoin {before after : List Nat} {u v : Nat} (holds : Holds (before ++ [u]) bytes)
    (more : Holds (v :: after) other) (lead : IsLead u) (trail : IsTrail v) :
    Holds (before ++ Utf16.join u v :: after)
        (bytesOf before ++ encoding (Utf16.join u v) ++ bytesOf after) ∧
      (before ++ Utf16.join u v :: after).flatMap units =
        (before ++ [u]).flatMap units ++ (v :: after).flatMap units := by
  obtain ⟨front, -⟩ := bounded_append.mp holds.bounded
  obtain ⟨-, rest⟩ := bounded_cons.mp more.bounded
  obtain ⟨first, -, -⟩ := List.isChain_append.mp holds.unpaired
  obtain ⟨-, last⟩ := List.isChain_cons.mp more.unpaired
  have bounds := join_bounds lead trail
  constructor
  · rw [append_cons before]
    apply Holds.append _ ⟨rfl, rest, last⟩
    · rintro a final b - ⟨isLead, -⟩
      obtain rfl : Utf16.join u v = a := by simpa using final
      exact not_isLead_join lead trail isLead
    · exact Holds.scalar ⟨rfl, front, first⟩ bounds.2 (not_isTrail_join lead trail)
  · have small : u < 0x10000 ∧ v < 0x10000 := by
      obtain ⟨-, highLead⟩ := lead
      obtain ⟨-, highTrail⟩ := trail
      omega
    simp only [flatMap_append, flatMap_cons, flatMap_nil, units_join lead trail,
      units_of_lt small.1, units_of_lt small.2]
    simp

variable (holds : Holds points bytes)
include holds

lemma push_holds (codePoint : CodePoint) :
    ∃ result points', push bytes codePoint = some result ∧ Holds points' result ∧
      points'.flatMap units = points.flatMap units ++ units codePoint.value.toNat := by
  have single := holds_singleton codePoint.valid
  have plain (seam : ∀ a ∈ points.getLast?, ¬ (IsLead a ∧ IsTrail codePoint.value.toNat)) :
      ∃ result points', pushCodePointUnchecked bytes codePoint = some result ∧
        Holds points' result ∧
        points'.flatMap units = points.flatMap units ++ units codePoint.value.toNat := by
    refine ⟨_, _, pushCodePointUnchecked_eq bytes codePoint, holds.append single ?_, ?_⟩
    · intro a final b first
      obtain rfl : codePoint.value.toNat = b := by simpa using first
      exact seam a final
    · rw [flatMap_append, flatMap_singleton]
  have test : 0xDC00 ≤ codePoint.value ∧ codePoint.value ≤ 0xDFFF ↔
      IsTrail codePoint.value.toNat := by
    rfl
  rw [push]
  split
  next trailTest =>
    have trail := test.mp trailTest
    split
    next lead found =>
      rw [holds.written] at found ⊢
      obtain ⟨before, rfl, isLead, cut⟩ := finalLeadSurrogate_some holds.bounded found
      have unit : codePoint.value.toUInt16.toNat = codePoint.value.toNat := by
        obtain ⟨-, high⟩ := trail
        rw [UInt32.toNat_toUInt16, Nat.mod_eq_of_lt (by omega)]
      obtain ⟨c, result, number⟩ := decodeSurrogatePair_eq isLead (unit ▸ trail)
      obtain ⟨joined, same⟩ := holds.rejoin single isLead trail
      rw [unit] at number
      refine ⟨_, _, ?_, joined, ?_⟩
      · simp only [result, cut, Option.bind_eq_bind, Option.bind_some, pushChar_eq, number]
        simp [bytesOf]
      · rw [same, flatMap_singleton]
    next found =>
      apply plain
      rintro a final ⟨lead, -⟩
      rw [holds.written] at found
      exact finalLeadSurrogate_none found a final lead
  next noTrail =>
    exact plain fun _ _ pair => noTrail (test.mpr pair.2)

lemma pushWtf8_holds (more : Holds others other) :
    ∃ result points', pushWtf8 bytes other = some result ∧ Holds points' result ∧
      points'.flatMap units = points.flatMap units ++ others.flatMap units := by
  rw [pushWtf8]
  split
  next u v leadFound trailFound =>
    rw [holds.written] at leadFound ⊢
    rw [more.written] at trailFound ⊢
    obtain ⟨before, rfl, lead, cut⟩ := finalLeadSurrogate_some holds.bounded leadFound
    obtain ⟨after, rfl, trail, rest⟩ := initialTrailSurrogate_some more.bounded trailFound
    obtain ⟨c, result, number⟩ := decodeSurrogatePair_eq lead trail
    obtain ⟨joined, same⟩ := holds.rejoin more lead trail
    refine ⟨_, _, ?_, joined, same⟩
    simp only [result, cut, rest, Option.bind_eq_bind, Option.bind_some, pushChar_eq, number]
    rfl
  next notBoth =>
    refine ⟨_, _, rfl, holds.append more ?_, flatMap_append⟩
    rintro a final b first ⟨lead, trail⟩
    -- without a lead or without a trail surrogate at the seam there is no pair
    cases leadFound : finalLeadSurrogate bytes with
    | none =>
      rw [holds.written] at leadFound
      exact finalLeadSurrogate_none leadFound a final lead
    | some u =>
      cases trailFound : initialTrailSurrogate other with
      | none =>
        rw [more.written] at trailFound
        exact initialTrailSurrogate_none trailFound b first trail
      | some v => exact notBoth u v leadFound trailFound

lemma extend_holds (codePoints : List CodePoint) :
    ∃ result points', extend bytes codePoints = some result ∧ Holds points' result ∧
      points'.flatMap units =
        points.flatMap units ++ codePoints.flatMap fun c => units c.value.toNat := by
  induction codePoints generalizing points bytes with
  | nil => exact ⟨bytes, points, rfl, holds, by simp⟩
  | cons c codePoints ih =>
    obtain ⟨first, points₁, pushed, holds₁, same⟩ := push_holds holds c
    obtain ⟨result, points₂, rest, holds₂, same'⟩ := ih holds₁
    refine ⟨result, points₂, ?_, holds₂, ?_⟩
    · rw [extend, foldlM_cons, pushed]
      exact rest
    · rw [same', same, flatMap_cons, append_assoc]

lemma truncate_holds {n : Nat} {result : List UInt8}
    (cut : truncate bytes n = some result) : ∃ k, Holds (points.take k) result := by
  rw [truncate] at cut
  split at cut
  next boundary =>
    rw [holds.written] at boundary cut
    obtain ⟨k, taken⟩ := take_of_boundary holds.bounded boundary
    cases cut
    exact ⟨k, taken, fun x h => holds.bounded x (mem_of_mem_take h), holds.unpaired.take k⟩
  · simp at cut

end

/-- Generalized UTF-8 in which no lead surrogate is directly followed by a trail surrogate. -/
def WellFormed (bytes : List UInt8) : Prop :=
  ∃ pieces : List (List UInt8), bytes = pieces.flatten ∧ (∀ p ∈ pieces, Generalized p) ∧
    pieces.IsChain fun p q => ¬ (LeadPiece p ∧ TrailPiece q)

lemma leadPiece_iff {p : List UInt8} (generalized : Generalized p) :
    LeadPiece p ↔ IsLead (value p) := by
  constructor
  · rintro ⟨b, c, rfl, low, high⟩
    exact isLead_value low high c
  · intro lead
    have piece := leadPiece_encoding lead
    rwa [encoding_value_of_shape generalized.shape] at piece

lemma trailPiece_iff {p : List UInt8} (generalized : Generalized p) :
    TrailPiece p ↔ IsTrail (value p) := by
  constructor
  · rintro ⟨b, c, rfl, low, high⟩
    exact isTrail_value low high c
  · intro trail
    have piece := trailPiece_encoding trail
    rwa [encoding_value_of_shape generalized.shape] at piece

lemma Holds.wellFormed {points : List Nat} {bytes : List UInt8} (holds : Holds points bytes) :
    WellFormed bytes := by
  refine ⟨points.map encoding, by rw [holds.written, bytesOf, flatMap_def], ?_, ?_⟩
  · intro p member
    obtain ⟨n, inside, rfl⟩ := List.mem_map.mp member
    exact (generalized_encoding (holds.bounded n inside)).1
  · rw [isChain_map]
    have unpaired := holds.unpaired
    have bounded := holds.bounded
    clear holds
    induction points with
    | nil => exact .nil
    | cons n points ih =>
      obtain ⟨small, rest⟩ := bounded_cons.mp bounded
      obtain ⟨first, later⟩ := List.isChain_cons.mp unpaired
      refine List.isChain_cons.mpr ⟨?_, ih later rest⟩
      rintro m next ⟨lead, trail⟩
      obtain ⟨generalized, number⟩ := generalized_encoding small
      obtain ⟨generalized', number'⟩ := generalized_encoding (rest m (mem_of_mem_head? next))
      rw [leadPiece_iff generalized, number] at lead
      rw [trailPiece_iff generalized', number'] at trail
      exact first m next ⟨lead, trail⟩

lemma holds_pieces {pieces : List (List UInt8)} (generalized : ∀ p ∈ pieces, Generalized p)
    (chain : pieces.IsChain fun p q => ¬ (LeadPiece p ∧ TrailPiece q)) :
    Holds (pieces.map value) pieces.flatten := by
  induction pieces with
  | nil => exact .nil
  | cons p pieces ih =>
    obtain ⟨first, rest⟩ := List.forall_mem_cons.mp generalized
    obtain ⟨next, later⟩ := List.isChain_cons.mp chain
    have single := holds_singleton first.value_lt
    rw [encoding_value_of_shape first.shape] at single
    apply single.append (ih rest later)
    rintro a final b start ⟨lead, trail⟩
    obtain rfl : value p = a := by simpa using final
    rw [head?_map, Option.mem_map] at start
    obtain ⟨q, head, rfl⟩ := start
    have second := rest q (mem_of_mem_head? head)
    exact next q head ⟨(leadPiece_iff first).mpr lead, (trailPiece_iff second).mpr trail⟩

lemma WellFormed.holds {bytes : List UInt8} (wellFormed : WellFormed bytes) :
    ∃ points, Holds points bytes := by
  obtain ⟨pieces, rfl, generalized, chain⟩ := wellFormed
  exact ⟨_, holds_pieces generalized chain⟩

/-- A borrowed `Wtf8`. -/
structure Slice where
  bytes : List UInt8
  wellFormed : WellFormed bytes

/-- The calls of a run; `from_wide` starts anew. -/
inductive Call where
  | fromWide (v : List UInt16)
  | push (codePoint : CodePoint)
  | pushChar (c : Char)
  | pushStr (s : List Char)
  | pushWtf8 (other : Slice)
  | extend (codePoints : List CodePoint)
  | truncate (newLen : Nat)

def step (bytes : List UInt8) : Call → Option (List UInt8)
  | .fromWide v => fromWide v
  | .push codePoint => push bytes codePoint
  | .pushChar c => pushChar bytes c
  | .pushStr s => some (pushStr bytes (encodings s))
  | .pushWtf8 other => pushWtf8 bytes other.bytes
  | .extend codePoints => extend bytes codePoints
  | .truncate newLen => truncate bytes newLen

def run (calls : List Call) : Option (List UInt8) := calls.foldlM step []

/-- The units of what a push operation pushes. -/
def Call.pushed : Call → Option (List UInt16)
  | .push codePoint => some (wide codePoint.value.toNat)
  | .pushChar c => some (wide c.toNat)
  | .pushStr s => some (s.flatMap fun c => wide c.toNat)
  | .pushWtf8 other => encodeWide other.bytes
  | .extend codePoints => some (codePoints.flatMap fun c => wide c.value.toNat)
  | .fromWide _ | .truncate _ => none

variable {points : List Nat} {bytes : List UInt8}

lemma Holds.encodeWide (holds : Holds points bytes) :
    encodeWide bytes = some (points.flatMap wide) := by
  rw [holds.written, encodeWide_bytesOf holds.bounded]

lemma holds_encodings (s : List Char) :
    Holds (s.map Char.toNat) (encodings s) ∧ ∀ n ∈ s.map Char.toNat, ¬ IsTrail n := by
  have valid : ∀ n ∈ s.map Char.toNat, n.isValidChar := by
    intro n member
    obtain ⟨c, -, rfl⟩ := List.mem_map.mp member
    exact isValidChar_toNat c
  have scalar : ∀ n ∈ s.map Char.toNat, n < 0x110000 ∧ ¬ IsLead n ∧ ¬ IsTrail n := by
    intro n member
    have bounds := valid n member
    refine ⟨by omega, ?_, ?_⟩
    · rintro ⟨low, high⟩
      omega
    · rintro ⟨low, high⟩
      omega
  refine ⟨⟨?_, fun n h => (scalar n h).1, ?_⟩, fun n h => (scalar n h).2.2⟩
  · rw [bytesOf, flatMap_map]
    rfl
  · refine List.Pairwise.isChain (pairwise_of_forall_mem_list ?_)
    rintro a first b - ⟨lead, -⟩
    exact (scalar a first).2.1 lead

/-- A push appends the units of what is pushed. -/
lemma step_pushed (holds : Holds points bytes) {call : Call} {pushed : List UInt16}
    (pushes : call.pushed = some pushed) :
    ∃ result points', step bytes call = some result ∧ Holds points' result ∧
      points'.flatMap wide = points.flatMap wide ++ pushed := by
  have finish {result : List UInt8} {points' more : List Nat}
      (stepped : step bytes call = some result) (after : Holds points' result)
      (same : points'.flatMap units = points.flatMap units ++ more)
      (all : more.map UInt16.ofNat = pushed) :
      ∃ result points', step bytes call = some result ∧ Holds points' result ∧
        points'.flatMap wide = points.flatMap wide ++ pushed :=
    ⟨result, points', stepped, after, by rw [wide_eq, same, map_append, ← wide_eq, all]⟩
  cases call with
  | push codePoint =>
    obtain ⟨result, points', stepped, after, same⟩ := push_holds holds codePoint
    cases pushes
    exact finish stepped after same rfl
  | pushChar c =>
    obtain ⟨result, stepped, after⟩ := pushChar_holds holds c
    cases pushes
    exact finish stepped after (by rw [flatMap_append, flatMap_singleton]) rfl
  | pushStr s =>
    obtain ⟨text, notTrail⟩ := holds_encodings s
    cases pushes
    refine finish rfl (holds.append text ?_) flatMap_append ?_
    · rintro a - b first ⟨-, trail⟩
      exact notTrail b (mem_of_mem_head? first) trail
    · rw [← wide_eq, flatMap_map]
  | pushWtf8 other =>
    obtain ⟨others, more⟩ := other.wellFormed.holds
    obtain ⟨result, points', stepped, after, same⟩ := pushWtf8_holds holds more
    rw [Call.pushed, more.encodeWide, Option.some.injEq] at pushes
    exact finish stepped after same ((wide_eq others).symm.trans pushes)
  | extend codePoints =>
    obtain ⟨result, points', stepped, after, same⟩ := extend_holds holds codePoints
    cases pushes
    refine finish stepped after same ?_
    rw [map_flatMap]
    rfl
  | fromWide v => cases pushes
  | truncate n => cases pushes

lemma step_holds (holds : Holds points bytes) {call : Call} {result : List UInt8}
    (stepped : step bytes call = some result) : ∃ points', Holds points' result := by
  cases pushes : call.pushed with
  | some pushed =>
    obtain ⟨result', points', stepped', after, -⟩ := step_pushed holds pushes
    cases stepped'.symm.trans stepped
    exact ⟨points', after⟩
  | none =>
    cases call with
    | fromWide v =>
      obtain ⟨result', made, after⟩ := fromWide_holds v
      cases made.symm.trans stepped
      exact ⟨_, after⟩
    | truncate n =>
      obtain ⟨k, after⟩ := truncate_holds holds stepped
      exact ⟨_, after⟩
    | pushWtf8 other =>
      obtain ⟨others, more⟩ := other.wellFormed.holds
      rw [Call.pushed, more.encodeWide] at pushes
      cases pushes
    | push _ | pushChar _ | pushStr _ | extend _ => cases pushes

lemma run_holds {calls : List Call} (ran : run calls = some bytes) :
    ∃ points, Holds points bytes := by
  suffices from_any : ∀ calls start points, Holds points start →
      List.foldlM step start calls = some bytes → ∃ points, Holds points bytes from
    from_any calls [] [] .nil ran
  intro calls
  induction calls with
  | nil =>
    rintro start points holds ⟨⟩
    exact ⟨points, holds⟩
  | cons call calls ih =>
    intro start points holds ran
    rw [foldlM_cons, Option.bind_eq_bind, Option.bind_eq_some_iff] at ran
    obtain ⟨middle, stepped, rest⟩ := ran
    obtain ⟨points', after⟩ := step_holds holds stepped
    exact ih middle points' after rest

/-- `Wtf8Buf` represents sequences of 16-bit units faithfully. -/
theorem wtf8_faithful :
    (∀ v : List UInt16, ∃ bytes, fromWide v = some bytes ∧ encodeWide bytes = some v) ∧
    (∀ calls bytes, run calls = some bytes → WellFormed bytes ∧
      ∃ us, encodeWide bytes = some us ∧
        ∀ call pushed, Call.pushed call = some pushed →
          ∃ result, step bytes call = some result ∧ encodeWide result = some (us ++ pushed)) ∧
    (∀ calls calls' bytes bytes', run calls = some bytes → run calls' = some bytes' →
      encodeWide bytes = encodeWide bytes' → bytes = bytes') := by
  refine ⟨?_, ?_, ?_⟩
  · intro v
    obtain ⟨bytes, made, holds⟩ := fromWide_holds v
    refine ⟨bytes, made, ?_⟩
    rw [holds.encodeWide, wide_eq, units_decode (toNat_lt v), map_ofNat_toNat]
  · intro calls bytes ran
    obtain ⟨points, holds⟩ := run_holds ran
    refine ⟨holds.wellFormed, _, holds.encodeWide, ?_⟩
    intro call pushed pushes
    obtain ⟨result, points', stepped, after, same⟩ := step_pushed holds pushes
    exact ⟨result, stepped, by rw [after.encodeWide, same]⟩
  · intro calls calls' bytes bytes' ran ran' same
    obtain ⟨points, holds⟩ := run_holds ran
    obtain ⟨points', holds'⟩ := run_holds ran'
    rw [holds.encodeWide, holds'.encodeWide, Option.some.injEq] at same
    have equal := units_injective holds.bounded holds.unpaired holds'.bounded holds'.unpaired
      (by rw [← toNat_wides holds.bounded, same, toNat_wides holds'.bounded])
    rw [holds.written, holds'.written, equal]

/-- The second half of a pair is pushed behind the first. -/
theorem wtf8_faithful_pair :
    ∃ us, encodeWide [0xED, 0xA0, 0xBD] = some us ∧
      ∃ result, step [0xED, 0xA0, 0xBD] (.push ⟨0xDE00, by decide⟩) = some result ∧
        encodeWide result = some (us ++ [0xDE00]) := by
  have ran : run [.push ⟨0xD83D, by decide⟩] = some [0xED, 0xA0, 0xBD] := by decide +kernel
  obtain ⟨-, us, all, pushes⟩ := wtf8_faithful.2.1 _ _ ran
  exact ⟨us, all, pushes (.push ⟨0xDE00, by decide⟩) [0xDE00] (by decide +kernel)⟩

end Wtf8
