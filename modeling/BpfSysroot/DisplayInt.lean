import BpfSysroot.LongDivision
import BpfSysroot.Numerals
import BpfSysroot.WideWords

/-!
# Display of integers

`impl_Display`, `parse_u64_into`, `fmt_u128` and `udiv_1e19` of `core/src/fmt/num.rs`.
The digits are written from the end of an uninitialised buffer of 39 bytes towards
its start, through raw pointers: a write outside the buffer, a read outside the
digit table, a read of an uninitialised byte and a failed assertion are all `none`.
The formatter is the default one.
-/

namespace DisplayInt

open Numerals LongDivision WideWords List Nat
open BitVec (toNat_ofInt toNat_setWidth toNat_ushiftRight)
open Option (bind_some bind_eq_bind)

/-- The primitive integer types, on a target with 64-bit pointers. -/
inductive IntType where
  | i8 | i16 | i32 | i64 | i128 | isize
  | u8 | u16 | u32 | u64 | u128 | usize
  deriving DecidableEq, Repr

namespace IntType

def width : IntType → Nat
  | i8 | u8 => 8
  | i16 | u16 => 16
  | i32 | u32 => 32
  | i64 | u64 | isize | usize => 64
  | i128 | u128 => 128

def signed : IntType → Bool
  | i8 | i16 | i32 | i64 | i128 | isize => true
  | u8 | u16 | u32 | u64 | u128 | usize => false

def min (t : IntType) : Int := if t.signed then -2 ^ (t.width - 1) else 0

def max (t : IntType) : Int := if t.signed then 2 ^ (t.width - 1) - 1 else 2 ^ t.width - 1

def Contains (t : IntType) (n : Int) : Prop := t.min ≤ n ∧ n ≤ t.max

instance (t : IntType) (n : Int) : Decidable (t.Contains n) := inferInstanceAs (Decidable (_ ∧ _))

end IntType

/-- The byte of a decimal digit, `(d as u8) + b'0'`. -/
def digitByte (d : Nat) : UInt8 := UInt8.ofNat d + 48

def ascii (ds : List Nat) : List UInt8 := ds.map digitByte

/-- The two digits of every number below 100, one after the other. -/
def decDigitsLut : List UInt8 := ascii
  [0,0, 0,1, 0,2, 0,3, 0,4, 0,5, 0,6, 0,7, 0,8, 0,9,
   1,0, 1,1, 1,2, 1,3, 1,4, 1,5, 1,6, 1,7, 1,8, 1,9,
   2,0, 2,1, 2,2, 2,3, 2,4, 2,5, 2,6, 2,7, 2,8, 2,9,
   3,0, 3,1, 3,2, 3,3, 3,4, 3,5, 3,6, 3,7, 3,8, 3,9,
   4,0, 4,1, 4,2, 4,3, 4,4, 4,5, 4,6, 4,7, 4,8, 4,9,
   5,0, 5,1, 5,2, 5,3, 5,4, 5,5, 5,6, 5,7, 5,8, 5,9,
   6,0, 6,1, 6,2, 6,3, 6,4, 6,5, 6,6, 6,7, 6,8, 6,9,
   7,0, 7,1, 7,2, 7,3, 7,4, 7,5, 7,6, 7,7, 7,8, 7,9,
   8,0, 8,1, 8,2, 8,3, 8,4, 8,5, 8,6, 8,7, 8,8, 8,9,
   9,0, 9,1, 9,2, 9,3, 9,4, 9,5, 9,6, 9,7, 9,8, 9,9]

/-- What `copy_nonoverlapping(lut_ptr.offset(d), _, 2)` reads. -/
def lutPair (d : Nat) : Option (List UInt8) :=
  if d + 2 ≤ 200 then some ((decDigitsLut.drop d).take 2) else none

/-- Writes through `buf_ptr.offset(offset)`. -/
def store (slots : List (Option UInt8)) (offset : Int) (bytes : List UInt8) :
    Option (List (Option UInt8)) :=
  if 0 ≤ offset ∧ offset + bytes.length ≤ slots.length then
    some (slots.take offset.toNat ++ bytes.map some ++ slots.drop (offset.toNat + bytes.length))
  else none

/-- Copies of pairs from the table to `offset + 0`, `offset + 2`, … -/
def copyPairs (slots : List (Option UInt8)) (offset : Int) : List Nat → Option (List (Option UInt8))
  | [] => some slots
  | d :: ds => do
    let two ← lutPair d
    let slots ← store slots offset two
    copyPairs slots (offset + 2) ds

/-- The buffer and the index `curr` of the first byte written so far. -/
structure Buffer where
  slots : List (Option UInt8)
  curr : Int

namespace Buffer

def uninit : Buffer := ⟨replicate 39 none, 39⟩

/-- Moves `curr` back by the length of the pairs and copies them there. -/
def copyBack (b : Buffer) (ds : List Nat) : Option Buffer := do
  let curr := b.curr - 2 * ds.length
  let slots ← copyPairs b.slots curr ds
  some ⟨slots, curr⟩

def writeBack (b : Buffer) (c : UInt8) : Option Buffer := do
  let curr := b.curr - 1
  let slots ← store b.slots curr [c]
  some ⟨slots, curr⟩

/-- `write_bytes` of zeros from `target` up to `curr`; a negative count would be cast to a huge
one. -/
def zeroBack (b : Buffer) (target : Int) : Option Buffer := do
  if b.curr < target then none
  let slots ← store b.slots target (replicate (b.curr - target).toNat 48)
  some ⟨slots, target⟩

/-- The slice from `curr` to the end of the buffer. -/
def text (b : Buffer) : Option (List UInt8) :=
  if 0 ≤ b.curr ∧ b.curr ≤ b.slots.length then (b.slots.drop b.curr.toNat).mapM id else none

end Buffer

inductive Alignment where
  | left | right | center | unknown

/-- The options of a formatter; the fill is a character in UTF-8. -/
structure Formatter where
  width : Option Nat
  precision : Option Nat
  fill : List UInt8
  align : Alignment
  alternate : Bool
  signPlus : Bool
  signAwareZeroPad : Bool

/-- The formatter of `{}`. -/
def Formatter.new : Formatter := ⟨none, none, [32], .unknown, false, false, false⟩

section
variable (f : Formatter)

/-- The bytes before and after a text that is too short. -/
def padding (missing : Nat) (default : Alignment) : List UInt8 × List UInt8 :=
  let align := match f.align with
    | .unknown => default
    | align => align
  let (pre, post) := match align with
    | .left => (0, missing)
    | .right | .unknown => (missing, 0)
    | .center => (missing / 2, (missing + 1) / 2)
  ((replicate pre f.fill).flatten, (replicate post f.fill).flatten)

/-- `mark` is the prefix of the radix. -/
def padIntegral (isNonnegative : Bool) (mark buf : List UInt8) : List UInt8 :=
  let sign := if isNonnegative then if f.signPlus then [43] else [] else [45]
  let front := sign ++ if f.alternate then mark else []
  let width := front.length + buf.length
  match f.width with
  | none => front ++ buf
  | some min =>
    if width ≥ min then front ++ buf
    else if f.signAwareZeroPad then
      let (pre, post) := padding { f with fill := [48], align := .right } (min - width) .right
      front ++ pre ++ buf ++ post
    else
      let (pre, post) := padding f (min - width) .right
      pre ++ front ++ buf ++ post

end

/-- The part of a number of up to four digits that goes beyond its last pair. -/
def hundreds (n : Nat) (b : Buffer) : Option (Nat × Buffer) :=
  if 100 ≤ n then do
    let b ← b.copyBack [(n % 100) <<< 1]
    some (n / 100, b)
  else some (n, b)

/-- The last digits of a number below 10000, the same in both formatters. -/
def lastDigits (n : Nat) (b : Buffer) : Option Buffer := do
  let (n, b) ← hundreds n b
  if n < 10 then b.writeBack (digitByte n) else b.copyBack [n <<< 1]

/-- The loop of `impl_Display`: four characters at a time. -/
def fourAtATime (n : Nat) (b : Buffer) : Option (Nat × Buffer) :=
  if _h : 10000 ≤ n then do
    let rem := n % 10000
    let b ← b.copyBack [(rem / 100) <<< 1, (rem % 100) <<< 1]
    fourAtATime (n / 10000) b
  else some (n, b)
termination_by n

def fmtU64 (n : DuInt) (isNonnegative : Bool) : Option (List UInt8) := do
  let (n, b) ← fourAtATime n.toNat .uninit
  let b ← lastDigits n b
  let bufSlice ← b.text
  some (padIntegral .new isNonnegative [] bufSlice)

/- The blocks of `parse_u64_into`. -/

def sixteen (n : Nat) (b : Buffer) : Option (Nat × Buffer) :=
  if 10 ^ 16 ≤ n then do
    let toParse := n % 10 ^ 16
    let b ← b.copyBack
      [(toParse / 10 ^ 14 % 100) <<< 1, (toParse / 10 ^ 12 % 100) <<< 1,
        (toParse / 10 ^ 10 % 100) <<< 1, (toParse / 10 ^ 8 % 100) <<< 1,
        (toParse / 10 ^ 6 % 100) <<< 1, (toParse / 10 ^ 4 % 100) <<< 1,
        (toParse / 10 ^ 2 % 100) <<< 1, (toParse / 10 ^ 0 % 100) <<< 1]
    some (n / 10 ^ 16, b)
  else some (n, b)

def eight (n : Nat) (b : Buffer) : Option (Nat × Buffer) :=
  if 10 ^ 8 ≤ n then do
    let toParse := n % 10 ^ 8
    let b ← b.copyBack
      [(toParse / 10 ^ 6 % 100) <<< 1, (toParse / 10 ^ 4 % 100) <<< 1,
        (toParse / 10 ^ 2 % 100) <<< 1, (toParse / 10 ^ 0 % 100) <<< 1]
    some (n / 10 ^ 8, b)
  else some (n, b)

def four (n : Nat) (b : Buffer) : Option (Nat × Buffer) :=
  if 10 ^ 4 ≤ n then do
    let toParse := n % 10 ^ 4
    let b ← b.copyBack [(toParse / 100) <<< 1, (toParse % 100) <<< 1]
    some (n / 10 ^ 4, b)
  else some (n, b)

/-- The casts to `u32` and `u16` are those of the source. -/
def parseU64Into (n : DuInt) (b : Buffer) : Option Buffer := do
  if ¬ 19 < b.curr then none
  let (n, b) ← sixteen n.toNat b
  let (n, b) ← eight n b
  let (n, b) ← four (n % 2 ^ 32) b
  lastDigits (n % 2 ^ 16) b

/-- The constant `DIV`. -/
def div1e19 : DuInt := 10000000000000000000

/-- One round of the loop: the next bit of the dividend goes from `q` to `r`. -/
def udivStep : DuInt × TuInt × TuInt → DuInt × TuInt × TuInt := fun (carry, q, r) =>
  let r := r <<< 1 ||| q >>> 127
  let q := q <<< 1 ||| carry.setWidth 128
  let s := (div1e19.setWidth 128 - r - 1).sshiftRight 127
  ((s &&& 1).setWidth 64, q, r - (div1e19.setWidth 128 &&& s))

def udiv1e19 (n : TuInt) : TuInt × DuInt :=
  let high : DuInt := (n >>> 64).setWidth 64
  if high = 0 then
    let low : DuInt := n.setWidth 64
    ((low / div1e19).setWidth 128, low % div1e19)
  else
    let sr := 65 - high.clz.toNat
    let (carry, q, r) := udivStep^[sr] (0, n <<< (128 - sr), n >>> sr)
    (q <<< 1 ||| carry.setWidth 128, r.setWidth 64)

/-- The pieces of `fmt_u128` above the last nineteen digits. -/
def upperPieces (n : TuInt) (b : Buffer) : Option Buffer := do
  let b ← b.zeroBack (39 - 19)
  let (n, rem) := udiv1e19 n
  let b ← parseU64Into rem b
  if n ≠ 0 then
    let b ← b.zeroBack (39 - 38)
    b.writeBack (digitByte (n.toNat % 2 ^ 8))
  else some b

def fmtU128 (n : TuInt) (isNonnegative : Bool) : Option (List UInt8) := do
  let (n, rem) := udiv1e19 n
  let b ← parseU64Into rem .uninit
  let b ← if n ≠ 0 then upperPieces n b else some b
  let bufSlice ← b.text
  some (padIntegral .new isNonnegative [] bufSlice)

/-- The magnitude handed to the formatter: two's complement for a negative number. -/
def magnitude (w : Nat) (n : Int) : BitVec w :=
  if 0 ≤ n then BitVec.ofInt w n else ~~~BitVec.ofInt w n + 1#w

/-- `Display::fmt` of every integer type; the text written, in bytes. -/
def display : IntType → Int → Option (List UInt8)
  | .u128, n => fmtU128 (BitVec.ofInt 128 n) true
  | .i128, n => fmtU128 (magnitude 128 n) (decide (0 ≤ n))
  | _, n => fmtU64 (magnitude 64 n) (decide (0 ≤ n))

@[simp] theorem length_ascii (ds : List Nat) : (ascii ds).length = ds.length := by simp [ascii]

@[simp] theorem ascii_append (ds es : List Nat) : ascii (ds ++ es) = ascii ds ++ ascii es := by
  simp [ascii]

lemma lutPair_double {x : Nat} (hx : x < 100) :
    lutPair (x <<< 1) = some (ascii (padded 10 2 x)) := by
  have table : ∀ y : Fin 100, lutPair (y.val <<< 1) = some (ascii (padded 10 2 y.val)) := by
    decide +kernel
  exact table ⟨x, hx⟩

lemma length_of_store {slots after : List (Option UInt8)} {offset : Int} {bytes : List UInt8}
    (stored : store slots offset bytes = some after) : after.length = slots.length := by
  rw [store] at stored
  split at stored
  · obtain rfl := Option.some.inj stored
    simp only [length_append, length_take, length_map, length_drop]
    omega
  · cases stored

lemma store_append (slots : List (Option UInt8)) (offset : Int) (xs ys : List UInt8) :
    (store slots offset xs).bind (fun after => store after (offset + xs.length) ys) =
      store slots offset (xs ++ ys) := by
  by_cases first : 0 ≤ offset ∧ offset + xs.length ≤ slots.length
  · have stored : store slots offset xs = some (slots.take offset.toNat ++ xs.map some ++
        slots.drop (offset.toNat + xs.length)) := if_pos first
    have length := length_of_store stored
    rw [stored, bind_some, store, store, length]
    have start : (slots.take offset.toNat ++ xs.map some).length = offset.toNat + xs.length := by
      simp only [length_append, length_take, length_map]
      omega
    have index : (offset + xs.length).toNat = offset.toNat + xs.length := by omega
    have both : (0 ≤ offset + xs.length ∧ offset + xs.length + ys.length ≤ slots.length) ↔
        (0 ≤ offset ∧ offset + (xs ++ ys).length ≤ slots.length) := by
      rw [length_append]
      omega
    have rest : (slots.take offset.toNat ++ xs.map some ++
        slots.drop (offset.toNat + xs.length)).drop (offset.toNat + xs.length + ys.length) =
        slots.drop (offset.toNat + (xs ++ ys).length) := by
      rw [← start, drop_length_add_append, start, drop_drop, length_append, add_assoc]
    rw [index, rest, take_left' start]
    simp only [both, map_append, append_assoc]
  · have later : ¬ (0 ≤ offset ∧ offset + (xs ++ ys).length ≤ slots.length) := by
      rw [length_append]
      omega
    rw [store, if_neg first, Option.bind_none, store, if_neg later]

/-- The pairs copied one after the other are one write. -/
lemma copyPairs_eq (xs : List Nat) (small : ∀ x ∈ xs, x < 100) (slots : List (Option UInt8))
    (offset : Int) (start : 0 ≤ offset) (fits : offset + 2 * xs.length ≤ slots.length) :
    copyPairs slots offset (xs.map (· <<< 1)) =
      store slots offset (ascii (xs.flatMap (padded 10 2))) := by
  induction xs generalizing slots offset with
  | nil =>
    have inside : offset ≤ slots.length := by simpa using fits
    simp [copyPairs, store, ascii, start, inside]
  | cons x xs ih =>
    have two := lutPair_double (small x (by simp))
    rw [map_cons, copyPairs, two, flatMap_cons, ascii_append, ← store_append]
    simp only [bind_eq_bind, bind_some]
    cases stored : store slots offset (ascii (padded 10 2 x)) with
    | none => rfl
    | some after =>
      rw [length_cons] at fits
      apply ih (fun y member => small y (mem_cons_of_mem x member))
      · omega
      · rw [length_of_store stored]
        omega

/-- From `curr` on the buffer holds the text written so far. -/
structure Buffer.Holds (b : Buffer) (text : List UInt8) : Prop where
  length_slots : b.slots.length = 39
  start : 0 ≤ b.curr
  curr_add : b.curr + text.length = 39
  drop_slots : b.slots.drop b.curr.toNat = text.map some

namespace Buffer.Holds

variable {b : Buffer} {written : List UInt8}

lemma uninit : Buffer.uninit.Holds [] := by
  constructor <;> simp [Buffer.uninit]

variable (holds : b.Holds written)
include holds

lemma text_eq : b.text = some written := by
  obtain ⟨length, start, curr, slots⟩ := holds
  have inside : 0 ≤ b.curr ∧ b.curr ≤ b.slots.length := by omega
  rw [Buffer.text, if_pos inside, slots, mapM_map]
  exact mapM_pure.trans (by simp)

/-- A write that ends at `curr` extends the text. -/
lemma store (bytes : List UInt8) (fits : bytes.length ≤ b.curr) :
    ∃ slots, DisplayInt.store b.slots (b.curr - bytes.length) bytes = some slots ∧
      Buffer.Holds ⟨slots, b.curr - bytes.length⟩ (bytes ++ written) := by
  obtain ⟨length, start, curr, drop⟩ := holds
  have inside : 0 ≤ b.curr - bytes.length ∧
      b.curr - bytes.length + bytes.length ≤ b.slots.length := by omega
  have stored : DisplayInt.store b.slots (b.curr - bytes.length) bytes =
      some (b.slots.take (b.curr - bytes.length).toNat ++ bytes.map some ++
        b.slots.drop ((b.curr - bytes.length).toNat + bytes.length)) := if_pos inside
  refine ⟨_, stored, ?_, inside.1, ?_, ?_⟩
  · rw [length_of_store stored, length]
  · simp only [length_append]
    omega
  · have index : (b.curr - bytes.length).toNat + bytes.length = b.curr.toNat := by omega
    have front : (b.slots.take (b.curr - bytes.length).toNat).length =
        (b.curr - bytes.length).toNat := by
      rw [length_take]
      omega
    rw [index, drop, append_assoc, drop_left' front, map_append]

lemma copyBack (xs : List Nat) (small : ∀ x ∈ xs, x < 100) (fits : 2 * xs.length ≤ b.curr) :
    ∃ after, b.copyBack (xs.map (· <<< 1)) = some after ∧
      after.Holds (ascii (xs.flatMap (padded 10 2)) ++ written) := by
  have width : (ascii (xs.flatMap (padded 10 2))).length = 2 * xs.length := by
    simp [length_flatMap, mul_comm]
  have length := holds.length_slots
  have total := holds.curr_add
  obtain ⟨slots, stored, after⟩ := holds.store (ascii (xs.flatMap (padded 10 2))) (by omega)
  rw [width, cast_mul, cast_two] at stored after
  refine ⟨_, ?_, after⟩
  rw [Buffer.copyBack, length_map, copyPairs_eq xs small _ _ (by omega) (by omega), stored]
  rfl

lemma writeBack (c : UInt8) (fits : 1 ≤ b.curr) :
    ∃ after, b.writeBack c = some after ∧ after.Holds (c :: written) := by
  obtain ⟨slots, stored, after⟩ := holds.store [c] (by simpa using fits)
  refine ⟨⟨slots, b.curr - 1⟩, ?_, after⟩
  exact congrArg (fun s => s.bind fun slots => some (Buffer.mk slots (b.curr - 1))) stored

lemma zeroBack {target : Int} (start : 0 ≤ target) (below : target ≤ b.curr) :
    ∃ after, b.zeroBack target = some after ∧ after.curr = target ∧
      after.Holds (replicate (b.curr - target).toNat 48 ++ written) := by
  have width : ((replicate (b.curr - target).toNat (48 : UInt8)).length : Int) =
      b.curr - target := by
    rw [length_replicate]
    omega
  obtain ⟨slots, stored, after⟩ := holds.store (replicate (b.curr - target).toNat 48) (by omega)
  rw [width, Int.sub_sub_self] at stored after
  refine ⟨⟨slots, target⟩, ?_, rfl, after⟩
  have keep : ¬ b.curr < target := by omega
  simp [Buffer.zeroBack, keep, stored]

end Buffer.Holds

section

/-- Writing the numeral of `n` before what the buffer holds gives `out`, and there is room. -/
def Pending (out : List UInt8) (n : Nat) (b : Buffer) : Prop :=
  ∃ written, b.Holds written ∧ out = ascii (numeral 10 n) ++ written ∧ out.length ≤ 39

variable {out : List UInt8} {n : Nat} {b : Buffer}

section
variable (pending : Pending out n b)
include pending

/-- Copying the last pairs of digits leaves the number without them. -/
lemma Pending.copyBack (xs : List Nat) {p : Nat}
    (power : 10 ^ (2 * xs.length) = p) (small : ∀ x ∈ xs, x < 100)
    (digits : xs.flatMap (padded 10 2) = padded 10 (2 * xs.length) n) (large : p ≤ n) :
    ∃ after, b.copyBack (xs.map (· <<< 1)) = some after ∧ Pending out (n / p) after := by
  subst power
  obtain ⟨written, holds, rfl, room⟩ := pending
  have split := numeral_eq_append (by decide) (2 * xs.length) large
  have length : (numeral 10 n).length = (numeral 10 (n / 10 ^ (2 * xs.length))).length +
      2 * xs.length := by rw [split, length_append, length_padded]
  have total := holds.curr_add
  rw [length_append, length_ascii] at room
  obtain ⟨after, copied, holds⟩ := holds.copyBack xs small (by omega)
  refine ⟨after, copied, _, holds, ?_, ?_⟩
  · rw [digits, split, ascii_append, append_assoc]
  · rw [length_append, length_ascii]
    exact room

/-- The shape of all the blocks: if the number is large enough, its last pairs are copied. -/
lemma block_spec (xs : List Nat) {p : Nat}
    (power : 10 ^ (2 * xs.length) = p) (small : ∀ x ∈ xs, x < 100)
    (digits : xs.flatMap (padded 10 2) = padded 10 (2 * xs.length) n) :
    ∃ m after, (if p ≤ n then (b.copyBack (xs.map (· <<< 1))).bind (fun b => some (n / p, b))
        else some (n, b)) = some (m, after) ∧
      Pending out m after ∧ m = if p ≤ n then n / p else n := by
  by_cases large : p ≤ n
  · obtain ⟨after, copied, pending⟩ := pending.copyBack xs power small digits large
    simp only [large, if_true, copied]
    exact ⟨_, after, rfl, pending, rfl⟩
  · simp only [large, if_false]
    exact ⟨n, b, rfl, pending, rfl⟩

lemma hundreds_spec (small : n < 10000) :
    ∃ m after, hundreds n b = some (m, after) ∧ Pending out m after ∧ m < 100 := by
  have digits : [n % 100].flatMap (padded 10 2) = padded 10 2 n := by
    rw [flatMap_singleton]
    exact padded_mod 2 n
  obtain ⟨m, after, block, pending, rest⟩ :=
    block_spec (p := 100) pending [n % 100] rfl (by simpa using mod_lt n (by decide)) digits
  refine ⟨m, after, block, pending, ?_⟩
  split at rest <;> omega

lemma lastDigits_spec (small : n < 10000) :
    ∃ after, lastDigits n b = some after ∧ after.Holds out := by
  obtain ⟨m, middle, block, ⟨written, holds, rfl, room⟩, bound⟩ := hundreds_spec pending small
  rw [length_append, length_ascii] at room
  have total := holds.curr_add
  rw [lastDigits, block]
  simp only [bind_eq_bind, bind_some]
  by_cases digit : m < 10
  · rw [numeral_of_lt digit, length_singleton] at room
    rw [if_pos digit, numeral_of_lt digit]
    exact holds.writeBack (digitByte m) (by omega)
  · have two : numeral 10 m = padded 10 2 m := by
      have front : m / 10 < 10 := by omega
      rw [numeral_of_le (by decide) (by omega), numeral_of_lt front]
      simp [padded, mod_eq_of_lt front]
    rw [two, length_padded] at room
    obtain ⟨after, copied, holds⟩ :=
      holds.copyBack [m] (by simpa using bound) (by rw [length_singleton]; omega)
    rw [flatMap_singleton, ← two] at holds
    rw [if_neg digit]
    exact ⟨after, copied, holds⟩

end

lemma flatMap_four {m : Nat} (hm : m = n % 10 ^ 4) :
    (∀ x ∈ [m / 100, m % 100], x < 100) ∧
      [m / 100, m % 100].flatMap (padded 10 2) = padded 10 4 n := by
  constructor
  · simp only [mem_cons, not_mem_nil, or_false, forall_eq_or_imp, forall_eq]
    omega
  · have low := padded_mod (b := 10) 2 m
    rw [← padded_mod, ← hm, padded_add 2 2 m, ← low]
    simp

lemma fourAtATime_spec (pending : Pending out n b) :
    ∃ m after, fourAtATime n b = some (m, after) ∧ Pending out m after ∧ m < 10000 := by
  induction n using Nat.strongRecOn generalizing b with
  | ind n ih =>
    rw [fourAtATime]
    by_cases large : 10000 ≤ n
    · obtain ⟨small, digits⟩ := flatMap_four rfl
      obtain ⟨middle, copied, pending⟩ := pending.copyBack _ (by norm_num) small digits large
      obtain ⟨m, after, rest, found⟩ := ih (n / 10000) (by omega) pending
      rw [dif_pos large]
      exact ⟨m, after, (congrArg (Option.bind · _) copied).trans rest, found⟩
    · rw [dif_neg large]
      exact ⟨n, b, rfl, pending, by omega⟩

lemma fmtU64_spec (n : DuInt) (isNonnegative : Bool) :
    fmtU64 n isNonnegative =
      some (padIntegral .new isNonnegative [] (ascii (numeral 10 n.toNat))) := by
  have room : (ascii (numeral 10 n.toNat) ++ []).length ≤ 39 := by
    rw [append_nil, length_ascii]
    exact length_numeral_le (by decide) (n.isLt.trans (by norm_num))
  obtain ⟨m, middle, loop, pending, small⟩ := fourAtATime_spec ⟨[], Buffer.Holds.uninit, rfl, room⟩
  obtain ⟨after, last, holds⟩ := lastDigits_spec pending small
  rw [fmtU64, loop]
  simp only [bind_eq_bind, bind_some]
  rw [last, bind_some, holds.text_eq, bind_some, append_nil]

lemma padded_pair (k : Nat) : padded 10 2 (n / 10 ^ k % 100) = padded 10 2 (n / 10 ^ k) :=
  padded_mod 2 (n / 10 ^ k)

section
variable (pending : Pending out n b)
include pending

lemma sixteen_spec : ∃ m after, sixteen n b = some (m, after) ∧ Pending out m after ∧
      m = if 10 ^ 16 ≤ n then n / 10 ^ 16 else n := by
  apply block_spec pending
    [n % 10 ^ 16 / 10 ^ 14 % 100, n % 10 ^ 16 / 10 ^ 12 % 100, n % 10 ^ 16 / 10 ^ 10 % 100,
      n % 10 ^ 16 / 10 ^ 8 % 100, n % 10 ^ 16 / 10 ^ 6 % 100, n % 10 ^ 16 / 10 ^ 4 % 100,
      n % 10 ^ 16 / 10 ^ 2 % 100, n % 10 ^ 16 / 10 ^ 0 % 100] rfl
  · simp only [mem_cons, not_mem_nil, or_false, forall_eq_or_imp, forall_eq]
    omega
  · rw [← padded_mod]
    simp only [flatMap_cons, flatMap_nil, padded_pair, append_nil]
    simp only [pow_zero, Nat.div_one, ← padded_add, Nat.reduceAdd, length_cons,
      length_nil, Nat.reduceMul]

lemma eight_spec : ∃ m after, eight n b = some (m, after) ∧ Pending out m after ∧
      m = if 10 ^ 8 ≤ n then n / 10 ^ 8 else n := by
  apply block_spec pending
    [n % 10 ^ 8 / 10 ^ 6 % 100, n % 10 ^ 8 / 10 ^ 4 % 100, n % 10 ^ 8 / 10 ^ 2 % 100,
      n % 10 ^ 8 / 10 ^ 0 % 100] rfl
  · simp only [mem_cons, not_mem_nil, or_false, forall_eq_or_imp, forall_eq]
    omega
  · rw [← padded_mod]
    simp only [flatMap_cons, flatMap_nil, padded_pair, append_nil]
    simp only [pow_zero, Nat.div_one, ← padded_add, Nat.reduceAdd, length_cons,
      length_nil, Nat.reduceMul]

lemma four_spec : ∃ m after, four n b = some (m, after) ∧ Pending out m after ∧
      m = if 10 ^ 4 ≤ n then n / 10 ^ 4 else n := by
  obtain ⟨small, digits⟩ := flatMap_four rfl
  exact block_spec pending _ rfl small digits

end

/-- The number is written before what the buffer holds; the casts never lose a digit. -/
lemma parseU64Into_spec (n : DuInt) {written : List UInt8} (holds : b.Holds written)
    (room : 20 ≤ b.curr) :
    ∃ after, parseU64Into n b = some after ∧
      after.Holds (ascii (numeral 10 n.toNat) ++ written) := by
  have bound := n.isLt
  have length := length_numeral_le (b := 10) (k := 19) (by decide) (bound.trans (by norm_num))
  have total := holds.curr_add
  have pending : Pending (ascii (numeral 10 n.toNat) ++ written) n.toNat b := by
    refine ⟨written, holds, rfl, ?_⟩
    rw [length_append, length_ascii]
    omega
  obtain ⟨x, b₁, block₁, pending, hx⟩ := sixteen_spec pending
  obtain ⟨y, b₂, block₂, pending, hy⟩ := eight_spec pending
  have word : y % 2 ^ 32 = y := by
    split at hx <;> split at hy <;> omega
  rw [← word] at pending
  obtain ⟨z, b₃, block₃, pending, hz⟩ := four_spec pending
  have half : z % 2 ^ 16 = z ∧ z < 10000 := by
    split at hx <;> split at hy <;> split at hz <;> omega
  rw [← half.1] at pending
  obtain ⟨after, last, holds⟩ := lastDigits_spec pending (by omega)
  refine ⟨after, ?_, holds⟩
  have asserted : ¬ ¬ 19 < b.curr := by omega
  rw [parseU64Into, if_neg asserted]
  simp only [bind_eq_bind, bind_some, block₁, block₂, block₃, last]

end

section

/-- With `k` bits of `n` unread: `r` is the remainder of what was read, and `q` holds the unread
bits above the quotient bits, the last of which is still in `carry`. -/
structure Reading (n k : Nat) (state : DuInt × TuInt × TuInt) : Prop where
  remainder : state.2.2.toNat = n / 2 ^ k % div1e19.toNat
  quotient : state.2.1.toNat = n % 2 ^ k * 2 ^ (128 - k) + n / 2 ^ k / div1e19.toNat / 2
  carry : state.1.toNat = n / 2 ^ k / div1e19.toNat % 2

variable {n k : Nat}

lemma toNat_div1e19 : div1e19.toNat = 10 ^ 19 := by decide

lemma udivStep_reading (hn : n < 2 ^ 128) (hk : k < 128) {state : DuInt × TuInt × TuInt}
    (before : Reading n (k + 1) state) : Reading n k (udivStep state) := by
  obtain ⟨carry, q, r⟩ := state
  obtain ⟨hr, hq, hc⟩ := before
  simp only at hr hq hc
  have divisor : (div1e19.setWidth 128 : TuInt).toNat = div1e19.toNat := by decide
  have positive : 0 < div1e19.toNat := by decide
  have bounded := mod_lt (n / 2 ^ (k + 1)) positive
  have bit : (q >>> 127).toNat = n / 2 ^ k % 2 := by
    rw [toNat_ushiftRight, shiftRight_eq_div_pow, hq]
    exact unread_top hn hk
  have carried : (carry.setWidth 128 : TuInt).toNat = n / 2 ^ (k + 1) / div1e19.toNat % 2 := by
    rw [toNat_setWidth]
    omega
  have newR : (r <<< 1 ||| q >>> 127).toNat =
      2 * (n / 2 ^ (k + 1) % div1e19.toNat) + n / 2 ^ k % 2 := by
    rw [toNat_shiftLeft_one_or (by omega), bit, hr, mod_eq_of_lt (by omega)]
  have newQ : (q <<< 1 ||| carry.setWidth 128).toNat =
      n % 2 ^ k * 2 ^ (128 - k) + n / 2 ^ (k + 1) / div1e19.toNat := by
    rw [toNat_shiftLeft_one_or (by omega), carried, hq]
    exact unread_double hn hk
  have spread := sshiftRight_sub_one (r := r <<< 1 ||| q >>> 127) (d := div1e19.setWidth 128)
    (by omega) (by omega)
  have read := read_bit (n / 2 ^ (k + 1)) positive (show n / 2 ^ k % 2 < 2 by omega)
  rw [← div_pow_eq, ← newR, ← divisor] at read
  simp only [udivStep, spread]
  constructor
  · rw [toNat_sub_mask, ← divisor, read.2]
  · rw [newQ, ← divisor, read.1]
    split <;> omega
  · rw [toNat_mask_and_one _ _ (by decide), ← divisor, read.1]
    split <;> omega

lemma iterate_udivStep_reading (hn : n < 2 ^ 128) (hk : k ≤ 128)
    {state : DuInt × TuInt × TuInt} (before : Reading n k state) :
    Reading n 0 (udivStep^[k] state) := by
  induction k generalizing state with
  | zero => exact before
  | succ k ih =>
    rw [Function.iterate_succ_apply]
    exact ih (by omega) (udivStep_reading hn hk before)

/-- The shifts before the loop bring in so many bits that the remainder is still below `DIV`. -/
lemma reading_start (n : TuInt) (high : (n >>> 64).setWidth 64 ≠ (0 : DuInt)) {sr : Nat}
    (hsr : sr = 65 - ((n >>> 64).setWidth 64 : DuInt).clz.toNat) :
    sr ≤ 65 ∧ Reading n.toNat sr (0, n <<< (128 - sr), n >>> sr) := by
  have zeros := clz_toNat_lt high
  have leading := BitVec.toNat_lt_two_pow_sub_clz (x := ((n >>> 64).setWidth 64 : DuInt))
  have value : ((n >>> 64).setWidth 64 : DuInt).toNat = n.toNat / 2 ^ 64 := by
    rw [toNat_setWidth, toNat_ushiftRight]
    omega
  have top : n.toNat / 2 ^ sr < 2 ^ 63 := by
    apply Nat.div_lt_of_lt_mul
    rw [value] at leading
    have upper := (Nat.div_lt_iff_lt_mul (by decide)).mp leading
    rw [← pow_add] at upper
    rw [← pow_add]
    convert upper using 2
    omega
  have below : n.toNat / 2 ^ sr < div1e19.toNat := top.trans (by decide)
  have whole : 2 ^ sr * 2 ^ (128 - sr) = 2 ^ 128 := by
    rw [← pow_add, Nat.add_sub_cancel' (by omega)]
  refine ⟨by omega, ?_, ?_, ?_⟩
  · rw [toNat_ushiftRight, Nat.shiftRight_eq_div_pow, Nat.mod_eq_of_lt below]
  · rw [BitVec.toNat_shiftLeft, Nat.shiftLeft_eq, ← whole, Nat.mul_mod_mul_right,
      Nat.div_eq_of_lt below, Nat.add_zero]
  · rw [Nat.div_eq_of_lt below]
    rfl

lemma udiv1e19_spec (n : TuInt) :
    (udiv1e19 n).1.toNat = n.toNat / 10 ^ 19 ∧ (udiv1e19 n).2.toNat = n.toNat % 10 ^ 19 := by
  rw [← toNat_div1e19]
  have bound := n.isLt
  by_cases high : (n >>> 64).setWidth 64 = (0 : DuInt)
  · have low : (n.setWidth 64 : DuInt).toNat = n.toNat := by
      have zero := congrArg BitVec.toNat high
      rw [toNat_setWidth, toNat_ushiftRight] at zero
      rw [toNat_setWidth]
      simp only [BitVec.reduceToNat] at zero
      omega
    have small := Nat.div_le_self n.toNat div1e19.toNat
    simp only [udiv1e19, high, if_true]
    rw [toNat_setWidth, BitVec.toNat_udiv, BitVec.toNat_umod, low]
    exact ⟨Nat.mod_eq_of_lt (by omega), rfl⟩
  · obtain ⟨few, start⟩ := reading_start n high rfl
    obtain ⟨remainder, quotient, carry⟩ := iterate_udivStep_reading bound (by omega) start
    simp only [udiv1e19, high, if_false]
    generalize udivStep^[_] _ = last at remainder quotient carry ⊢
    simp only [pow_zero, Nat.div_one, Nat.mod_one, zero_mul, zero_add] at remainder quotient carry
    have carried : (last.1.setWidth 128 : TuInt).toNat = n.toNat / div1e19.toNat % 2 := by
      rw [toNat_setWidth]
      omega
    have small := Nat.div_le_self n.toNat div1e19.toNat
    have rest := Nat.mod_lt n.toNat (show 0 < div1e19.toNat by decide)
    have word := div1e19.isLt
    constructor
    · rw [toNat_shiftLeft_one_or (by omega), quotient]
      omega
    · rw [toNat_setWidth, remainder, Nat.mod_eq_of_lt (rest.trans word)]

lemma udiv1e19_of_zero (n : TuInt) (zero : (udiv1e19 n).1 = 0) : n.toNat % 10 ^ 19 = n.toNat := by
  have quotient := (udiv1e19_spec n).1
  rw [zero] at quotient
  simp only [BitVec.ofNat_eq_ofNat, BitVec.reduceToNat] at quotient
  omega

end

section
variable {b : Buffer} {written : List UInt8}

/-- The zeros between two pieces complete the lower one. -/
lemma Buffer.Holds.pad {n k : Nat} (holds : b.Holds (ascii (numeral 10 n) ++ written))
    (target : Int) (small : n < 10 ^ (k + 1))
    (start : 0 ≤ target) (length : target + (k + 1) + written.length = 39) :
    ∃ after, b.zeroBack target = some after ∧ after.curr = target ∧
      after.Holds (ascii (padded 10 (k + 1) n) ++ written) := by
  have total := holds.curr_add
  rw [length_append, length_ascii] at total
  have short := length_numeral_le (by decide) small
  obtain ⟨after, stored, curr, holds⟩ := holds.zeroBack start (by omega)
  refine ⟨after, stored, curr, ?_⟩
  have count : (b.curr - target).toNat = k + 1 - (numeral 10 n).length := by omega
  have zeros : replicate (k + 1 - (numeral 10 n).length) (48 : UInt8) =
      ascii (replicate (k + 1 - (numeral 10 n).length) 0) := by
    rw [ascii, map_replicate]
    rfl
  rw [count, zeros, ← append_assoc, ← ascii_append,
    replicate_append_numeral (by decide) small] at holds
  exact holds

/-- A number in pieces of nineteen digits: two pieces, or three. -/
lemma numeral_two_pieces {high low : Nat} (small : low < 10 ^ 19) (positive : 0 < high) :
    numeral 10 (high * 10 ^ 19 + low) = numeral 10 high ++ padded 10 19 low := by
  have leading : (high * 10 ^ 19 + low) / 10 ^ 19 = high := by omega
  have trailing : (high * 10 ^ 19 + low) % 10 ^ 19 = low := by omega
  rw [numeral_eq_append (by decide) 19 (by omega), leading, ← padded_mod, trailing]

lemma numeral_three_pieces {top middle low : Nat} (small : low < 10 ^ 19)
    (between : middle < 10 ^ 19) (digit : top < 10) (positive : 0 < top) :
    numeral 10 ((top * 10 ^ 19 + middle) * 10 ^ 19 + low) =
      top :: (padded 10 19 middle ++ padded 10 19 low) := by
  rw [numeral_two_pieces small (by omega), numeral_two_pieces between positive,
    numeral_of_lt digit, append_assoc, singleton_append]

lemma upperPieces_spec (n : TuInt) {low : Nat} (small : low < 10 ^ 19) (nonzero : n ≠ 0)
    (bound : n.toNat < 10 ^ 20) (holds : b.Holds (ascii (numeral 10 low))) :
    ∃ after, upperPieces n b = some after ∧
      after.Holds (ascii (numeral 10 (n.toNat * 10 ^ 19 + low))) := by
  obtain ⟨quotient, remainder⟩ := udiv1e19_spec n
  have positive : 0 < n.toNat := pos_of_ne_zero fun zero => nonzero (BitVec.eq_of_toNat_eq zero)
  have between : n.toNat % 10 ^ 19 < 10 ^ 19 := mod_lt _ (by decide)
  rw [← append_nil (ascii _)] at holds
  obtain ⟨b₁, filled₁, curr₁, holds₁⟩ := holds.pad (39 - 19) small (by decide) (by decide)
  rw [append_nil] at holds₁
  obtain ⟨b₂, parsed, holds₂⟩ := parseU64Into_spec (udiv1e19 n).2 holds₁ (by omega)
  rw [remainder] at holds₂
  simp only [upperPieces, filled₁, parsed, bind_eq_bind, bind_some]
  by_cases zero : (udiv1e19 n).1 = 0
  · have whole := udiv1e19_of_zero n zero
    rw [if_neg (not_not.mpr zero), numeral_two_pieces small positive, ascii_append, ← whole]
    exact ⟨b₂, rfl, holds₂⟩
  · have top : 0 < n.toNat / 10 ^ 19 := by
      rw [← quotient]
      exact pos_of_ne_zero fun h => zero (BitVec.eq_of_toNat_eq h)
    obtain ⟨b₃, filled₃, curr₃, holds₃⟩ := holds₂.pad (39 - 38) between
      (by decide) (by rw [length_ascii, length_padded]; decide)
    obtain ⟨b₄, wrote, holds₄⟩ := holds₃.writeBack
      (digitByte ((udiv1e19 n).1.toNat % 2 ^ 8)) (by omega)
    have value : n.toNat = n.toNat / 10 ^ 19 * 10 ^ 19 + n.toNat % 10 ^ 19 :=
      (div_add_mod' _ _).symm
    have byte : n.toNat / 10 ^ 19 % 2 ^ 8 = n.toNat / 10 ^ 19 := mod_eq_of_lt (by omega)
    rw [quotient, byte] at holds₄
    rw [if_pos zero, filled₃, value, numeral_three_pieces small between (by omega) top]
    refine ⟨b₄, wrote, ?_⟩
    rw [ascii, map_cons, map_append]
    exact holds₄

lemma fmtU128_spec (n : TuInt) (isNonnegative : Bool) :
    fmtU128 n isNonnegative =
      some (padIntegral .new isNonnegative [] (ascii (numeral 10 n.toNat))) := by
  obtain ⟨quotient, remainder⟩ := udiv1e19_spec n
  obtain ⟨b₁, parsed, holds⟩ :=
    parseU64Into_spec (udiv1e19 n).2 Buffer.Holds.uninit (show (20 : Int) ≤ 39 by decide)
  have small : n.toNat % 10 ^ 19 < 10 ^ 19 := mod_lt _ (by decide)
  rw [append_nil, remainder] at holds
  simp only [fmtU128, parsed, bind_eq_bind, bind_some]
  by_cases zero : (udiv1e19 n).1 = 0
  · rw [udiv1e19_of_zero n zero] at holds
    rw [if_neg (not_not.mpr zero), holds.text_eq, bind_some]
  · obtain ⟨after, pieces, holds⟩ := upperPieces_spec (udiv1e19 n).1 small zero
      (by omega) holds
    rw [quotient, div_add_mod'] at holds
    rw [if_pos zero, pieces, bind_some, holds.text_eq, bind_some]

end

lemma toNat_magnitude {w : Nat} {n : Int} (small : n.natAbs < 2 ^ w) :
    (magnitude w n).toNat = n.natAbs := by
  have bound : (n.natAbs : Int) < 2 ^ w := by exact_mod_cast small
  by_cases nonneg : 0 ≤ n
  · rw [magnitude, if_pos nonneg, toNat_ofInt, Int.emod_eq_of_lt nonneg (by omega)]
    omega
  · have residue : n % 2 ^ w = n + 2 ^ w := by
      rw [← Int.add_emod_right, Int.emod_eq_of_lt (by omega) (by omega)]
    rw [magnitude, if_neg nonneg, ← BitVec.neg_eq_not_add, BitVec.toNat_neg, toNat_ofInt,
      cast_pow, cast_two, residue]
    have complement : 2 ^ w - (n + 2 ^ w).toNat = n.natAbs := by
      have : ((2 ^ w : Nat) : Int) = 2 ^ w := by norm_cast
      omega
    rw [complement, mod_eq_of_lt small]

lemma IntType.natAbs_lt {t : IntType} {n : Int} (inside : t.Contains n) :
    n.natAbs < 2 ^ t.width := by
  cases t <;> simp [Contains, min, max, signed, width] at inside ⊢ <;> omega

/-- Every integer is written as its sign, if negative, and the numeral of its magnitude. -/
lemma display_eq {t : IntType} {n : Int} (inside : t.Contains n) :
    display t n = some (padIntegral .new (decide (0 ≤ n)) [] (ascii (numeral 10 n.natAbs))) := by
  have small := IntType.natAbs_lt inside
  have narrow : t.width ≤ 64 →
      fmtU64 (magnitude 64 n) (decide (0 ≤ n)) =
        some (padIntegral .new (decide (0 ≤ n)) [] (ascii (numeral 10 n.natAbs))) := by
    intro width
    rw [fmtU64_spec, toNat_magnitude (small.trans_le (Nat.pow_le_pow_right (by decide) width))]
  have wide : t.width = 128 →
      fmtU128 (magnitude 128 n) (decide (0 ≤ n)) =
        some (padIntegral .new (decide (0 ≤ n)) [] (ascii (numeral 10 n.natAbs))) := by
    intro width
    rw [fmtU128_spec, toNat_magnitude (width ▸ small)]
  cases t with
  | i128 => exact wide rfl
  | u128 =>
    have nonneg : 0 ≤ n := inside.1
    rw [magnitude, if_pos nonneg, decide_eq_true nonneg] at wide
    rw [decide_eq_true nonneg]
    exact wide rfl
  | _ => exact narrow (by decide)

end DisplayInt
