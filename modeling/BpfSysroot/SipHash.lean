import BpfSysroot.LittleEndian

/-!
# SipHash

A model of `core/src/hash/sip.rs`, generic in the numbers of rounds, as the source is. A
load outside of the slice, an arithmetic overflow and a failed debug assertion make a function
return `none`; `usize` values are natural numbers. `sipHash` is the definition of SipHash-c-d:
the message is padded with zeros and a byte with its length, and its words are absorbed one
after the other. However a message is cut into calls of `write`, `finish` returns this value.
-/

namespace SipHash

open LittleEndian List
open Option (bind_eq_bind bind_some)

structure State where
  v0 : UInt64
  v2 : UInt64
  v1 : UInt64
  v3 : UInt64
  deriving DecidableEq

def rotateLeft (x : UInt64) (n : UInt64) : UInt64 := x <<< n ||| x >>> (64 - n)

def State.compress (s : State) : State :=
  let v0 := s.v0 + s.v1
  let v1 := rotateLeft s.v1 13
  let v1 := v1 ^^^ v0
  let v0 := rotateLeft v0 32
  let v2 := s.v2 + s.v3
  let v3 := rotateLeft s.v3 16
  let v3 := v3 ^^^ v2
  let v0 := v0 + v3
  let v3 := rotateLeft v3 21
  let v3 := v3 ^^^ v0
  let v2 := v2 + v1
  let v1 := rotateLeft v1 17
  let v1 := v1 ^^^ v2
  let v2 := rotateLeft v2 32
  ⟨v0, v2, v1, v3⟩

/-- The trait `Sip`. -/
class Sip (S : Type) where
  cRounds : State → State
  dRounds : State → State

inductive Sip13Rounds

inductive Sip24Rounds

instance : Sip Sip13Rounds where
  cRounds s := s.compress
  dRounds s := s.compress.compress.compress

instance : Sip Sip24Rounds where
  cRounds s := s.compress.compress
  dRounds s := s.compress.compress.compress.compress

structure Hasher (S : Type) where
  k0 : UInt64
  k1 : UInt64
  /-- how many bytes we've processed -/
  length : Nat
  state : State
  /-- unprocessed bytes le -/
  tail : UInt64
  /-- how many bytes in tail are valid -/
  ntail : Nat

section
variable (buf : List UInt8)

/-- Loads an integer of this many bytes, and casts it to `u64`. -/
def loadIntLe (i size : Nat) : Option UInt64 :=
  if i + size ≤ buf.length then some (word ((buf.drop i).take size)) else none

def shl (x : UInt64) (n : Nat) : Option UInt64 :=
  if n < 64 then some (x <<< UInt64.ofNat n) else none

/-- The first `if` of `u8to64_le`, with the index and what was loaded. -/
def loadFour (start len : Nat) : Option (Nat × UInt64) :=
  if 0 + 3 < len then do
    let out ← loadIntLe buf (start + 0) 4
    some (0 + 4, out)
  else some (0, 0)

/-- The second `if`. -/
def loadTwo (start len i : Nat) (out : UInt64) : Option (Nat × UInt64) :=
  if i + 1 < len then do
    let piece ← loadIntLe buf (start + i) 2
    let piece ← shl piece (i * 8)
    some (i + 2, out ||| piece)
  else some (i, out)

/-- The third `if`. -/
def loadOne (start len i : Nat) (out : UInt64) : Option (Nat × UInt64) :=
  if i < len then do
    let byte ← buf[start + i]?
    let piece ← shl byte.toUInt64 (i * 8)
    some (i + 1, out ||| piece)
  else some (i, out)

def u8to64Le (start len : Nat) : Option UInt64 := do
  guard (len < 8)
  let (i, out) ← loadFour buf start len
  let (i, out) ← loadTwo buf start len i out
  let (i, out) ← loadOne buf start len i out
  guard (i = len)
  some out

end

/-- A word is xored in before the rounds and after them. -/
def State.absorb (rounds : State → State) (s : State) (m : UInt64) : State :=
  let s := rounds { s with v3 := s.v3 ^^^ m }
  { s with v0 := s.v0 ^^^ m }

def compressBlocks (rounds : State → State) (msg : List UInt8) (stop : Nat) (state : State)
    (i : Nat) : Option (State × Nat) :=
  if i < stop then do
    let mi ← loadIntLe msg i 8
    compressBlocks rounds msg stop (state.absorb rounds mi) (i + 8)
  else some (state, i)
termination_by stop - i

namespace Hasher

variable {S : Type}

def reset (h : Hasher S) : Hasher S :=
  { h with
    length := 0
    state :=
      { v0 := h.k0 ^^^ 0x736f6d6570736575
        v1 := h.k1 ^^^ 0x646f72616e646f6d
        v2 := h.k0 ^^^ 0x6c7967656e657261
        v3 := h.k1 ^^^ 0x7465646279746573 }
    ntail := 0 }

def newWithKeys (key0 key1 : UInt64) : Hasher S :=
  reset
    { k0 := key0
      k1 := key1
      length := 0
      state := { v0 := 0, v1 := 0, v2 := 0, v3 := 0 }
      tail := 0
      ntail := 0 }

variable [Sip S]

/-- `write` after the buffered tail is flushed. -/
def writeBlocks (h : Hasher S) (msg : List UInt8) (needed : Nat) : Option (Hasher S) := do
  guard (needed ≤ msg.length)
  let len := msg.length - needed
  let left := len &&& 0x7
  let (state, i) ← compressBlocks (Sip.cRounds S) msg (len - left) h.state needed
  let tail ← u8to64Le msg i left
  some { h with state := state, tail := tail, ntail := left }

def write (h : Hasher S) (msg : List UInt8) : Option (Hasher S) := do
  let length := msg.length
  guard (h.length + length < 2 ^ 64)
  let h := { h with length := h.length + length }
  if h.ntail ≠ 0 then do
    guard (h.ntail ≤ 8)
    let needed := 8 - h.ntail
    let piece ← u8to64Le msg 0 (min length needed)
    let piece ← shl piece (8 * h.ntail)
    let tail := h.tail ||| piece
    if length < needed then some { h with tail := tail, ntail := h.ntail + length }
    else
      writeBlocks
        { h with
          tail := tail
          state := h.state.absorb (Sip.cRounds S) tail
          ntail := 0 } msg needed
  else writeBlocks h msg 0

def finish (h : Hasher S) : UInt64 :=
  let b := (UInt64.ofNat h.length &&& 0xff) <<< 56 ||| h.tail
  let state := h.state.absorb (Sip.cRounds S) b
  let state := Sip.dRounds S { state with v2 := state.v2 ^^^ 0xff }
  state.v0 ^^^ state.v1 ^^^ state.v2 ^^^ state.v3

end Hasher

abbrev SipHasher13 := Hasher Sip13Rounds

/-- The source wraps a `SipHasher24`, which wraps the hasher. -/
abbrev SipHasher := Hasher Sip24Rounds

/-- A round of SipHash. -/
def sipRound (s : State) : State :=
  let v0 := s.v0 + s.v1
  let v2 := s.v2 + s.v3
  let v1 := rotateLeft s.v1 13 ^^^ v0
  let v3 := rotateLeft s.v3 16 ^^^ v2
  let v0 := rotateLeft v0 32
  let v2 := v2 + v1
  let v0 := v0 + v3
  let v1 := rotateLeft v1 17 ^^^ v2
  let v3 := rotateLeft v3 21 ^^^ v0
  let v2 := rotateLeft v2 32
  { v0 := v0, v1 := v1, v2 := v2, v3 := v3 }

def initial (k0 k1 : UInt64) : State where
  v0 := k0 ^^^ 0x736f6d6570736575
  v1 := k1 ^^^ 0x646f72616e646f6d
  v2 := k0 ^^^ 0x6c7967656e657261
  v3 := k1 ^^^ 0x7465646279746573

/-- The message, zeros up to the end of a word but for one byte, and the length mod 256. -/
def padded (msg : List UInt8) : List UInt8 :=
  msg ++ replicate (7 - msg.length % 8) 0 ++ [UInt8.ofNat msg.length]

/-- SipHash-c-d. -/
def sipHash (c d : Nat) (k0 k1 : UInt64) (msg : List UInt8) : UInt64 :=
  let s := (words (padded msg)).foldl (State.absorb sipRound^[c]) (initial k0 k1)
  let s := sipRound^[d] { s with v2 := s.v2 ^^^ 0xff }
  s.v0 ^^^ s.v1 ^^^ s.v2 ^^^ s.v3

example : sipHash 2 4 0x0706050403020100 0x0f0e0d0c0b0a0908
    [0, 1, 2, 3, 4, 5, 6, 7, 8, 9, 10, 11, 12, 13, 14] = 0xa129ca6149be45e5 := by
  decide +kernel

section
variable {buf : List UInt8} {start i size len : Nat}

lemma loadIntLe_eq (inside : i + size ≤ buf.length) :
    loadIntLe buf i size = some (word ((buf.drop i).take size)) :=
  if_pos inside

lemma shl_eq {x : UInt64} {n : Nat} (less : n < 64) : shl x n = some (x <<< UInt64.ofNat n) :=
  if_pos less

/-- The next piece is shifted over the bytes that were loaded. -/
lemma word_take_add (inside : start + i + size ≤ buf.length) (short : i + size ≤ 8)
    (room : i < 8) :
    word ((buf.drop start).take (i + size)) = word ((buf.drop start).take i) |||
      word ((buf.drop (start + i)).take size) <<< UInt64.ofNat (i * 8) := by
  have first : ((buf.drop start).take i).length = i := by
    rw [length_take, length_drop]
    omega
  have second : ((buf.drop (start + i)).take size).length = size := by
    rw [length_take, length_drop]
    omega
  rw [take_add, drop_drop, word_append (by omega) (by omega), first, mul_comm]

section
variable (inside : start + len ≤ buf.length)
include inside

/-- After each of the three loads, `out` holds the first `i` bytes. -/
lemma loadFour_spec (short : len < 8) : ∃ i,
    loadFour buf start len = some (i, word ((buf.drop start).take i)) ∧ i ≤ len ∧
      len < i + 4 := by
  by_cases four : 0 + 3 < len
  · refine ⟨4, ?_, by omega, by omega⟩
    rw [loadFour, if_pos four, loadIntLe_eq (by omega)]
    rfl
  · exact ⟨0, if_neg four, by omega, by omega⟩

lemma loadTwo_spec (short : len < 8) (below : i ≤ len) (above : len < i + 4) : ∃ j,
    loadTwo buf start len i (word ((buf.drop start).take i)) =
      some (j, word ((buf.drop start).take j)) ∧ j ≤ len ∧ len < j + 2 := by
  by_cases two : i + 1 < len
  · refine ⟨i + 2, ?_, by omega, by omega⟩
    rw [loadTwo, if_pos two, loadIntLe_eq (by omega),
      word_take_add (by omega) (by omega) (by omega)]
    simp only [bind_eq_bind, bind_some, shl_eq (show i * 8 < 64 by omega)]
  · exact ⟨i, if_neg two, below, by omega⟩

lemma loadOne_spec (short : len < 8) (below : i ≤ len)
    (above : len < i + 2) : loadOne buf start len i (word ((buf.drop start).take i)) =
      some (len, word ((buf.drop start).take len)) := by
  by_cases one : i < len
  · obtain rfl : len = i + 1 := by omega
    have single : (buf.drop (start + i)).take 1 = [buf[start + i]] := by
      rw [drop_eq_getElem_cons (by omega)]
      rfl
    rw [loadOne, if_pos one, word_take_add (by omega) (by omega) (by omega), single,
      word_singleton, getElem?_eq_getElem (by omega)]
    simp only [bind_eq_bind, bind_some, shl_eq (show i * 8 < 64 by omega)]
  · obtain rfl : len = i := by omega
    exact if_neg one

end

lemma u8to64Le_eq (short : len < 8) (inside : start + len ≤ buf.length) :
    u8to64Le buf start len = some (word ((buf.drop start).take len)) := by
  obtain ⟨i, first, below, above⟩ := loadFour_spec inside short
  obtain ⟨j, second, below, above⟩ := loadTwo_spec inside short below above
  have third := loadOne_spec inside short below above
  simp only [u8to64Le, bind_eq_bind, first, bind_some, second, third, guard, if_pos short]
  rfl

/-- The bound does not include the offset at which the index starts, but the loop still takes
every complete word, since the offset is less than a word. -/
lemma compressBlocks_eq {rounds : State → State} {stop q : Nat} {state : State}
    (inside : i + 8 * q ≤ buf.length) (covers : stop ≤ i + 8 * q) (tight : i + 8 * q < stop + 8) :
    compressBlocks rounds buf stop state i =
      some ((words ((buf.drop i).take (8 * q))).foldl (State.absorb rounds) state, i + 8 * q) := by
  induction q generalizing i state with
  | zero =>
    unfold compressBlocks
    rw [if_neg (by omega)]
    rfl
  | succ q ih =>
    have group : ((buf.drop i).take 8).length = 8 := by
      rw [length_take, length_drop]
      omega
    have split : (buf.drop i).take (8 * (q + 1)) =
        (buf.drop i).take 8 ++ (buf.drop (i + 8)).take (8 * q) := by
      rw [Nat.mul_succ, add_comm, take_add, drop_drop]
    unfold compressBlocks
    rw [if_pos (by omega), loadIntLe_eq (by omega), split, words_append_of_length group, foldl_cons]
    simp only [bind_eq_bind, bind_some]
    rw [ih (by omega) (by omega) (by omega), Nat.mul_succ, add_assoc, add_comm 8]

end

section
variable {S : Type} [Sip S] {k0 k1 : UInt64} {h : Hasher S} {blocks rest msg : List UInt8}

/-- The hasher has absorbed the blocks, and keeps the rest. -/
structure Hashed (k0 k1 : UInt64) (h : Hasher S) (blocks rest : List UInt8) : Prop where
  length : h.length = blocks.length + rest.length
  groups : 8 ∣ blocks.length
  short : rest.length < 8
  state : h.state = (words blocks).foldl (State.absorb (Sip.cRounds S)) (initial k0 k1)
  tail : h.tail = word rest
  ntail : h.ntail = rest.length

lemma hashed_new (k0 k1 : UInt64) : Hashed k0 k1 (.newWithKeys k0 k1 : Hasher S) [] [] where
  length := rfl
  groups := Nat.dvd_zero 8
  short := by decide
  state := rfl
  tail := rfl
  ntail := rfl

lemma writeBlocks_spec (h : Hasher S) (msg : List UInt8) {needed : Nat} (groups : 8 ∣ blocks.length)
    (state : h.state = (words blocks).foldl (State.absorb (Sip.cRounds S)) (initial k0 k1))
    (offset : needed < 8) (enough : needed ≤ msg.length)
    (length : h.length = blocks.length + (msg.length - needed)) :
    ∃ h' blocks' rest', h.writeBlocks msg needed = some h' ∧
      blocks' ++ rest' = blocks ++ msg.drop needed ∧ Hashed k0 k1 h' blocks' rest' := by
  obtain ⟨q, length_eq⟩ : ∃ q, msg.length = needed + 8 * q + (msg.length - needed) % 8 :=
    ⟨(msg.length - needed) / 8, by omega⟩
  let block := (msg.drop needed).take (8 * q)
  let state' := (words block).foldl (State.absorb (Sip.cRounds S)) h.state
  have left : (msg.length - needed) &&& 0x7 = (msg.length - needed) % 8 :=
    Nat.and_two_pow_sub_one_eq_mod _ 3
  have stop : msg.length - needed - (msg.length - needed) % 8 = 8 * q := by omega
  have loop : compressBlocks (Sip.cRounds S) msg (8 * q) h.state needed =
      some (state', needed + 8 * q) :=
    compressBlocks_eq (by omega) (by omega) (by omega)
  have size : (msg.drop (needed + 8 * q)).length = (msg.length - needed) % 8 := by
    rw [length_drop]
    omega
  have load : u8to64Le msg (needed + 8 * q) ((msg.length - needed) % 8) =
      some (word (msg.drop (needed + 8 * q))) := by
    rw [u8to64Le_eq (by omega) (by omega), take_of_length_le (by omega)]
  refine ⟨{ h with
      state := state'
      tail := word (msg.drop (needed + 8 * q))
      ntail := (msg.length - needed) % 8 },
    blocks ++ block, msg.drop (needed + 8 * q), ?_, ?_, ?_⟩
  · simp only [Hasher.writeBlocks, guard, if_pos enough, left, stop, loop, load,
      bind_eq_bind, bind_some]
    rfl
  · rw [append_assoc, ← drop_drop, take_append_drop]
  · have taken : block.length = 8 * q := by
      rw [length_take, length_drop]
      omega
    constructor
    · rw [length_append, length]
      omega
    · rw [length_append, taken]
      exact Nat.dvd_add groups (Nat.dvd_mul_right 8 q)
    · omega
    · rw [words_append groups, foldl_append, ← state]
    · rfl
    · exact size.symm

lemma write_of_tail (hashed : Hashed k0 k1 h blocks rest) (some : rest ≠ [])
    (fits : h.length + msg.length < 2 ^ 64) :
    h.write msg =
      let needed := 8 - rest.length
      let tail := word (rest ++ msg.take needed)
      if msg.length < needed then
        .some { h with
          length := h.length + msg.length
          tail := tail
          ntail := rest.length + msg.length }
      else
        Hasher.writeBlocks
          { h with
            length := h.length + msg.length
            tail := tail
            state := h.state.absorb (Sip.cRounds S) tail
            ntail := 0 } msg needed := by
  have short := hashed.short
  have some : rest.length ≠ 0 := fun none => some (eq_nil_of_length_eq_zero none)
  have bytes : (msg.drop 0).take (min msg.length (8 - rest.length)) =
      msg.take (8 - rest.length) := by
    rw [drop_zero, min_comm, ← take_eq_take_min]
  have load : u8to64Le msg 0 (min msg.length (8 - rest.length)) =
      .some (word (msg.take (8 - rest.length))) := by
    rw [u8to64Le_eq (by omega) (by omega), bytes]
  have join : word (rest ++ msg.take (8 - rest.length)) =
      word rest ||| word (msg.take (8 - rest.length)) <<< UInt64.ofNat (8 * rest.length) := by
    have taken := length_take_le (8 - rest.length) msg
    exact word_append (by omega) short
  simp only [Hasher.write, guard, if_pos fits, hashed.ntail, hashed.tail, if_pos some,
    if_pos (le_of_lt short), load, shl_eq (show 8 * rest.length < 64 by omega), join,
    bind_eq_bind, bind_some]
  rfl

/-- Whatever was kept from the calls before. -/
lemma write_spec (msg : List UInt8) (hashed : Hashed k0 k1 h blocks rest)
    (room : blocks.length + rest.length + msg.length < 2 ^ 64) :
    ∃ h' blocks' rest', h.write msg = some h' ∧ blocks' ++ rest' = blocks ++ rest ++ msg ∧
      Hashed k0 k1 h' blocks' rest' := by
  have fits : h.length + msg.length < 2 ^ 64 := by
    rw [hashed.length]
    exact room
  have short := hashed.short
  by_cases empty : rest = []
  · subst empty
    obtain ⟨h', blocks', rest', done, same, hashed'⟩ :=
      writeBlocks_spec { h with length := h.length + msg.length } msg
        hashed.groups hashed.state (by decide) (Nat.zero_le _) (by rw [hashed.length]; rfl)
    refine ⟨h', blocks', rest', ?_, ?_, hashed'⟩
    · have none : h.ntail = 0 := hashed.ntail
      simp only [Hasher.write, guard, if_pos fits, none, ne_eq, not_true_eq_false, if_false]
      exact done
    · rw [append_nil]
      exact same
  have kept := List.length_pos_iff.mpr empty
  rw [write_of_tail hashed empty fits]
  by_cases few : msg.length < 8 - rest.length
  · have whole : msg.take (8 - rest.length) = msg := take_of_length_le (le_of_lt few)
    simp only [if_pos few, whole]
    refine ⟨_, blocks, rest ++ msg, rfl, (append_assoc ..).symm, ?_⟩
    constructor
    · rw [hashed.length, length_append, add_assoc]
    · exact hashed.groups
    · rw [length_append]
      omega
    · exact hashed.state
    · rfl
    · exact (length_append ..).symm
  · -- the kept bytes become a block
    let block := rest ++ msg.take (8 - rest.length)
    have group : block.length = 8 := by
      rw [length_append, length_take]
      omega
    have groups : 8 ∣ (blocks ++ block).length := by
      rw [length_append, group]
      exact Nat.dvd_add hashed.groups (dvd_refl 8)
    have state : h.state.absorb (Sip.cRounds S) (word block) =
        (words (blocks ++ block)).foldl (State.absorb (Sip.cRounds S)) (initial k0 k1) := by
      rw [words_append hashed.groups, foldl_append, ← hashed.state, words_of_length group]
      rfl
    have length : h.length + msg.length =
        (blocks ++ block).length + (msg.length - (8 - rest.length)) := by
      rw [hashed.length, length_append]
      omega
    obtain ⟨h', blocks', rest', done, same, hashed'⟩ :=
      writeBlocks_spec
        { h with
          length := h.length + msg.length
          tail := word block
          state := h.state.absorb (Sip.cRounds S) (word block)
          ntail := 0 } msg groups state (by omega) (Nat.le_of_not_lt few) length
    refine ⟨h', blocks', rest', ?_, ?_, hashed'⟩
    · simp only [if_neg few]
      exact done
    · rw [same, append_assoc, append_assoc, append_assoc, take_append_drop]

lemma final_word (short : rest.length < 8) (length : Nat) :
    word (rest ++ replicate (7 - rest.length) 0 ++ [UInt8.ofNat length]) =
      (UInt64.ofNat length &&& 0xff) <<< 56 ||| word rest := by
  have size : (rest ++ replicate (7 - rest.length) 0).length = 7 := by
    rw [length_append, length_replicate]
    omega
  have byte : (UInt8.ofNat length).toUInt64 = UInt64.ofNat length &&& 0xff := by
    apply UInt64.toNat_inj.mp
    rw [UInt8.toNat_toUInt64, UInt8.toNat_ofNat', UInt64.toNat_and, UInt64.toNat_ofNat']
    have mask : length % 2 ^ 64 &&& 255 = length % 2 ^ 64 % 256 :=
      Nat.and_two_pow_sub_one_eq_mod _ 8
    rw [UInt64.toNat_ofNat, mask]
    omega
  have first : word (rest ++ replicate (7 - rest.length) 0) = word rest := by
    rw [word_append (by rw [length_replicate]; omega) short, word_zeros,
      UInt64.zero_shiftLeft, UInt64.or_zero]
  rw [word_append (by rw [size]; exact le_refl 8) (by omega), size, word_singleton, byte,
    first, UInt64.or_comm]
  rfl

lemma finish_eq (hashed : Hashed k0 k1 h blocks rest) {c d : Nat}
    (compresses : Sip.cRounds S = sipRound^[c]) (finalizes : Sip.dRounds S = sipRound^[d]) :
    h.finish = sipHash c d k0 k1 (blocks ++ rest) := by
  have short := hashed.short
  obtain ⟨n, groups⟩ := hashed.groups
  have length : h.length = (blocks ++ rest).length := by
    rw [hashed.length, length_append]
  have left : (blocks ++ rest).length % 8 = rest.length := by
    rw [length_append]
    omega
  have last : words (padded (blocks ++ rest)) =
      words blocks ++ [(UInt64.ofNat h.length &&& 0xff) <<< 56 ||| h.tail] := by
    have group : (rest ++ replicate (7 - rest.length) 0 ++
        [UInt8.ofNat (blocks ++ rest).length]).length = 8 := by
      simp only [length_append, length_replicate, length_singleton]
      omega
    rw [padded, left, append_assoc, append_assoc, words_append hashed.groups,
      ← append_assoc, words_of_length group, final_word short, hashed.tail, length]
  rw [sipHash, last, foldl_append, ← compresses, ← finalizes, ← hashed.state]
  rfl

end

section
variable {S : Type} [Sip S] {k0 k1 : UInt64} {c d : Nat}

inductive Call where
  | write (msg : List UInt8)
  | finish

/-- The hasher after the calls, and what the calls of `finish` have returned. -/
def Hasher.run (h : Hasher S) : List Call → Option (Hasher S × List UInt64)
  | [] => some (h, [])
  | .write msg :: calls => do
    let h ← h.write msg
    h.run calls
  | .finish :: calls => do
    let (h', results) ← h.run calls
    some (h', h.finish :: results)

/-- All that is written. -/
def message : List Call → List UInt8
  | [] => []
  | .write msg :: calls => msg ++ message calls
  | .finish :: calls => message calls

/-- A call of `finish` returns the hash of what was written up to it. -/
def results (hash : List UInt8 → UInt64) (before : List UInt8) : List Call → List UInt64
  | [] => []
  | .write msg :: calls => results hash (before ++ msg) calls
  | .finish :: calls => hash before :: results hash before calls

lemma run_spec (compresses : Sip.cRounds S = sipRound^[c])
    (finalizes : Sip.dRounds S = sipRound^[d]) (calls : List Call) {h : Hasher S}
    {blocks rest : List UInt8} (hashed : Hashed k0 k1 h blocks rest)
    (total : (blocks ++ rest ++ message calls).length < 2 ^ 64) :
    ∃ h', h.run calls = some (h', results (sipHash c d k0 k1) (blocks ++ rest) calls) ∧
      h'.finish = sipHash c d k0 k1 (blocks ++ rest ++ message calls) := by
  induction calls generalizing h blocks rest with
  | nil =>
    refine ⟨h, rfl, ?_⟩
    rw [message, append_nil]
    exact finish_eq hashed compresses finalizes
  | cons call calls ih =>
    cases call with
    | write msg =>
      rw [message, ← append_assoc] at total ⊢
      obtain ⟨h', blocks', rest', done, same, hashed'⟩ := write_spec msg hashed (by
        simp only [length_append] at total
        omega)
      rw [← same] at total ⊢
      obtain ⟨last, runs, value⟩ := ih hashed' total
      refine ⟨last, ?_, value⟩
      rw [Hasher.run, done, results, ← same]
      exact runs
    | finish =>
      obtain ⟨last, runs, value⟩ := ih hashed total
      refine ⟨last, ?_, value⟩
      rw [Hasher.run, runs, results, ← finish_eq hashed compresses finalizes]
      rfl

end

/-- However a message is cut into calls of `write`, with calls of `finish` in between. -/
theorem siphash_of_writes (k0 k1 : UInt64) (calls : List Call)
    (total : (message calls).length < 2 ^ 64) :
    (∃ h : SipHasher13, (Hasher.newWithKeys k0 k1).run calls =
        some (h, results (sipHash 1 3 k0 k1) [] calls) ∧
      h.finish = sipHash 1 3 k0 k1 (message calls)) ∧
    (∃ h : SipHasher, (Hasher.newWithKeys k0 k1).run calls =
        some (h, results (sipHash 2 4 k0 k1) [] calls) ∧
      h.finish = sipHash 2 4 k0 k1 (message calls)) := by
  constructor
  · exact run_spec rfl rfl calls (hashed_new k0 k1) total
  · exact run_spec rfl rfl calls (hashed_new k0 k1) total

theorem siphash_of_writes_three : ∃ h : SipHasher,
    (Hasher.newWithKeys 1 2).run [.write [1, 2, 3], .finish, .write [], .write [4, 5, 6, 7, 8, 9]] =
      some (h, [sipHash 2 4 1 2 [1, 2, 3]]) ∧
    h.finish = sipHash 2 4 1 2 [1, 2, 3, 4, 5, 6, 7, 8, 9] :=
  (siphash_of_writes 1 2 [.write [1, 2, 3], .finish, .write [], .write [4, 5, 6, 7, 8, 9]]
    (by decide)).2

end SipHash
