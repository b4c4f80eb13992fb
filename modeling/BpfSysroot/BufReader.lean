import Mathlib

/-!
# BufReader

`BufReader` of `std/src/io/buffered/bufreader.rs` and `read_until` of
`std/src/io/mod.rs` over a seekable stream. The stream follows a script: each call
of it takes the next item, which lets it fail without moving or limits how much
it gives; after the script it gives what it is asked for. Every finite behaviour
is one of these. A failed read leaves the buffer it was given as it is. A failed
slice index, `debug_assert!` or `expect` has no result.
-/

namespace BufReader

open List Option

inductive ErrorKind where
  | interrupted
  | invalidInput
  | other (code : Nat)
  deriving DecidableEq, Repr

structure I64 where
  val : Int
  low : -2 ^ 63 ≤ val
  high : val < 2 ^ 63

def I64.zero : I64 := ⟨0, by decide, by decide⟩

inductive SeekFrom where
  | start (offset : Fin (2 ^ 64))
  | fromEnd (offset : I64)
  | current (offset : I64)

/-- One answer of the stream: an error, or at most `n + 1` bytes. -/
inductive Mood where
  | fail (kind : ErrorKind)
  | upTo (n : Nat)

structure Stream where
  bytes : List UInt8
  position : Nat
  script : List Mood

namespace Stream

def mood (r : Stream) : Mood × Stream :=
  match r.script with
  | [] => (.upTo r.bytes.length, r)
  | mood :: script => (mood, { r with script := script })

def read (r : Stream) (asked : Nat) : Except ErrorKind (List UInt8) × Stream :=
  match r.mood with
  | (.fail kind, r) => (.error kind, r)
  | (.upTo n, r) =>
    let data := (r.bytes.drop r.position).take (min asked (n + 1))
    (.ok data, { r with position := r.position + data.length })

/-- A position is a `u64`. -/
def landing (p : Int) : Option Nat := if 0 ≤ p ∧ p < 2 ^ 64 then some p.toNat else none

/-- Where a seek goes from a position; behind the end is allowed. -/
def target (length position : Nat) : SeekFrom → Option Nat
  | .start n => some n
  | .fromEnd n => landing (length + n.val)
  | .current n => landing (position + n.val)

def seek (r : Stream) (pos : SeekFrom) : Except ErrorKind Nat × Stream :=
  match r.mood with
  | (.fail kind, r) => (.error kind, r)
  | (.upTo _, r) =>
    match target r.bytes.length r.position pos with
    | none => (.error .invalidInput, r)
    | some p => (.ok p, { r with position := p })

end Stream

structure Reader where
  inner : Stream
  buf : List UInt8
  pos : Nat
  cap : Nat

namespace Reader

def withCapacity (capacity : Nat) (inner : Stream) : Reader :=
  ⟨inner, replicate capacity 0, 0, 0⟩

variable (s : Reader)

/-- `&self.buf[self.pos..self.cap]`. -/
def buffer : Option (List UInt8) :=
  if s.pos ≤ s.cap ∧ s.cap ≤ s.buf.length then some ((s.buf.take s.cap).drop s.pos) else none

def discardBuffer : Reader := { s with pos := 0, cap := 0 }

/-- The part of `fill_buf` that reads. -/
def refill : Except ErrorKind Unit × Reader :=
  match s.inner.read s.buf.length with
  | (.error kind, inner) => (.error kind, { s with inner := inner })
  | (.ok data, inner) =>
    (.ok (), ⟨inner, data ++ s.buf.drop data.length, 0, data.length⟩)

def fillBuf : Option (Except ErrorKind (List UInt8) × Reader) :=
  if s.cap ≤ s.pos then
    if s.pos ≠ s.cap then none
    else match s.refill with
      | (.error kind, s) => some (.error kind, s)
      | (.ok (), s) => s.buffer.map fun available => (.ok available, s)
  else s.buffer.map fun available => (.ok available, s)

def consume (amt : Nat) : Reader := { s with pos := min (s.pos + amt) s.cap }

def read (len : Nat) : Option (Except ErrorKind (List UInt8) × Reader) :=
  if s.pos = s.cap ∧ s.buf.length ≤ len then
    let s := s.discardBuffer
    let (result, inner) := s.inner.read len
    some (result, { s with inner := inner })
  else
    s.fillBuf.map fun
      | (.error kind, s) => (.error kind, s)
      | (.ok rem, s) => (.ok (rem.take len), s.consume (rem.take len).length)

/-- What a loop over `fill_buf` and `consume` can still take. -/
def budget : Nat :=
  s.inner.script.length + (s.inner.bytes.length - s.inner.position) + (s.cap - s.pos)

end Reader

namespace Stream

variable {r r' : Stream} {asked : Nat}
variable {kind : ErrorKind} {pos : SeekFrom}

/-- Taking the next item of the script moves nothing. -/
structure Unmoved (r r' : Stream) : Prop where
  bytes : r'.bytes = r.bytes
  position : r'.position = r.position
  script : r'.script.length ≤ r.script.length

lemma mood_unmoved (r : Stream) : Unmoved r r.mood.2 := by
  rw [mood]
  cases script : r.script with
  | nil => exact ⟨rfl, rfl, le_rfl⟩
  | cons mood rest => exact ⟨rfl, rfl, by simp [script]⟩

lemma mood_fail (answer : r.mood.1 = .fail kind) : r.mood.2.script.length < r.script.length := by
  rw [mood] at answer ⊢
  cases script : r.script with
  | nil => simp [script] at answer
  | cons mood rest => simp

lemma read_error (answer : r.read asked = (.error kind, r')) :
    Unmoved r r' ∧ r'.script.length < r.script.length := by
  have unmoved := mood_unmoved r
  rw [read] at answer
  split at answer
  next kind' r₁ failed =>
    have shorter := mood_fail (congrArg Prod.fst failed)
    rw [failed] at unmoved shorter
    cases answer
    exact ⟨unmoved, shorter⟩
  · cases answer

/-- A successful read gives the next bytes; none only at the end. -/
lemma read_ok {data : List UInt8} (answer : r.read asked = (.ok data, r')) :
    r'.bytes = r.bytes ∧ r'.position = r.position + data.length ∧
      r'.script.length ≤ r.script.length ∧ data <+: r.bytes.drop r.position ∧
      data.length ≤ asked ∧ (data = [] → asked = 0 ∨ r.bytes.length ≤ r.position) := by
  have unmoved := mood_unmoved r
  rw [read] at answer
  split at answer
  · cases answer
  next n r₁ limited =>
    rw [limited] at unmoved
    cases answer
    rw [unmoved.bytes, unmoved.position]
    refine ⟨rfl, rfl, unmoved.script, take_prefix _ _, ?_, ?_⟩
    · rw [length_take]
      omega
    · intro empty
      have length := congrArg length empty
      rw [length_take, length_drop, length_nil] at length
      omega

lemma seek_error (answer : r.seek pos = (.error kind, r')) : Unmoved r r' := by
  have unmoved := mood_unmoved r
  rw [seek] at answer
  split at answer
  next failed =>
    rw [failed] at unmoved
    cases answer
    exact unmoved
  next limited =>
    rw [limited] at unmoved
    split at answer
    · cases answer
      exact unmoved
    · cases answer

lemma seek_ok {p : Nat} (answer : r.seek pos = (.ok p, r')) :
    target r.bytes.length r.position pos = some p ∧ r'.bytes = r.bytes ∧ r'.position = p := by
  have unmoved := mood_unmoved r
  rw [seek] at answer
  split at answer
  · cases answer
  next limited =>
    rw [limited] at unmoved
    rw [unmoved.bytes, unmoved.position] at answer
    split at answer
    · cases answer
    next p' landed =>
      cases answer
      exact ⟨landed, rfl, rfl⟩

end Stream

namespace Reader

variable {s s' : Reader}
variable {available : List UInt8} {kind : ErrorKind}

lemma buffer_length (read : s.buffer = some available) : available.length = s.cap - s.pos := by
  rw [buffer] at read
  split at read
  next inside =>
    cases read
    rw [length_drop, length_take, min_eq_left inside.2]
  · cases read

lemma refill_error (answer : s.refill = (.error kind, s')) :
    ∃ inner, s.inner.read s.buf.length = (.error kind, inner) ∧ s' = { s with inner := inner } := by
  rw [refill] at answer
  split at answer
  next kind' inner failed =>
    cases answer
    exact ⟨inner, failed, rfl⟩
  · cases answer

lemma refill_ok (answer : s.refill = (.ok (), s')) :
    ∃ data inner, s.inner.read s.buf.length = (.ok data, inner) ∧
      s' = ⟨inner, data ++ s.buf.drop data.length, 0, data.length⟩ := by
  rw [refill] at answer
  split at answer
  · cases answer
  next data inner given =>
    cases answer
    exact ⟨data, inner, given, rfl⟩

lemma fillBuf_cases {result : Except ErrorKind (List UInt8)}
    (filled : s.fillBuf = some (result, s')) :
    (s.cap ≤ s.pos ∧ ∃ kind, result = .error kind ∧ s.refill = (.error kind, s')) ∨
      (∃ available, result = .ok available ∧ s'.buffer = some available ∧
        (s.cap ≤ s.pos ∧ s.refill = (.ok (), s') ∨ s.pos < s.cap ∧ s' = s)) := by
  rw [fillBuf] at filled
  split_ifs at filled with used_up mismatch
  · split at filled
    next kind s₁ failed =>
      cases filled
      exact .inl ⟨used_up, kind, rfl, failed⟩
    next s₁ refilled =>
      obtain ⟨available, read, ⟨⟩⟩ := map_eq_some_iff.mp filled
      exact .inr ⟨available, rfl, read, .inl ⟨used_up, refilled⟩⟩
  · obtain ⟨available, read, ⟨⟩⟩ := Option.map_eq_some_iff.mp filled
    exact .inr ⟨available, rfl, read, .inr ⟨Nat.lt_of_not_le used_up, rfl⟩⟩

lemma fillBuf_error_budget (filled : s.fillBuf = some (.error kind, s')) :
    s'.budget < s.budget := by
  rcases fillBuf_cases filled with ⟨-, kind', -, failed⟩ | ⟨available, same, -⟩
  · obtain ⟨inner, answer, rfl⟩ := refill_error failed
    obtain ⟨unmoved, shorter⟩ := Stream.read_error answer
    rw [budget, budget, unmoved.bytes, unmoved.position]
    simp only
    omega
  · cases same

lemma fillBuf_ok_budget (filled : s.fillBuf = some (.ok available, s')) :
    s'.budget ≤ s.budget ∧ available.length = s'.cap - s'.pos := by
  rcases fillBuf_cases filled with ⟨-, kind, same, -⟩ | ⟨available', same, read, origin⟩
  · cases same
  · cases same
    refine ⟨?_, buffer_length read⟩
    rcases origin with ⟨-, refilled⟩ | ⟨-, rfl⟩
    · obtain ⟨data, inner, answer, rfl⟩ := refill_ok refilled
      obtain ⟨bytes, position, script, initial, -, -⟩ := Stream.read_ok answer
      have enough := initial.length_le
      rw [length_drop] at enough
      rw [budget, budget, bytes]
      simp only
      omega
    · exact le_rfl

/-- `read_until`, with the bytes appended so far and their number. -/
def readUntil (delim : UInt8) (s : Reader) (buf : List UInt8) (read : Nat) :
    Option (List UInt8 × Except ErrorKind Nat × Reader) :=
  match _filled : s.fillBuf with
  | none => none
  | some (.error kind, s') =>
    if kind = .interrupted then readUntil delim s' buf read else some (buf, .error kind, s')
  | some (.ok available, s') =>
    match available.findIdx? (· == delim) with
    | some i => some (buf ++ available.take (i + 1), .ok (read + (i + 1)), s'.consume (i + 1))
    | none =>
      if _nonempty : available.length = 0 then
        some (buf ++ available, .ok (read + available.length), s'.consume available.length)
      else readUntil delim (s'.consume available.length) (buf ++ available)
        (read + available.length)
termination_by s.budget
decreasing_by
  · exact fillBuf_error_budget _filled
  · obtain ⟨less, length⟩ := fillBuf_ok_budget _filled
    refine lt_of_lt_of_le ?_ less
    simp only [budget, consume]
    omega

/-- `n.checked_sub(remainder)`. -/
def checkedSub (n : I64) (remainder : Nat) : Option I64 :=
  if h : -2 ^ 63 ≤ n.val - remainder then some ⟨n.val - remainder, h, by have := n.high; omega⟩
  else none

/-- `-remainder` for a remainder that fits in an `i64`. -/
def negated (remainder : Nat) : Option I64 :=
  if h : remainder < 2 ^ 63 then some ⟨-remainder, by omega, by omega⟩ else none

variable (s : Reader)

/-- `cap - pos`, which must not underflow. -/
def remainder : Option Nat := if s.pos ≤ s.cap then some (s.cap - s.pos) else none

def seekInner (pos : SeekFrom) : Except ErrorKind Nat × Reader :=
  let (result, inner) := s.inner.seek pos
  (result, { s with inner := inner })

/-- A single seek of the inner stream, after which the buffer is of no use. -/
def seekAndDiscard (pos : SeekFrom) : Except ErrorKind Nat × Reader :=
  match s.seekInner pos with
  | (.error kind, s) => (.error kind, s)
  | (.ok p, s) => (.ok p, s.discardBuffer)

def seek (pos : SeekFrom) : Option (Except ErrorKind Nat × Reader) :=
  match pos with
  | .current n => do
    let remainder ← s.remainder
    match checkedSub n remainder with
    | some offset => some (s.seekAndDiscard (.current offset))
    | none =>
      -- back by the remainder, and then by the offset
      let back ← negated remainder
      match s.seekAndDiscard (.current back) with
      | (.error kind, s) => some (.error kind, s)
      | (.ok _, s) => some (s.seekAndDiscard (.current n))
  | pos => some (s.seekAndDiscard pos)

/-- `pos.checked_sub((-offset) as u64)` and `pos.checked_add(offset as u64)`, within the buffer. -/
def withinBuffer (offset : I64) : Option Nat :=
  if offset.val < 0 then
    let amount := (-offset.val).toNat
    if amount ≤ s.pos then some (s.pos - amount) else none
  else
    let newPos := s.pos + offset.val.toNat
    if newPos < 2 ^ 64 ∧ newPos ≤ s.cap then some newPos else none

def seekRelative (offset : I64) : Option (Except ErrorKind Unit × Reader) :=
  match s.withinBuffer offset with
  | some newPos => some (.ok (), { s with pos := newPos })
  | none => (s.seek (.current offset)).map fun (result, s) => (result.map fun _ => (), s)

/-- The inner `stream_position` is `seek(SeekFrom::Current(0))`. -/
def streamPosition : Option (Except ErrorKind Nat × Reader) := do
  let remainder ← s.remainder
  match s.seekInner (.current .zero) with
  | (.error kind, s) => some (.error kind, s)
  | (.ok p, s) => if remainder ≤ p then some (.ok (p - remainder), s) else none

end Reader

inductive Call where
  | read (len : Nat)
  /-- `fill_buf`, and then `consume` of at most the returned length. -/
  | fillConsume (amt : Nat)
  | readUntil (delim : UInt8)
  | seek (pos : SeekFrom)
  | seekRelative (offset : I64)
  | streamPosition

inductive Answer where
  | data (bytes : List UInt8)
  | appended (bytes : List UInt8) (result : Except ErrorKind Nat)
  | position (p : Nat)
  | moved
  | failed (kind : ErrorKind)

def answered {α : Type} (ok : α → Answer) : Except ErrorKind α × Reader → Answer × Reader
  | (.error kind, s) => (.failed kind, s)
  | (.ok a, s) => (ok a, s)

def step (s : Reader) : Call → Option (Answer × Reader)
  | .read len => (s.read len).map (answered .data)
  | .fillConsume amt => s.fillBuf.map fun
    | (.error kind, s) => (.failed kind, s)
    | (.ok available, s) => (.data available, s.consume (min amt available.length))
  | .readUntil delim => (s.readUntil delim [] 0).map fun (bytes, result, s) =>
    (.appended bytes result, s)
  | .seek pos => (s.seek pos).map (answered .position)
  | .seekRelative offset => (s.seekRelative offset).map (answered fun _ => .moved)
  | .streamPosition => s.streamPosition.map (answered .position)

def run : List Call → Reader → Option (List Answer × Reader)
  | [], s => some ([], s)
  | call :: calls, s => do
    let (answer, s) ← step s call
    let (answers, s) ← run calls s
    some (answer :: answers, s)

/-- The bytes up to and with the first delimiter, or all of them. -/
def upTo (delim : UInt8) (bytes : List UInt8) : List UInt8 :=
  bytes.takeWhile (· != delim) ++ (bytes.dropWhile (· != delim)).take 1

/-- What a call may answer on the unbuffered stream at position `p`, and where it leaves it. -/
inductive Moves (stream : List UInt8) (p : Nat) : Call → Answer → Nat → Prop where
  | read {len : Nat} {data : List UInt8} (next : data <+: stream.drop p) (fits : data.length ≤ len)
      (ended : data = [] → len = 0 ∨ stream.length ≤ p) :
    Moves stream p (.read len) (.data data) (p + data.length)
  | fillConsume {amt : Nat} {data : List UInt8} (next : data <+: stream.drop p)
      (ended : data = [] → stream.length ≤ p) :
    Moves stream p (.fillConsume amt) (.data data) (p + min amt data.length)
  | readUntil {delim : UInt8} {data : List UInt8} (all : data = upTo delim (stream.drop p)) :
    Moves stream p (.readUntil delim) (.appended data (.ok data.length)) (p + data.length)
  | readUntilFailed {delim : UInt8} {data : List UInt8} {kind : ErrorKind}
      (next : data <+: stream.drop p) (before : delim ∉ data) :
    Moves stream p (.readUntil delim) (.appended data (.error kind)) (p + data.length)
  | seek {pos : SeekFrom} {p' : Nat} (lands : Stream.target stream.length p pos = some p') :
    Moves stream p (.seek pos) (.position p') p'
  | seekRelative {offset : I64} {p' : Nat} (lands : (p' : Int) = p + offset.val) :
    Moves stream p (.seekRelative offset) .moved p'
  | streamPosition : Moves stream p .streamPosition (.position p) p
  | failed {call : Call} {kind : ErrorKind} (single : ∀ delim, call ≠ .readUntil delim) :
    Moves stream p call (.failed kind) p

/-- The buffer holds the bytes before the position of the inner stream. -/
structure Valid (stream : List UInt8) (s : Reader) : Prop where
  bytes : s.inner.bytes = stream
  pos_le : s.pos ≤ s.cap
  cap_le : s.cap ≤ s.buf.length
  ahead : s.cap ≤ s.inner.position
  held : s.buf.take s.cap = (stream.drop (s.inner.position - s.cap)).take s.cap
  nonempty : 1 ≤ s.buf.length
  fits : s.buf.length < 2 ^ 63

/-- The inner stream is ahead by the unread part of the buffer. -/
def logical (s : Reader) : Nat := s.inner.position - (s.cap - s.pos)

variable {stream : List UInt8} {s s' : Reader}
variable {inner : Stream} {delim : UInt8} {front : List UInt8} {p : Nat}

section
variable (valid : Valid stream s)
include valid

lemma Valid.buffer_eq : s.buffer = some ((stream.drop (logical s)).take (s.cap - s.pos)) := by
  have start : s.inner.position - s.cap + s.pos = logical s := by
    have := valid.pos_le
    have := valid.ahead
    rw [logical]
    omega
  rw [Reader.buffer, if_pos ⟨valid.pos_le, valid.cap_le⟩, valid.held, drop_take, drop_drop, start]

/-- As long as there is something in the buffer, the stream has not ended. -/
lemma Valid.unread_le : ((stream.drop (logical s)).take (s.cap - s.pos)).length = s.cap - s.pos :=
  Reader.buffer_length valid.buffer_eq

lemma Valid.consume {amt : Nat} (within : amt ≤ s.cap - s.pos) :
    Valid stream (s.consume amt) ∧ logical (s.consume amt) = logical s + amt := by
  have ahead := valid.ahead
  constructor
  · exact { valid with pos_le := min_le_right _ _ }
  · simp only [logical, Reader.consume]
    omega

lemma Valid.unmoved (bytes : inner.bytes = s.inner.bytes)
    (position : inner.position = s.inner.position) :
    Valid stream { s with inner := inner } ∧ logical { s with inner := inner } = logical s := by
  constructor
  · refine { valid with bytes := bytes.trans valid.bytes, ahead := ?_, held := ?_ }
    · simpa only [position] using valid.ahead
    · simpa only [position] using valid.held
  · simp only [logical, position]

end

/-- With the buffer discarded, the logical position is that of the inner stream. -/
lemma valid_discarded {buf : List UInt8} (bytes : inner.bytes = stream)
    (nonempty : 1 ≤ buf.length) (fits : buf.length < 2 ^ 63) :
    Valid stream ⟨inner, buf, 0, 0⟩ ∧ logical ⟨inner, buf, 0, 0⟩ = inner.position :=
  ⟨⟨bytes, le_refl 0, Nat.zero_le _, Nat.zero_le _, rfl, nonempty, fits⟩, rfl⟩

lemma Valid.refill (valid : Valid stream s) (used_up : s.cap ≤ s.pos) :
    Valid stream s.refill.2 ∧ logical s.refill.2 = logical s ∧
      (s.refill.1 = .ok () → s.refill.2.cap = s.refill.2.pos → stream.length ≤ logical s) := by
  have here : logical s = s.inner.position := by
    rw [logical]
    omega
  rcases answer : s.inner.read s.buf.length with ⟨kind | data, inner⟩
  · have state : s.refill = (.error kind, { s with inner := inner }) := by
      rw [Reader.refill, answer]
    obtain ⟨unmoved, -⟩ := Stream.read_error answer
    obtain ⟨valid', same⟩ := valid.unmoved unmoved.bytes unmoved.position
    rw [state]
    exact ⟨valid', same, fun impossible => nomatch impossible⟩
  · have state : s.refill = (.ok (), ⟨inner, data ++ s.buf.drop data.length, 0, data.length⟩) := by
      rw [Reader.refill, answer]
    obtain ⟨bytes, position, -, next, fits, ended⟩ := Stream.read_ok answer
    rw [valid.bytes] at next ended
    have whole : (data ++ s.buf.drop data.length).length = s.buf.length := by
      rw [length_append, length_drop]
      omega
    have nonempty := valid.nonempty
    rw [state]
    refine ⟨⟨bytes.trans valid.bytes, Nat.zero_le _, ?_, ?_, ?_, ?_, ?_⟩, ?_, ?_⟩
    · simp only [length_append]
      omega
    · simp only [position]
      omega
    · simp only [position, Nat.add_sub_cancel, take_left' rfl]
      exact prefix_iff_eq_take.mp next
    · exact whole ▸ nonempty
    · exact whole ▸ valid.fits
    · simp only [logical, position]
      omega
    · intro _ empty
      have none_left : data = [] := eq_nil_of_length_eq_zero empty
      rw [here]
      rcases ended none_left with zero | past
      · omega
      · exact past

/-- `fill_buf` gives the bytes at the logical position, and none only at the end. -/
lemma Valid.fillBuf (valid : Valid stream s) :
    ∃ result s', s.fillBuf = some (result, s') ∧ Valid stream s' ∧ logical s' = logical s ∧
      ∀ available, result = .ok available → available <+: stream.drop (logical s) ∧
        available.length = s'.cap - s'.pos ∧ (available = [] → stream.length ≤ logical s) := by
  by_cases used_up : s.cap ≤ s.pos
  · have equal : s.pos = s.cap := le_antisymm valid.pos_le used_up
    obtain ⟨valid', same, ended⟩ := valid.refill used_up
    rw [Reader.fillBuf, if_pos used_up, if_neg (not_not.mpr equal)]
    rcases answer : s.refill with ⟨kind | _, s₁⟩
    · rw [answer] at valid' same
      exact ⟨.error kind, s₁, rfl, valid', same, fun _ impossible => nomatch impossible⟩
    · rw [answer] at valid' same ended
      simp only at valid' same ended
      simp only [valid'.buffer_eq]
      refine ⟨_, s₁, rfl, valid', same, ?_⟩
      intro available given
      cases given
      have length := valid'.unread_le
      refine ⟨same ▸ take_prefix _ _, length, ?_⟩
      intro empty
      rw [empty, length_nil] at length
      have pos_le := valid'.pos_le
      exact ended trivial (by omega)
  · rw [Reader.fillBuf, if_neg used_up, valid.buffer_eq]
    refine ⟨_, s, rfl, valid, rfl, ?_⟩
    intro available given
    cases given
    have length := valid.unread_le
    refine ⟨ take_prefix _ _, length, ?_⟩
    intro empty
    rw [empty, length_nil] at length
    omega

/-- The call is answered as on the unbuffered stream at the logical position. -/
def Stepped (stream : List UInt8) (s : Reader) (call : Call) : Prop :=
  ∃ answer s', step s call = some (answer, s') ∧ Valid stream s' ∧
    Moves stream (logical s) call answer (logical s')

lemma Stepped.of_failed {call : Call} (kind : ErrorKind) (valid : Valid stream s')
    (called : step s call = some (.failed kind, s')) (same : logical s' = logical s)
    (single : ∀ delim, call ≠ .readUntil delim) : Stepped stream s call :=
  ⟨_, s', called, valid, same ▸ .failed single⟩

lemma Valid.read (valid : Valid stream s) (len : Nat) : Stepped stream s (.read len) := by
  by_cases bypass : s.pos = s.cap ∧ s.buf.length ≤ len
  · have here : logical s = s.inner.position := by
      rw [logical]
      omega
    rcases answer : s.inner.read len with ⟨kind | data, inner⟩
    · obtain ⟨unmoved, -⟩ := Stream.read_error answer
      obtain ⟨valid', same⟩ := valid_discarded (unmoved.bytes.trans valid.bytes) valid.nonempty
        valid.fits
      refine .of_failed kind valid' ?_ (by rw [same, unmoved.position, ← here]) (by simp)
      simp [step, Reader.read, bypass, Reader.discardBuffer, answer, answered]
    · obtain ⟨bytes, position, -, next, fits, ended⟩ := Stream.read_ok answer
      rw [valid.bytes, ← here] at next ended
      obtain ⟨valid', same⟩ := valid_discarded (bytes.trans valid.bytes) valid.nonempty valid.fits
      refine ⟨.data data, ⟨inner, s.buf, 0, 0⟩, ?_, valid', ?_⟩
      · simp [step, Reader.read, bypass, Reader.discardBuffer, answer, answered]
      · rw [same, position, ← here]
        exact .read next fits ended
  · obtain ⟨result, s₁, filled, valid', same, given⟩ := valid.fillBuf
    cases result with
    | error kind =>
      exact .of_failed kind valid' (by simp [step, Reader.read, bypass, filled, answered]) same
        (by simp)
    | ok rem =>
      obtain ⟨next, length, ended⟩ := given rem rfl
      have taken : (rem.take len).length ≤ s₁.cap - s₁.pos := by
        rw [← length]
        exact length_take_le' len rem
      obtain ⟨valid'', moved⟩ := valid'.consume taken
      refine ⟨.data (rem.take len), _, ?_, valid'', ?_⟩
      · rw [step, Reader.read, if_neg bypass, filled]
        rfl
      · rw [moved, same]
        refine .read (( take_prefix _ _).trans next) (length_take_le len rem) ?_
        intro empty
        rcases take_eq_nil_iff.mp empty with zero | none_left
        · exact .inl zero
        · exact .inr (ended none_left)

lemma upTo_append (before : delim ∉ front) (rest : List UInt8) :
    upTo delim (front ++ rest) = front ++ upTo delim rest := by
  have keep : ∀ b ∈ front, (b != delim) := by
    intro b member
    simpa using ne_of_mem_of_not_mem member before
  rw [upTo, takeWhile_append_of_pos keep, dropWhile_append_of_pos keep, upTo, append_assoc]

lemma findIdx_spec (delim : UInt8) (bytes : List UInt8) :
    (bytes.findIdx? (· == delim) = none ∧ delim ∉ bytes) ∨
      ∃ front rest, bytes = front ++ delim :: rest ∧ delim ∉ front ∧
        bytes.findIdx? (· == delim) = some front.length := by
  by_cases present : delim ∈ bytes
  · obtain ⟨front, rest, rfl, before⟩ := eq_append_cons_of_mem present
    have skipped : front.findIdx? (· == delim) = none := by
      rw [findIdx?_eq_none_iff]
      intro b member
      simpa using ne_of_mem_of_not_mem member before
    refine .inr ⟨front, rest, rfl, before, ?_⟩
    simp [findIdx?_append, skipped, findIdx?_cons]
  · refine .inl ⟨?_, present⟩
    rw [findIdx?_eq_none_iff]
    intro b member
    simpa using ne_of_mem_of_not_mem member present

/-- The outcomes of the loop: all up to the delimiter, or some bytes before it and an error. -/
def Collected (stream : List UInt8) (delim : UInt8) (p : Nat) (appended : List UInt8)
    (read : Nat) : Except ErrorKind Nat → Prop
  | .ok n => n = read + appended.length ∧ appended = upTo delim (stream.drop p)
  | .error _ => appended <+: stream.drop p ∧ delim ∉ appended

/-- A round that appends bytes without the delimiter. -/
lemma Collected.cons {read : Nat} {appended : List UInt8} {result : Except ErrorKind Nat}
    (next : front <+: stream.drop p) (before : delim ∉ front)
    (later : Collected stream delim (p + front.length) appended (read + front.length) result) :
    Collected stream delim p (front ++ appended) read result := by
  obtain ⟨rest, split⟩ := next
  have remaining : stream.drop (p + front.length) = rest := by
    rw [← drop_drop, ← split, drop_left' rfl]
  cases result with
  | ok n =>
    obtain ⟨count, all⟩ := later
    rw [remaining] at all
    refine ⟨by rw [length_append]; omega, ?_⟩
    rw [← split, upTo_append before, all]
  | error kind =>
    obtain ⟨more, absent⟩ := later
    rw [remaining] at more
    refine ⟨?_, by simp [before, absent]⟩
    rw [← split]
    exact (prefix_append_right_inj front).mpr more

section
variable (valid : Valid stream s)
include valid

lemma Valid.readUntil (delim : UInt8) (buf : List UInt8) (read : Nat) :
    ∃ appended result s', s.readUntil delim buf read = some (buf ++ appended, result, s') ∧
      Valid stream s' ∧ logical s' = logical s + appended.length ∧
      Collected stream delim (logical s) appended read result := by
  induction h : s.budget using Nat.strongRecOn generalizing s buf read with
  | ind budget ih =>
    subst h
    obtain ⟨result, s₁, filled, valid₁, same, given⟩ := valid.fillBuf
    rw [Reader.readUntil]
    split
    next failed =>
      rw [filled] at failed
      cases failed
    next kind s₂ failed =>
      cases filled.symm.trans failed
      by_cases again : kind = .interrupted
      · rw [if_pos again]
        rw [← same]
        exact ih _ (Reader.fillBuf_error_budget filled) valid₁ buf read rfl
      · rw [if_neg again]
        exact ⟨[], .error kind, s₁, by simp, valid₁, same, nil_prefix, by simp⟩
    next available s₂ succeeded =>
      cases filled.symm.trans succeeded
      obtain ⟨next, length, ended⟩ := given available rfl
      rcases findIdx_spec delim available with ⟨missing, before⟩ |
        ⟨front, rest, split, before, found⟩
      · rw [missing]
        obtain ⟨valid₂, moved⟩ := valid₁.consume (le_of_eq length)
        rw [same] at moved
        by_cases empty : available.length = 0
        · have none_left := eq_nil_of_length_eq_zero empty
          have past := ended none_left
          rw [dif_pos empty]
          refine ⟨available, _, _, rfl, valid₂, moved, rfl, ?_⟩
          rw [none_left, drop_of_length_le past]
          rfl
        · rw [dif_neg empty]
          have fewer : (s₁.consume available.length).budget < s.budget := by
            obtain ⟨less, length⟩ := Reader.fillBuf_ok_budget filled
            refine lt_of_lt_of_le ?_ less
            simp only [Reader.budget, Reader.consume]
            omega
          obtain ⟨appended, result, s', called, valid', moved', collected⟩ :=
            ih _ fewer valid₂ (buf ++ available) (read + available.length) rfl
          rw [moved] at moved' collected
          refine ⟨available ++ appended, result, s', ?_, valid', ?_, collected.cons next before⟩
          · rw [called, append_assoc]
          · rw [moved', length_append, add_assoc]
      · rw [found]
        have size : front.length + 1 ≤ available.length := by
          rw [split, length_append, length_cons]
          omega
        have piece : available.take (front.length + 1) = front ++ [delim] := by
          rw [split, ← singleton_append, ← append_assoc]
          exact take_left' (by simp)
        obtain ⟨valid₂, moved⟩ := valid₁.consume (le_trans size (le_of_eq length))
        rw [same] at moved
        refine ⟨available.take (front.length + 1), _, _, rfl, valid₂, ?_, ?_, ?_⟩
        · rw [moved, length_take_of_le size]
        · rw [length_take_of_le size]
        · obtain ⟨more, whole⟩ := next
          rw [piece, ← whole, split, append_assoc, upTo_append before]
          simp [upTo]

lemma Valid.seekInner (pos : SeekFrom) :
    ∃ result inner, s.seekInner pos = (result, { s with inner := inner }) ∧
      inner.bytes = stream ∧
      match result with
      | .error _ => Stream.Unmoved s.inner inner
      | .ok p => Stream.target stream.length s.inner.position pos = some p ∧
          inner.position = p := by
  rw [Reader.seekInner]
  rcases answer : s.inner.seek pos with ⟨kind | p, inner⟩
  · have unmoved := Stream.seek_error answer
    exact ⟨.error kind, inner, rfl, unmoved.bytes.trans valid.bytes, unmoved⟩
  · obtain ⟨lands, bytes, position⟩ := Stream.seek_ok answer
    rw [valid.bytes] at lands
    exact ⟨.ok p, inner, rfl, bytes.trans valid.bytes, lands, position⟩

/-- A seek of the inner stream goes where it lands from the inner position, or moves nothing. -/
lemma Valid.seekAndDiscard (pos : SeekFrom) :
    ∃ result s', s.seekAndDiscard pos = (result, s') ∧ Valid stream s' ∧
      match result with
      | .error _ => logical s' = logical s
      | .ok p => Stream.target stream.length s.inner.position pos = some p ∧
        logical s' = p ∧ s'.inner.position = p := by
  obtain ⟨result, inner, called, bytes, outcome⟩ := valid.seekInner pos
  rw [Reader.seekAndDiscard, called]
  cases result with
  | error kind =>
    obtain ⟨valid', same⟩ := valid.unmoved outcome.bytes outcome.position
    exact ⟨.error kind, _, rfl, valid', same⟩
  | ok p =>
    obtain ⟨valid', here⟩ := valid_discarded bytes valid.nonempty valid.fits
    exact ⟨.ok p, _, rfl, valid', outcome.1, here.trans outcome.2, outcome.2⟩

end

lemma landing_eq_some_iff {x : Int} : Stream.landing x = some p ↔ x = p ∧ x < 2 ^ 64 := by
  rw [Stream.landing]
  split <;> simp <;> omega

section
variable (valid : Valid stream s)
include valid

/-- The remainder of the buffer, which fits in an `i64`. -/
lemma Valid.remainder_eq : s.remainder = some (s.cap - s.pos) ∧ s.cap - s.pos < 2 ^ 63 ∧
      (logical s : Int) = s.inner.position - (s.cap - s.pos : Nat) := by
  have cap_le := valid.cap_le
  have fits := valid.fits
  have ahead := valid.ahead
  refine ⟨if_pos valid.pos_le, by omega, ?_⟩
  rw [logical]
  omega

/-- A seek goes where it lands from the logical position, or leaves that. -/
def Sought (stream : List UInt8) (s : Reader) (pos : SeekFrom) (s' : Reader) :
    Except ErrorKind Nat → Prop
  | .error _ => logical s' = logical s
  | .ok p => Stream.target stream.length (logical s) pos = some p ∧ logical s' = p

lemma Valid.seek (pos : SeekFrom) :
    ∃ result s', s.seek pos = some (result, s') ∧ Valid stream s' ∧
      Sought stream s pos s' result := by
  -- the seeks that do not start from the position
  have absolute (h : ∀ q, Stream.target stream.length q pos = Stream.target stream.length 0 pos)
      (code : s.seek pos = some (s.seekAndDiscard pos)) : ∃ result s',
      s.seek pos = some (result, s') ∧ Valid stream s' ∧ Sought stream s pos s' result := by
    obtain ⟨result, s', called, valid', outcome⟩ := valid.seekAndDiscard pos
    refine ⟨result, s', by rw [code, called], valid', ?_⟩
    cases result with
    | error kind => exact outcome
    | ok p => exact ⟨(h _).trans ((h _).symm.trans outcome.1), outcome.2.1⟩
  cases pos with
  | start n => exact absolute (fun _ => rfl) rfl
  | fromEnd n => exact absolute (fun _ => rfl) rfl
  | current n =>
    obtain ⟨remainder, fits, here⟩ := valid.remainder_eq
    have high := n.high
    rw [Reader.seek, remainder]
    simp only [bind_eq_bind, bind_some]
    rw [Reader.checkedSub]
    split_ifs with range
    · obtain ⟨result, s', called, valid', outcome⟩ :=
        valid.seekAndDiscard (.current ⟨n.val - (s.cap - s.pos : Nat), range, by omega⟩)
      refine ⟨result, s', congrArg some called, valid', ?_⟩
      cases result with
      | error kind => exact outcome
      | ok p =>
        obtain ⟨lands, moved, -⟩ := outcome
        refine ⟨?_, moved⟩
        rw [← lands, Stream.target]
        congr 1
        simp only
        omega
    · have back : Reader.negated (s.cap - s.pos) =
          some ⟨-(s.cap - s.pos : Nat), by omega, by omega⟩ := dif_pos fits
      rw [back]
      simp only [bind_some]
      obtain ⟨result, s₁, called, valid₁, outcome⟩ :=
        valid.seekAndDiscard (.current ⟨-(s.cap - s.pos : Nat), by omega, by omega⟩)
      rw [called]
      cases result with
      | error kind => exact ⟨.error kind, s₁, rfl, valid₁, outcome⟩
      | ok p =>
        obtain ⟨lands, moved, inner⟩ := outcome
        obtain ⟨value, -⟩ := landing_eq_some_iff.mp lands
        have same : logical s = p := by
          simp only at value
          omega
        obtain ⟨result, s', called', valid', outcome'⟩ := valid₁.seekAndDiscard (.current n)
        refine ⟨result, s', congrArg some called', valid', ?_⟩
        cases result with
        | error kind => exact outcome'.trans (moved.trans same.symm)
        | ok p' =>
          rw [inner] at outcome'
          exact ⟨same ▸ outcome'.1, outcome'.2.1⟩

lemma Valid.seekRelative (offset : I64) : Stepped stream s (.seekRelative offset) := by
  have pos_le := valid.pos_le
  have ahead := valid.ahead
  cases inside : s.withinBuffer offset with
  | some newPos =>
    -- the new position is still in the buffer
    have reached : (newPos : Int) = s.pos + offset.val ∧ newPos ≤ s.cap := by
      simp only [Reader.withinBuffer] at inside
      split_ifs at inside with negative enough within
      · cases inside
        omega
      · cases inside
        omega
    refine ⟨.moved, { s with pos := newPos }, ?_, { valid with pos_le := reached.2 }, ?_⟩
    · simp [step, Reader.seekRelative, inside, answered]
    · apply Moves.seekRelative
      simp only [logical]
      omega
  | none =>
    obtain ⟨result, s', called, valid', sought⟩ := valid.seek (.current offset)
    cases result with
    | error kind =>
      refine .of_failed kind valid' ?_ sought (by simp)
      simp [step, Reader.seekRelative, inside, called, answered, Except.map]
    | ok p =>
      obtain ⟨lands, moved⟩ := sought
      refine ⟨.moved, s', ?_, valid', .seekRelative ?_⟩
      · simp [step, Reader.seekRelative, inside, called, answered, Except.map]
      · rw [moved, (landing_eq_some_iff.mp lands).1]

lemma Valid.streamPosition : Stepped stream s .streamPosition := by
  obtain ⟨remainder, -, here⟩ := valid.remainder_eq
  obtain ⟨result, inner, called, bytes, outcome⟩ := valid.seekInner (.current .zero)
  cases result with
  | error kind =>
    obtain ⟨valid', same⟩ := valid.unmoved outcome.bytes outcome.position
    refine .of_failed kind valid' ?_ same (by simp)
    simp [step, Reader.streamPosition, remainder, called, answered]
  | ok p =>
    obtain ⟨lands, position⟩ := outcome
    have current : s.inner.position = p := by
      have value := (landing_eq_some_iff.mp lands).1
      simp only [I64.zero] at value
      omega
    have enough : s.cap - s.pos ≤ p := by omega
    obtain ⟨valid', same⟩ :=
      valid.unmoved (bytes.trans valid.bytes.symm) (position.trans current.symm)
    refine ⟨.position (logical s), _, ?_, valid', ?_⟩
    · simp [step, Reader.streamPosition, remainder, called, enough, answered, logical, current]
    · rw [same]
      exact .streamPosition

end

end BufReader
