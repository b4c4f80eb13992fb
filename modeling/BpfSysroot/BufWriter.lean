import Mathlib

/-!
# BufWriter and LineWriter

`BufWriter` and `LineWriterShim` of `std/src/io/buffered`. The inner writer follows
a script: each call of it takes the next item, by which it takes some of the bytes
it is given, fails without taking any, or panics; after the script it takes all.
Every finite behaviour is one of these. Errors and panics carry the state they
leave, as the writer can be used or dropped afterwards. The inner writer is there
until `into_inner` returns it, which ends a run.

A slice and the capacity are at most `isize::MAX`, so the sum of two lengths does not
overflow. The slices of a vectored write may overlap, and the sum of all their lengths
is taken modulo `usize`, whose width is a parameter.
-/

namespace BufWriter

open List

inductive ErrorKind where
  | interrupted
  | writeZero
  | other (code : Nat)
  deriving DecidableEq, Repr

/-- The end of a call: a value, an error or a panic, each with the state it leaves. -/
inductive Outcome (σ α : Type) where
  | ok (a : α) (s : σ)
  | err (kind : ErrorKind) (s : σ)
  | panicked (s : σ)

namespace Outcome

variable {σ τ α β : Type}

/-- The `?` operator and the unwinding of a panic. -/
def bind : Outcome σ α → (α → σ → Outcome σ β) → Outcome σ β
  | ok a s, f => f a s
  | err kind s, _ => err kind s
  | panicked s, _ => panicked s

def mapState (f : σ → τ) : Outcome σ α → Outcome τ α
  | ok a s => ok a (f s)
  | err kind s => err kind (f s)
  | panicked s => panicked (f s)

def state : Outcome σ α → σ
  | ok _ s => s
  | err _ s => s
  | panicked s => s

end Outcome

/-- One answer of the inner writer; it may have taken bytes before it panics. -/
inductive Mood where
  | take (n : Nat)
  | fail (kind : ErrorKind)
  | panic (n : Nat)

structure Sink where
  taken : List UInt8
  script : List Mood
  isWriteVectored : Bool

namespace Sink

def accept (w : Sink) (bytes : List UInt8) : Sink := { w with taken := w.taken ++ bytes }

/-- The next item of the script. -/
def mood (w : Sink) (asked : Nat) : Mood × Sink :=
  match w.script with
  | [] => (.take asked, w)
  | mood :: script => (mood, { w with script := script })

def write (w : Sink) (buf : List UInt8) : Outcome Sink Nat :=
  match w.mood buf.length with
  | (.take n, w) => .ok (min n buf.length) (w.accept (buf.take n))
  | (.fail kind, w) => .err kind w
  | (.panic n, w) => .panicked (w.accept (buf.take n))

/-- The inner writer takes from the slices in order, and can report no more than
`usize::MAX` bytes. -/
def writeVectored (bits : Nat) (w : Sink) (bufs : List (List UInt8)) : Outcome Sink Nat :=
  w.write (bufs.flatten.take (2 ^ bits - 1))

def flush (w : Sink) : Outcome Sink Unit :=
  match w.mood 0 with
  | (.take _, w) => .ok () w
  | (.fail kind, w) => .err kind w
  | (.panic _, w) => .panicked w

/-- A seek takes no bytes; the new position is of no matter here. -/
def seek (w : Sink) : Outcome Sink Nat :=
  match w.mood 0 with
  | (.take n, w) => .ok n w
  | (.fail kind, w) => .err kind w
  | (.panic _, w) => .panicked w

variable {w w' : Sink} {buf : List UInt8}

lemma mood_eq (w : Sink) (asked : Nat) :
    (w.mood asked).2.taken = w.taken ∧ (w.mood asked).2.script.length ≤ w.script.length := by
  rw [mood]
  split
  · exact ⟨rfl, le_rfl⟩
  next script =>
    rw [script]
    exact ⟨rfl, Nat.le_succ _⟩

lemma flush_taken (w : Sink) : w.flush.state.taken = w.taken := by
  have same := (mood_eq w 0).1
  rw [flush]
  split <;> rename_i answer <;> rwa [answer] at same

lemma seek_taken (w : Sink) : w.seek.state.taken = w.taken := by
  have same := (mood_eq w 0).1
  rw [seek]
  split <;> rename_i answer <;> rwa [answer] at same

lemma write_ok {n : Nat} (answer : w.write buf = .ok n w') :
    n ≤ buf.length ∧ w'.taken = w.taken ++ buf.take n ∧
      w'.script.length ≤ w.script.length := by
  have same := mood_eq w buf.length
  rw [write] at answer
  split at answer <;> simp only [Outcome.ok.injEq, reduceCtorEq] at answer
  rename_i k w₁ taking
  rw [taking] at same
  obtain ⟨rfl, rfl⟩ := answer
  refine ⟨min_le_right _ _, ?_, same.2⟩
  have cut : buf.take (min k buf.length) = buf.take k := by
    rw [← take_take, take_length]
  rw [accept, same.1, cut]

lemma write_err {kind : ErrorKind} (answer : w.write buf = .err kind w') :
    w'.taken = w.taken ∧ w'.script.length < w.script.length := by
  rw [write, mood] at answer
  cases script : w.script with
  | nil => simp [script] at answer
  | cons mood rest =>
    cases mood <;> simp only [script, Outcome.err.injEq, reduceCtorEq] at answer
    obtain ⟨-, rfl⟩ := answer
    exact ⟨rfl, by simp⟩

def writeAll (w : Sink) (buf : List UInt8) : Outcome Sink Unit :=
  if _nonempty : buf ≠ [] then
    match _answer : w.write buf with
    | .panicked w' => .panicked w'
    | .err kind w' => if kind = .interrupted then writeAll w' buf else .err kind w'
    | .ok n w' => if _zero : n = 0 then .err .writeZero w' else writeAll w' (buf.drop n)
  else .ok () w
termination_by w.script.length + buf.length
decreasing_by
  · have := write_err _answer
    omega
  · have := write_ok _answer
    rw [length_drop]
    omega

end Sink

structure Writer where
  inner : Sink
  buf : List UInt8
  capacity : Nat
  panicked : Bool

namespace Writer

/-- `Vec::with_capacity` panics above `isize::MAX`. -/
def withCapacity (bits capacity : Nat) (inner : Sink) : Option Writer :=
  if capacity < 2 ^ (bits - 1) then some ⟨inner, [], capacity, false⟩ else none

/-- The loop of `flush_buf` with what its guard has counted. -/
def flushLoop (s : Writer) (written : Nat) : Outcome (Writer × Nat) Unit :=
  if _left : written < s.buf.length then
    match _answer : s.inner.write (s.buf.drop written) with
    | .panicked inner => .panicked ({ s with inner := inner, panicked := true }, written)
    | .err kind inner =>
      let s' := { s with inner := inner, panicked := false }
      if kind = .interrupted then flushLoop s' written else .err kind (s', written)
    | .ok n inner =>
      let s' := { s with inner := inner, panicked := false }
      if _zero : n = 0 then .err .writeZero (s', written) else flushLoop s' (written + n)
  else .ok () (s, written)
termination_by s.inner.script.length + (s.buf.length - written)
decreasing_by
  · have := Sink.write_err _answer
    omega
  · have := Sink.write_ok _answer
    omega

variable (s : Writer)

/-- However the loop ends, the guard takes the written bytes out of the buffer. -/
def flushBuf : Outcome Writer Unit :=
  (s.flushLoop 0).mapState fun (s, written) => { s with buf := s.buf.drop written }

def writeToBuf (buf : List UInt8) : Nat × Writer :=
  let available := s.capacity - s.buf.length
  let amtToBuffer := min available buf.length
  (amtToBuffer, { s with buf := s.buf ++ buf.take amtToBuffer })

/-- `extend_from_slice`. -/
def extend (buf : List UInt8) : Writer := { s with buf := s.buf ++ buf }

/-- A call of the inner writer with the flag set that tells of its panic. -/
def guarded {α : Type} (s : Writer) (call : Sink → Outcome Sink α) : Outcome Writer α :=
  match call s.inner with
  | .ok a inner => .ok a { s with inner := inner, panicked := false }
  | .err kind inner => .err kind { s with inner := inner, panicked := false }
  | .panicked inner => .panicked { s with inner := inner, panicked := true }

/-- A call of the inner writer without it. -/
def direct {α : Type} (s : Writer) (call : Sink → Outcome Sink α) : Outcome Writer α :=
  (call s.inner).mapState fun inner => { s with inner := inner }

/-- Flushes if `len` more bytes do not fit. -/
def makeRoom (len : Nat) : Outcome Writer Unit :=
  if s.capacity < s.buf.length + len then s.flushBuf else .ok () s

def write (buf : List UInt8) : Outcome Writer Nat :=
  (s.makeRoom buf.length).bind fun _ s =>
    if s.capacity ≤ buf.length then s.guarded (·.write buf) else .ok buf.length (s.extend buf)

def writeAll (buf : List UInt8) : Outcome Writer Unit :=
  (s.makeRoom buf.length).bind fun _ s =>
    if s.capacity ≤ buf.length then s.guarded (·.writeAll buf) else .ok () (s.extend buf)

/-- The slices after the first one, as long as they fit. -/
def extendWhileFits (s : Writer) (totalWritten : Nat) : List (List UInt8) → Outcome Writer Nat
  | [] => .ok totalWritten s
  | buf :: bufs =>
    if s.capacity < s.buf.length + buf.length then .ok totalWritten s
    else extendWhileFits (s.extend buf) (totalWritten + buf.length) bufs

/-- `for_each(extend_from_slice)`: a vector longer than `isize::MAX` panics. -/
def extendAll (bits : Nat) (s : Writer) : List (List UInt8) → Outcome Writer Unit
  | [] => .ok () s
  | buf :: bufs =>
    if 2 ^ (bits - 1) ≤ s.buf.length + buf.length then .panicked s
    else extendAll bits (s.extend buf) bufs

/-- The sum of the lengths, as a `usize`. -/
def totalLen (bits : Nat) (bufs : List (List UInt8)) : Nat := (bufs.map length).sum % 2 ^ bits

def writeVectored (bits : Nat) (s : Writer) (bufs : List (List UInt8)) : Outcome Writer Nat :=
  if s.inner.isWriteVectored then
    let total := totalLen bits bufs
    (if s.capacity < (s.buf.length + total) % 2 ^ bits then s.flushBuf else .ok () s).bind
      fun _ s =>
        if s.capacity ≤ total then s.guarded (·.writeVectored bits bufs)
        else (s.extendAll bits bufs).bind fun _ s => .ok total s
  else
    -- `iter.by_ref().find(..)` leaves the slices after the first that is not empty
    match bufs.dropWhile (·.isEmpty) with
    | [] => .ok 0 s
    | buf :: rest =>
      (s.makeRoom buf.length).bind fun _ s =>
        if s.capacity ≤ buf.length then s.guarded (·.write buf)
        else (s.extend buf).extendWhileFits buf.length rest

def flush : Outcome Writer Unit := s.flushBuf.bind fun _ s => s.direct (·.flush)

def seek : Outcome Writer Nat := s.flushBuf.bind fun _ s => s.direct (·.seek)

/-- What the inner writer is after `drop`; whether the flush fails is ignored. -/
def drop : Sink := if s.panicked then s.inner else s.flushBuf.state.inner

end Writer

namespace Sink

/-- What `write_all` leaves, where it does not panic. -/
lemma writeAll_ends (w : Sink) (buf : List UInt8) :
    (∀ a w', w.writeAll buf = .ok a w' → w'.taken = w.taken ++ buf) ∧
      ∀ kind w', w.writeAll buf = .err kind w' →
        ∃ part, part <+: buf ∧ w'.taken = w.taken ++ part := by
  -- by the loop: a short write leaves a rest of the bytes, an interruption all of them
  fun_induction writeAll w buf with
  | case1 => simp
  | case2 w buf _ w₁ answer ih =>
    rw [(write_err answer).1] at ih
    exact ih
  | case3 w buf _ kind w₁ answer =>
    constructor
    · simp
    · rintro kind' w' ⟨⟩
      exact ⟨[], nil_prefix, by rw [(write_err answer).1, append_nil]⟩
  | case4 w buf _ w₁ answer =>
    constructor
    · simp
    · rintro kind' w' ⟨⟩
      exact ⟨[], nil_prefix, by rw [(write_ok answer).2.1, take_zero]⟩
  | case5 w buf _ n w₁ answer _ ih =>
    obtain ⟨-, taken, -⟩ := write_ok answer
    rw [taken] at ih
    constructor
    · intro a w' done
      rw [ih.1 a w' done, append_assoc, take_append_drop]
    · intro kind w' failed
      obtain ⟨part, leads, all⟩ := ih.2 kind w' failed
      refine ⟨buf.take n ++ part, ?_, by rw [all, append_assoc]⟩
      have rejoined := (prefix_append_right_inj (buf.take n)).mpr leads
      rwa [take_append_drop] at rejoined
  | case6 w buf empty =>
    have none : buf = [] := by simpa using empty
    constructor
    · rintro a w' ⟨⟩
      rw [none, append_nil]
    · simp

end Sink

namespace Writer

/-- What the inner writer has taken and the buffer holds is `bytes`, in order. -/
structure Holds (capacity : Nat) (bytes : List UInt8) (s : Writer) : Prop where
  written : s.inner.taken ++ s.buf = bytes
  bound : s.buf.length ≤ capacity
  kept : s.capacity = capacity

/-- `drop` has nothing to write. -/
def Quiet (s : Writer) : Prop := s.panicked ∨ s.buf = []

/-- What holds after a call, by the way it ends; after a panic nothing is left to write. -/
def Ends {α : Type} (Q : α → Writer → Prop) (E : Writer → Prop) : Outcome Writer α → Prop
  | .ok a s => Q a s
  | .err _ s => E s
  | .panicked s => Quiet s

section
variable {α β : Type} {s : Writer} {Q Q' : α → Writer → Prop} {R : β → Writer → Prop}
  {E E' : Writer → Prop}
variable {o : Outcome Writer α} {call : Sink → Outcome Sink α}

lemma Ends.bind {f : α → Writer → Outcome Writer β} (first : Ends Q E o)
    (next : ∀ a s, Q a s → Ends R E (f a s)) : Ends R E (o.bind f) := by
  cases o with
  | ok a s => exact next a s first
  | err kind s => exact first
  | panicked s => exact first

lemma Ends.mono (ends : Ends Q E o) (ok : ∀ a s, Q a s → Q' a s) (err : ∀ s, E s → E' s) :
    Ends Q' E' o := by
  cases o with
  | ok a s => exact ok a s ends
  | err kind s => exact err s ends
  | panicked s => exact ends

lemma Ends.guarded
    (ok : ∀ a w, call s.inner = .ok a w → Q a { s with inner := w, panicked := false })
    (err : ∀ kind w, call s.inner = .err kind w → E { s with inner := w, panicked := false }) :
    Ends Q E (s.guarded call) := by
  rw [Writer.guarded]
  split
  · exact ok _ _ ‹_›
  · exact err _ _ ‹_›
  · exact .inl rfl

/-- Without the flag the buffer has to be empty for the drop to do nothing. -/
lemma Ends.direct (empty : s.buf = [])
    (ok : ∀ a w, call s.inner = .ok a w → Q a { s with inner := w })
    (err : ∀ kind w, call s.inner = .err kind w → E { s with inner := w }) :
    Ends Q E (s.direct call) := by
  rw [Writer.direct]
  cases answer : call s.inner with
  | ok a w => exact ok a w answer
  | err kind w => exact err kind w answer
  | panicked w => exact .inr empty

end

/-- What the loop has counted is what the inner writer has taken of the buffer. -/
lemma flushLoop_ends {s : Writer} {written : Nat} (bytes : List UInt8)
    (within : written ≤ s.buf.length) (counted : s.inner.taken ++ s.buf.drop written = bytes) :
    match s.flushLoop written with
    | .ok _ (s', n) => s'.buf = s.buf ∧ s'.capacity = s.capacity ∧ n = s.buf.length ∧
        s'.inner.taken ++ s.buf.drop n = bytes
    | .err _ (s', n) => s'.buf = s.buf ∧ s'.capacity = s.capacity ∧
        s'.inner.taken ++ s.buf.drop n = bytes | .panicked (s', _) => s'.panicked := by
  fun_induction flushLoop s written with
  | case1 => rfl
  | case2 s written left inner s' answer ih =>
    refine ih within ?_
    rw [← counted, ← (Sink.write_err answer).1]
  | case3 s written left kind inner answer s' _ =>
    refine ⟨rfl, rfl, ?_⟩
    rw [← counted, ← (Sink.write_err answer).1]
  | case4 s written left inner s' answer =>
    refine ⟨rfl, rfl, ?_⟩
    rw [← counted, (Sink.write_ok answer).2.1, take_zero, append_nil]
  | case5 s written left n inner answer s' _ ih =>
    obtain ⟨short, taken, -⟩ := Sink.write_ok answer
    rw [length_drop] at short
    have more : written + n ≤ s'.buf.length := by
      have : s'.buf.length = s.buf.length := rfl
      omega
    refine ih more ?_
    rw [← counted, taken, append_assoc, ← drop_drop, take_append_drop]
  | case6 s written done =>
    exact ⟨rfl, rfl, by omega, counted⟩

variable {s : Writer} {capacity : Nat} {bytes : List UInt8}

lemma flushBuf_ends (holds : Holds capacity bytes s) :
    Ends (fun _ s' => Holds capacity bytes s' ∧ s'.buf = []) (Holds capacity bytes)
      s.flushBuf := by
  have loop := flushLoop_ends bytes (Nat.zero_le s.buf.length) holds.written
  rw [flushBuf]
  cases answer : s.flushLoop 0 with
  | ok a after =>
    rw [answer] at loop
    obtain ⟨same, cap, all, rest⟩ := loop
    have empty : after.1.buf.drop after.2 = [] := by rw [same, all, drop_length]
    refine ⟨⟨?_, ?_, cap.trans holds.kept⟩, empty⟩
    · show after.1.inner.taken ++ after.1.buf.drop after.2 = bytes
      rw [same, rest]
    · simp only [empty, length_nil, zero_le]
  | err kind after =>
    rw [answer] at loop
    obtain ⟨same, cap, rest⟩ := loop
    refine ⟨?_, ?_, cap.trans holds.kept⟩
    · show after.1.inner.taken ++ after.1.buf.drop after.2 = bytes
      rw [same, rest]
    · show (after.1.buf.drop after.2).length ≤ capacity
      have := holds.bound
      rw [same, length_drop]
      omega
  | panicked after =>
    rw [answer] at loop
    exact .inl loop

lemma drop_quiet (quiet : Quiet s) : s.drop = s.inner := by
  rw [drop]
  rcases quiet with panicked | empty
  · rw [if_pos panicked]
  · have loop : s.flushLoop 0 = .ok () (s, 0) := by
      rw [flushLoop, dif_neg (by simp [empty])]
    rw [flushBuf, loop]
    simp [Outcome.mapState, Outcome.state]

end Writer

namespace Writer

variable {s : Writer} {capacity : Nat} {bytes : List UInt8}

/-- The call has accepted the first `n` bytes of `input`. -/
def Took (capacity : Nat) (bytes input : List UInt8) (n : Nat) (s : Writer) : Prop :=
  n ≤ input.length ∧ Holds capacity (bytes ++ input.take n) s

lemma Holds.tookFirst {done : List UInt8} (holds : Holds capacity (bytes ++ done) s)
    (rest : List UInt8) : Took capacity bytes (done ++ rest) done.length s := by
  constructor
  · rw [length_append]
    omega
  · rwa [take_left]

/-- Either `len` more bytes fit or the buffer is empty. -/
def Room (len : Nat) (s : Writer) : Prop := s.buf.length + len ≤ s.capacity ∨ s.buf = []

section
variable (holds : Holds capacity bytes s)
include holds

lemma Holds.extend {buf : List UInt8} (fits : s.buf.length + buf.length ≤ capacity) :
    Holds capacity (bytes ++ buf) (s.extend buf) := by
  constructor
  · rw [Writer.extend, ← append_assoc, holds.written]
  · rw [Writer.extend, length_append]
    exact fits
  · exact holds.kept

/-- With an empty buffer what the inner writer takes follows what was there. -/
lemma Holds.took (empty : s.buf = []) {w : Sink}
    {added : List UInt8} (taken : w.taken = s.inner.taken ++ added) (flag : Bool) :
    Holds capacity (bytes ++ added) { s with inner := w, panicked := flag } := by
  have before : s.inner.taken = bytes := by
    simpa only [empty, append_nil] using holds.written
  constructor
  · simp only [empty, append_nil, taken, before]
  · exact holds.bound
  · exact holds.kept

lemma Holds.fail (empty : s.buf = []) {w : Sink} (taken : w.taken = s.inner.taken) (flag : Bool) :
    Holds capacity bytes { s with inner := w, panicked := flag } := by
  have none : w.taken = s.inner.taken ++ [] := by rw [taken, append_nil]
  simpa only [append_nil] using holds.took empty none flag

lemma makeRoom_ends (len : Nat) :
    Ends (fun _ s' => Holds capacity bytes s' ∧ Room len s') (Holds capacity bytes)
      (s.makeRoom len) := by
  rw [makeRoom]
  split
  · exact (flushBuf_ends holds).mono (fun _ _ h => ⟨h.1, .inr h.2⟩) fun _ h => h
  · exact ⟨holds, .inl (by omega)⟩

end

lemma Room.empty {len : Nat} (room : Room len s) (large : s.capacity ≤ len) : s.buf = [] := by
  rcases room with fits | empty
  · exact eq_nil_of_length_eq_zero (by omega)
  · exact empty

lemma Room.fits {len : Nat} (room : Room len s) (small : len < s.capacity) :
    s.buf.length + len ≤ s.capacity := by
  rcases room with fits | empty
  · exact fits
  · rw [empty, length_nil]
    omega

section
variable (holds : Holds capacity bytes s)
include holds

lemma guardedWrite_ends (empty : s.buf = []) (buf : List UInt8) :
    Ends (Took capacity bytes buf) (Holds capacity bytes) (s.guarded (·.write buf)) := by
  apply Ends.guarded
  · intro n w answer
    obtain ⟨short, taken, -⟩ := Sink.write_ok answer
    exact ⟨short, holds.took empty taken false⟩
  · intro kind w answer
    exact holds.fail empty (Sink.write_err answer).1 false

lemma write_ends (buf : List UInt8) :
    Ends (Took capacity bytes buf) (Holds capacity bytes) (s.write buf) := by
  apply (makeRoom_ends holds buf.length).bind
  rintro - s ⟨holds, room⟩
  split
  next large =>
    exact guardedWrite_ends holds (room.empty large) buf
  · have fits := room.fits (by omega)
    rw [holds.kept] at fits
    refine ⟨le_rfl, ?_⟩
    rw [take_length]
    exact holds.extend fits

/-- After `write_all`: all bytes, or for an error some first ones. -/
lemma writeAll_ends (buf : List UInt8) : Ends (fun _ => Holds capacity (bytes ++ buf))
      (fun s' => ∃ part, part <+: buf ∧ Holds capacity (bytes ++ part) s') (s.writeAll buf) := by
  have room := (makeRoom_ends holds buf.length).mono (fun _ _ h => h) fun s' (h : Holds _ _ s') =>
    (⟨[], nil_prefix, by rwa [append_nil]⟩ :
      ∃ part, part <+: buf ∧ Holds capacity (bytes ++ part) s')
  apply room.bind
  rintro - s ⟨holds, room⟩
  split
  next large =>
    apply Ends.guarded
    · intro a w answer
      exact holds.took (room.empty large) ((Sink.writeAll_ends _ _).1 a w answer) false
    · intro kind w answer
      obtain ⟨part, leads, taken⟩ := (Sink.writeAll_ends _ _).2 kind w answer
      exact ⟨part, leads, holds.took (room.empty large) taken false⟩
  · have fits := room.fits (by omega)
    rw [holds.kept] at fits
    exact holds.extend fits

/-- `flush` and `seek`: the inner call takes no bytes. -/
lemma flushThen_ends {α : Type} {call : Sink → Outcome Sink α}
    (takesNone : ∀ w, (call w).state.taken = w.taken) :
    Ends (fun _ => Holds capacity bytes) (Holds capacity bytes)
      (s.flushBuf.bind fun _ s => s.direct call) := by
  apply (flushBuf_ends holds).bind
  rintro - s ⟨holds, empty⟩
  have same := takesNone s.inner
  apply Ends.direct empty
  · intro a w answer
    rw [answer] at same
    exact holds.fail empty same s.panicked
  · intro kind w answer
    rw [answer] at same
    exact holds.fail empty same s.panicked

lemma flush_ends : Ends (fun _ => Holds capacity bytes) (Holds capacity bytes) s.flush :=
  flushThen_ends holds Sink.flush_taken

lemma seek_ends : Ends (fun _ => Holds capacity bytes) (Holds capacity bytes) s.seek :=
  flushThen_ends holds Sink.seek_taken

end

variable {bits : Nat}
variable {bufs : List (List UInt8)}

lemma extendAll_ends (holds : Holds capacity bytes s) (small : capacity < 2 ^ (bits - 1))
    (fits : s.buf.length + (bufs.map length).sum ≤ capacity) :
    Ends (fun _ => Holds capacity (bytes ++ bufs.flatten)) (fun _ => False)
      (s.extendAll bits bufs) := by
  induction bufs generalizing s bytes with
  | nil =>
    rw [flatten_nil, append_nil]
    exact holds
  | cons buf bufs ih =>
    rw [map_cons, sum_cons] at fits
    rw [extendAll, if_neg (by omega), flatten_cons, ← append_assoc]
    apply ih (holds.extend (by omega))
    rw [extend, length_append]
    omega

/-- The loop stops at a slice that does not fit; `done` bytes were buffered before it. -/
lemma extendWhileFits_ends {done : List UInt8} (holds : Holds capacity (bytes ++ done) s) :
    Ends (Took capacity bytes (done ++ bufs.flatten)) (Holds capacity bytes)
      (s.extendWhileFits done.length bufs) := by
  induction bufs generalizing s done with
  | nil => exact holds.tookFirst _
  | cons buf bufs ih =>
    rw [extendWhileFits]
    split
    · exact holds.tookFirst _
    · rw [flatten_cons, ← append_assoc, ← length_append]
      have fits : s.buf.length + buf.length ≤ capacity := by
        have := holds.kept
        omega
      have more := holds.extend fits
      rw [append_assoc] at more
      exact ih more

lemma flatten_dropWhile_isEmpty (bufs : List (List UInt8)) :
    (bufs.dropWhile (·.isEmpty)).flatten = bufs.flatten := by
  induction bufs with
  | nil => rfl
  | cons buf bufs ih => cases buf <;> simp [ih]

lemma totalLen_eq (fits : bufs.flatten.length < 2 ^ bits) :
    totalLen bits bufs = bufs.flatten.length := by
  rw [totalLen, ← length_flatten, Nat.mod_eq_of_lt fits]

/-- The slices given are all that the inner writer can report. -/
lemma guardedWriteVectored_ends (holds : Holds capacity bytes s) (empty : s.buf = [])
    (fits : bufs.flatten.length < 2 ^ bits) :
    Ends (Took capacity bytes bufs.flatten) (Holds capacity bytes)
      (s.guarded (·.writeVectored bits bufs)) := by
  have all : bufs.flatten.take (2 ^ bits - 1) = bufs.flatten := take_of_length_le (by omega)
  simp only [Sink.writeVectored, all]
  exact guardedWrite_ends holds empty bufs.flatten

/-- The buffered bytes and the slices together have a length that is a `usize`. -/
def SumFits (bits : Nat) (bufs : List (List UInt8)) (s : Writer) : Prop :=
  s.inner.isWriteVectored → s.buf.length + bufs.flatten.length < 2 ^ bits

lemma writeVectored_ends (holds : Holds capacity bytes s) (small : capacity < 2 ^ (bits - 1))
    (sumFits : SumFits bits bufs s) :
    Ends (Took capacity bytes bufs.flatten) (Holds capacity bytes)
      (s.writeVectored bits bufs) := by
  rw [writeVectored]
  split
  next vectored =>
    have fits := sumFits vectored
    have total : totalLen bits bufs = bufs.flatten.length := totalLen_eq (by omega)
    simp only [total, Nat.mod_eq_of_lt fits]
    apply (makeRoom_ends holds bufs.flatten.length).bind
    rintro - s ⟨holds, room⟩
    split
    next large =>
      exact guardedWriteVectored_ends holds (room.empty large) (by omega)
    · have within := room.fits (by omega)
      rw [holds.kept, length_flatten] at within
      refine ((extendAll_ends holds small within).mono (fun _ _ h => h) (fun _ h => h.elim)).bind ?_
      rintro - s all
      exact ⟨le_rfl, by rwa [take_length]⟩
  · have pieces := flatten_dropWhile_isEmpty bufs
    split <;> rename_i rest <;> rw [rest] at pieces
    · exact ⟨Nat.zero_le _, by rwa [take_zero, append_nil]⟩
    next buf bufs' =>
      rw [flatten_cons] at pieces
      rw [← pieces]
      apply (makeRoom_ends holds buf.length).bind
      rintro - s ⟨holds, room⟩
      split
      next large =>
        refine (guardedWrite_ends holds (room.empty large) buf).mono ?_ fun _ h => h
        rintro n s ⟨short, holds⟩
        refine ⟨by rw [length_append]; omega, ?_⟩
        rwa [take_append_of_le_length short]
      · have fits := room.fits (by omega)
        rw [holds.kept] at fits
        exact extendWhileFits_ends (holds.extend fits)

end Writer
end BufWriter
