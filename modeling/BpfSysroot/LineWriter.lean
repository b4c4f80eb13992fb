import BpfSysroot.BufWriter

/-!
# LineWriter and runs of both writers

`LineWriterShim` of `std/src/io/buffered/linewritershim.rs`, which works on the state of
a `BufWriter`, and runs of calls on either writer. Its direct calls of the inner writer
do not set the panic flag; the buffer is empty then.
-/

namespace BufWriter

open List

namespace Writer

def newline : UInt8 := 10

def memrchr (byte : UInt8) (buf : List UInt8) : Option Nat :=
  (buf.reverse.findIdx? (· == byte)).map (buf.length - 1 - ·)

def flushIfCompletedLine (s : Writer) : Outcome Writer Unit :=
  if s.buf.getLast? = some newline then s.flushBuf else .ok () s

/-- What is buffered of `buf` after the inner writer took `flushed` bytes of its first
`newlineIdx`. -/
def lineTail (capacity : Nat) (buf : List UInt8) (newlineIdx flushed : Nat) : List UInt8 :=
  if newlineIdx ≤ flushed then buf.drop flushed
  else if newlineIdx - flushed ≤ capacity then (buf.take newlineIdx).drop flushed
  else
    -- the slice is in range, as more than `capacity` bytes are left
    let scanArea := (buf.drop flushed).take capacity
    match memrchr newline scanArea with
    | some newlineIdx => scanArea.take (newlineIdx + 1)
    | none => scanArea

def lineWrite (s : Writer) (buf : List UInt8) : Outcome Writer Nat :=
  match memrchr newline buf with
  | none => s.flushIfCompletedLine.bind fun _ s => s.write buf
  | some i =>
    s.flushBuf.bind fun _ s =>
      (s.direct (·.write (buf.take (i + 1)))).bind fun flushed s =>
        if flushed = 0 then .ok 0 s
        else
          let (buffered, s) := s.writeToBuf (lineTail s.capacity buf (i + 1) flushed)
          .ok (flushed + buffered) s

/-- The index of the last slice with a newline. -/
def lastNewlineBufIdx (bufs : List (List UInt8)) : Option Nat :=
  bufs.zipIdx.reverse.findSome? fun (buf, i) => (buf.findIdx? (· == newline)).map fun _ => i

/-- `map(write_to_buf).take_while(n > 0).sum()`: the iterator stops at the first slice of
which nothing was buffered. -/
def bufferWhile (s : Writer) : List (List UInt8) → Nat × Writer
  | [] => (0, s)
  | buf :: bufs =>
    let (n, s') := s.writeToBuf buf
    if 0 < n then
      let (m, s'') := bufferWhile s' bufs
      (n + m, s'')
    else (0, s')

def lineWriteVectored (bits : Nat) (s : Writer) (bufs : List (List UInt8)) : Outcome Writer Nat :=
  if !s.inner.isWriteVectored then
    match bufs.find? (!·.isEmpty) with
    | some buf => s.lineWrite buf
    | none => .ok 0 s
  else
    match lastNewlineBufIdx bufs with
    | none => s.flushIfCompletedLine.bind fun _ s => s.writeVectored bits bufs
    | some i =>
      s.flushBuf.bind fun _ s =>
        (s.direct (·.writeVectored bits (bufs.take (i + 1)))).bind fun flushed s =>
          if flushed = 0 then .ok 0 s
          else if flushed < totalLen bits (bufs.take (i + 1)) then .ok flushed s
          else
            let (buffered, s) := s.bufferWhile ((bufs.drop (i + 1)).filter (!·.isEmpty))
            .ok ((flushed + buffered) % 2 ^ bits) s

def lineWriteAll (s : Writer) (buf : List UInt8) : Outcome Writer Unit :=
  match memrchr newline buf with
  | none => s.flushIfCompletedLine.bind fun _ s => s.writeAll buf
  | some i =>
    let lines := buf.take (i + 1)
    let tail := buf.drop (i + 1)
    (if s.buf.isEmpty then s.direct (·.writeAll lines)
      else (s.writeAll lines).bind fun _ s => s.flushBuf).bind fun _ s => s.writeAll tail

variable {s : Writer} {capacity bits : Nat} {bytes : List UInt8}

lemma flushIfCompletedLine_ends (holds : Holds capacity bytes s) :
    Ends (fun _ s' => Holds capacity bytes s' ∧ s'.buf.length ≤ s.buf.length)
      (Holds capacity bytes) s.flushIfCompletedLine := by
  rw [flushIfCompletedLine]
  split
  · apply (flushBuf_ends holds).mono
    · rintro - s' ⟨holds, empty⟩
      exact ⟨holds, by simp [empty]⟩
    · exact fun _ h => h
  · exact ⟨holds, le_rfl⟩

/-- `write_to_buf` accepts a first part of its input, all of it when it fits. -/
lemma writeToBuf_took (holds : Holds capacity bytes s) (buf : List UInt8) :
    Took capacity bytes buf (s.writeToBuf buf).1 (s.writeToBuf buf).2 ∧
      (s.writeToBuf buf).1 = min (capacity - s.buf.length) buf.length := by
  have bound := holds.bound
  have amount : (s.writeToBuf buf).1 = min (capacity - s.buf.length) buf.length := by
    rw [← holds.kept, writeToBuf]
  refine ⟨⟨by omega, ?_⟩, amount⟩
  apply holds.extend
  rw [length_take]
  omega

/-- What is buffered comes right after what was flushed. -/
lemma lineTail_leads (capacity : Nat) (buf : List UInt8) {newlineIdx flushed : Nat} :
    lineTail capacity buf newlineIdx flushed <+: buf.drop flushed := by
  rw [lineTail]
  split
  · exact prefix_rfl
  · split
    · rw [drop_take]
      exact take_prefix _ _
    · have scan : (buf.drop flushed).take capacity <+: buf.drop flushed := take_prefix _ _
      simp only
      split
      · exact ( take_prefix _ _).trans scan
      · exact scan

lemma Took.widen {input longer : List UInt8} {n : Nat} (took : Took capacity bytes input n s)
    (leads : input <+: longer) : Took capacity bytes longer n s := by
  obtain ⟨short, holds⟩ := took
  obtain ⟨rest, rfl⟩ := leads
  refine ⟨by rw [length_append]; omega, ?_⟩
  rwa [take_append_of_le_length short]

lemma Took.andThen {input tail : List UInt8} {n m : Nat} {s' : Writer}
    (first : Took capacity bytes input n s) (leads : tail <+: input.drop n)
    (second : Took capacity (bytes ++ input.take n) tail m s') :
    Took capacity bytes input (n + m) s' := by
  obtain ⟨short, holds⟩ := second.widen leads
  have within := first.1
  rw [length_drop] at short
  refine ⟨by omega, ?_⟩
  rwa [take_add, ← append_assoc]

lemma directWrite_ends (holds : Holds capacity bytes s) (empty : s.buf = []) (buf : List UInt8) :
    Ends (fun n s' => Took capacity bytes buf n s' ∧ s'.buf = []) (Holds capacity bytes)
      (s.direct (·.write buf)) := by
  apply Ends.direct empty
  · intro n w answer
    obtain ⟨short, taken, -⟩ := Sink.write_ok answer
    exact ⟨⟨short, holds.took empty taken s.panicked⟩, empty⟩
  · intro kind w answer
    exact holds.fail empty (Sink.write_err answer).1 s.panicked

lemma lineWrite_ends (holds : Holds capacity bytes s) (buf : List UInt8) :
    Ends (Took capacity bytes buf) (Holds capacity bytes) (s.lineWrite buf) := by
  rw [lineWrite]
  split
  · apply (flushIfCompletedLine_ends holds).bind
    rintro - s ⟨holds, -⟩
    exact write_ends holds buf
  next i found =>
    apply (flushBuf_ends holds).bind
    rintro - s ⟨holds, empty⟩
    apply (directWrite_ends holds empty (buf.take (i + 1))).bind
    rintro flushed s ⟨took, -⟩
    have flushing : Took capacity bytes buf flushed s := took.widen ( take_prefix _ _)
    split
    next zero =>
      rwa [zero] at flushing
    · exact flushing.andThen (lineTail_leads _ _) (writeToBuf_took flushing.2 _).1

lemma bufferWhile_cons (s : Writer) (buf : List UInt8) (bufs : List (List UInt8)) :
    s.bufferWhile (buf :: bufs) =
      if 0 < (s.writeToBuf buf).1 then
        ((s.writeToBuf buf).1 + ((s.writeToBuf buf).2.bufferWhile bufs).1,
          ((s.writeToBuf buf).2.bufferWhile bufs).2)
      else (0, (s.writeToBuf buf).2) := rfl

variable (holds : Holds capacity bytes s)
include holds

/-- A slice that is buffered only in part leaves no room for the next. -/
lemma bufferWhile_took (bufs : List (List UInt8)) :
    Took capacity bytes bufs.flatten (s.bufferWhile bufs).1 (s.bufferWhile bufs).2 ∧
      (s.bufferWhile bufs).1 ≤ capacity - s.buf.length := by
  induction bufs generalizing s bytes with
  | nil =>
    refine ⟨⟨le_rfl, ?_⟩, Nat.zero_le _⟩
    rwa [flatten_nil, take_nil, append_nil]
  | cons buf bufs ih =>
    obtain ⟨took, amount⟩ := writeToBuf_took holds buf
    have leads : buf <+: (buf :: bufs).flatten := prefix_append _ _
    rw [bufferWhile_cons]
    split
    · obtain ⟨rest, room⟩ := ih took.2
      have grown : (s.writeToBuf buf).2.buf.length = s.buf.length + (s.writeToBuf buf).1 := by
        have := took.1
        simp only [writeToBuf] at this ⊢
        rw [length_append, length_take]
        omega
      constructor
      · refine (took.widen leads).andThen prefix_rfl ?_
        by_cases whole : (s.writeToBuf buf).1 = buf.length
        · rw [whole, take_length] at rest
          rw [flatten_cons, whole, drop_left, take_left]
          exact rest
        · have none : ((s.writeToBuf buf).2.bufferWhile bufs).1 = 0 := by
            omega
          have after := rest.2
          rw [none, take_zero, append_nil] at after
          rw [none]
          refine ⟨Nat.zero_le _, ?_⟩
          rw [take_zero, append_nil, flatten_cons, take_append_of_le_length took.1]
          exact after
      · omega
    · have none : (s.writeToBuf buf).1 = 0 := by omega
      rw [none] at took
      exact ⟨took.widen leads, Nat.zero_le _⟩

lemma lineWriteAll_ends (buf : List UInt8) : Ends (fun _ => Holds capacity (bytes ++ buf))
      (fun s' => ∃ part, part <+: buf ∧ Holds capacity (bytes ++ part) s')
      (s.lineWriteAll buf) := by
  have kept {s' : Writer} (h : Holds capacity bytes s') :
      ∃ part, part <+: buf ∧ Holds capacity (bytes ++ part) s' :=
    ⟨[], nil_prefix, by rwa [append_nil]⟩
  rw [lineWriteAll]
  split
  · refine ((flushIfCompletedLine_ends holds).mono (fun _ _ h => h) fun _ h => kept h).bind ?_
    rintro - s ⟨holds, -⟩
    exact writeAll_ends holds buf
  next i found =>
    -- both branches write the lines and leave the buffer empty, or fail within the lines
    have lines : Ends (fun _ => Holds capacity (bytes ++ buf.take (i + 1)))
        (fun s' => ∃ part, part <+: buf.take (i + 1) ∧ Holds capacity (bytes ++ part) s')
        (if s.buf.isEmpty then s.direct (·.writeAll (buf.take (i + 1)))
          else (s.writeAll (buf.take (i + 1))).bind fun _ s => s.flushBuf) := by
      split
      next none =>
        have empty : s.buf = [] := isEmpty_iff.mp none
        apply Ends.direct empty
        · intro a w answer
          exact holds.took empty ((Sink.writeAll_ends _ _).1 a w answer) s.panicked
        · intro kind w answer
          obtain ⟨part, leads, taken⟩ := (Sink.writeAll_ends _ _).2 kind w answer
          exact ⟨part, leads, holds.took empty taken s.panicked⟩
      · apply (writeAll_ends holds _).bind
        intro _ s all
        exact (flushBuf_ends all).mono (fun _ _ h => h.1) fun _ h => ⟨_, prefix_rfl, h⟩
    apply Ends.bind
    · apply lines.mono (fun _ _ h => h)
      rintro s' ⟨part, leads, all⟩
      exact ⟨part, leads.trans ( take_prefix _ _), all⟩
    · intro _ s all
      apply (writeAll_ends all (buf.drop (i + 1))).mono
      · intro _ s' whole
        rwa [append_assoc, take_append_drop] at whole
      · rintro s' ⟨part, leads, whole⟩
        rw [append_assoc] at whole
        refine ⟨_, ?_, whole⟩
        have rejoined := (prefix_append_right_inj (buf.take (i + 1))).mpr leads
        rwa [take_append_drop] at rejoined

/-- No sum that is taken is beyond a `usize`: of the lines and what is buffered after
them, or without a newline as in `BufWriter`. -/
def LineSumFits (bits : Nat) (bufs : List (List UInt8)) (s : Writer) : Prop :=
  s.inner.isWriteVectored →
    match lastNewlineBufIdx bufs with
    | none => s.buf.length + bufs.flatten.length < 2 ^ bits
    | some i => (bufs.take (i + 1)).flatten.length +
        min s.capacity (bufs.drop (i + 1)).flatten.length < 2 ^ bits

/-- With a newline: the lines directly, and when all of them are taken what fits of the rest. -/
lemma linesThenTail_ends {bufs : List (List UInt8)} {i : Nat}
    (fits : (bufs.take (i + 1)).flatten.length +
      min s.capacity (bufs.drop (i + 1)).flatten.length < 2 ^ bits) :
    Ends (Took capacity bytes bufs.flatten) (Holds capacity bytes)
      (s.flushBuf.bind fun _ s =>
        (s.direct (·.writeVectored bits (bufs.take (i + 1)))).bind fun flushed s =>
          if flushed = 0 then .ok 0 s
          else if flushed < totalLen bits (bufs.take (i + 1)) then .ok flushed s
          else
            let (buffered, s) := s.bufferWhile ((bufs.drop (i + 1)).filter (!·.isEmpty))
            .ok ((flushed + buffered) % 2 ^ bits) s) := by
  rw [holds.kept] at fits
  have parts : bufs.flatten = (bufs.take (i + 1)).flatten ++ (bufs.drop (i + 1)).flatten := by
    rw [← flatten_append, take_append_drop]
  generalize bufs.take (i + 1) = lines at fits parts ⊢
  generalize bufs.drop (i + 1) = tail at fits parts ⊢
  have total : totalLen bits lines = lines.flatten.length := totalLen_eq (by omega)
  have reported : lines.flatten.take (2 ^ bits - 1) = lines.flatten := take_of_length_le (by omega)
  apply (flushBuf_ends holds).bind
  rintro - s ⟨holds, empty⟩
  simp only [Sink.writeVectored, reported, total]
  apply (directWrite_ends holds empty lines.flatten).bind
  rintro flushed s ⟨took, -⟩
  have flushing : Took capacity bytes bufs.flatten flushed s :=
    took.widen (parts ▸ prefix_append _ _)
  split
  next zero =>
    rwa [zero] at flushing
  split
  · exact flushing
  · have all : flushed = lines.flatten.length := by
      have := took.1
      omega
    obtain ⟨buffering, room⟩ := bufferWhile_took flushing.2 (tail.filter (!·.isEmpty))
    rw [flatten_filter_not_isEmpty] at buffering
    have short := buffering.1
    rw [Nat.mod_eq_of_lt (by omega)]
    refine flushing.andThen ?_ buffering
    rw [parts, all, drop_left]

lemma lineWriteVectored_ends {bufs : List (List UInt8)}
    (small : capacity < 2 ^ (bits - 1)) (sumFits : LineSumFits bits bufs s) :
    Ends (Took capacity bytes bufs.flatten) (Holds capacity bytes)
      (s.lineWriteVectored bits bufs) := by
  rw [lineWriteVectored]
  split
  · split
    next buf found =>
      obtain ⟨-, before, after, rfl, allEmpty⟩ := find?_eq_some_iff_append.mp found
      have none : before.flatten = [] := by
        rw [flatten_eq_nil_iff]
        intro piece member
        simpa using allEmpty piece member
      have leads : buf <+: (before ++ buf :: after).flatten := by
        rw [flatten_append, none]
        exact prefix_append _ _
      exact (lineWrite_ends holds buf).mono (fun _ _ took => took.widen leads) fun _ h => h
    · exact ⟨Nat.zero_le _, by rwa [take_zero, append_nil]⟩
  next vectored =>
    have fits := sumFits (by simpa using vectored)
    split <;> rename_i found <;> rw [found] at fits
    · apply (flushIfCompletedLine_ends holds).bind
      rintro - s' ⟨holds, shorter⟩
      refine writeVectored_ends holds small fun _ => ?_
      omega
    · exact linesThenTail_ends holds fits

end Writer

inductive Kind where
  | bufWriter
  | lineWriter

/-- The calls of a run; only a `BufWriter` seeks. -/
inductive Call : Kind → Type where
  | write {k : Kind} (buf : List UInt8) : Call k
  | writeAll {k : Kind} (buf : List UInt8) : Call k
  | writeVectored {k : Kind} (bufs : List (List UInt8)) : Call k
  | flush {k : Kind} : Call k
  | seek : Call .bufWriter
  | intoInner {k : Kind} : Call k

inductive Answer where
  | count (n : Nat)
  | done
  | position (n : Nat)
  | inner
  | failed (kind : ErrorKind)

namespace Outcome

def map {σ α β : Type} (f : α → β) : Outcome σ α → Outcome σ β
  | ok a s => ok (f a) s
  | err kind s => err kind s
  | panicked s => panicked s

end Outcome

/-- `into_inner` flushes the buffer; with an error it gives the writer back. -/
def step (bits : Nat) (s : Writer) : {k : Kind} → Call k → Outcome Writer Answer
  | .bufWriter, .write buf => (s.write buf).map .count
  | .lineWriter, .write buf => (s.lineWrite buf).map .count
  | .bufWriter, .writeAll buf => (s.writeAll buf).map fun _ => .done
  | .lineWriter, .writeAll buf => (s.lineWriteAll buf).map fun _ => .done
  | .bufWriter, .writeVectored bufs => (s.writeVectored bits bufs).map .count
  | .lineWriter, .writeVectored bufs => (s.lineWriteVectored bits bufs).map .count
  | _, .flush => s.flush.map fun _ => .done
  | _, .seek => s.seek.map .position
  | _, .intoInner => s.flushBuf.map fun _ => .inner

/-- How a run ends: the writer is still there, `into_inner` has returned its inner
writer, or a panic unwinds with the writer to be dropped. -/
inductive End where
  | live (s : Writer)
  | consumed (s : Writer)
  | unwinding (s : Writer)

def run (bits : Nat) {k : Kind} (s : Writer) : List (Call k) → List Answer × End
  | [] => ([], .live s)
  | call :: calls =>
    match step bits s call with
    | .ok .inner s' => ([.inner], .consumed s')
    | .ok answer s' => let (answers, e) := run bits s' calls; (answer :: answers, e)
    | .err kind s' => let (answers, e) := run bits s' calls; (.failed kind :: answers, e)
    | .panicked s' => ([], .unwinding s')

/-- The bytes a call accepts by its answer. -/
def Accepts {k : Kind} : Call k → Answer → List UInt8 → Prop
  | .write buf, .count n, bytes => n ≤ buf.length ∧ bytes = buf.take n
  | .write _, .failed _, bytes => bytes = []
  | .writeAll buf, .done, bytes => bytes = buf
  | .writeAll buf, .failed _, bytes => bytes <+: buf
  | .writeVectored bufs, .count n, bytes => n ≤ bufs.flatten.length ∧ bytes = bufs.flatten.take n
  | .writeVectored _, .failed _, bytes => bytes = []
  | .flush, .done, bytes | .flush, .failed _, bytes => bytes = []
  | .seek, .position _, bytes | .seek, .failed _, bytes => bytes = []
  | .intoInner, .inner, bytes | .intoInner, .failed _, bytes => bytes = []
  | _, _, _ => False

/-- The bytes that the answered calls of a run accept, in order. -/
inductive Accepted {k : Kind} : List (Call k) → List Answer → List UInt8 → Prop where
  | nil {calls : List (Call k)} : Accepted calls [] []
  | cons {call : Call k} {calls : List (Call k)} {answer : Answer} {answers : List Answer}
      {bytes rest : List UInt8} (first : Accepts call answer bytes)
      (later : Accepted calls answers rest) :
      Accepted (call :: calls) (answer :: answers) (bytes ++ rest)

/-- No byte is lost, doubled or out of order, and nothing is written after a panic. -/
def Accounts {k : Kind} (before : List UInt8) (capacity : Nat) (calls : List (Call k)) :
    List Answer × End → Prop
  | (answers, .live s) | (answers, .consumed s) =>
    ∃ bytes, Accepted calls answers bytes ∧ s.inner.taken ++ s.buf = before ++ bytes ∧
      s.buf.length ≤ capacity
  | (_, .unwinding s) => s.drop = s.inner

/-- The sums a vectored write takes are within a `usize`. -/
def Fits (bits : Nat) (s : Writer) : {k : Kind} → Call k → Prop
  | .bufWriter, .writeVectored bufs => s.SumFits bits bufs
  | .lineWriter, .writeVectored bufs => s.LineSumFits bits bufs
  | _, _ => True

/-- So do those of every step of a run. -/
def AllFit (bits : Nat) {k : Kind} (s : Writer) : List (Call k) → Prop
  | [] => True
  | call :: calls =>
    Fits bits s call ∧
      match step bits s call with
      | .ok .inner _ | .panicked _ => True
      | .ok _ s' | .err _ s' => AllFit bits s' calls

variable {bits capacity : Nat} {bytes : List UInt8} {k : Kind} {s : Writer}
variable {α : Type} {call : Call k} {o : Outcome Writer α} {f : α → Answer} {rest : List UInt8}
  {n : Nat}

/-- What a step leaves: it accepts by its answer, also when that is an error. -/
def StepHolds (capacity : Nat) (bytes : List UInt8) {k : Kind} (call : Call k) :
    Outcome Writer Answer → Prop
  | .ok answer s => ∃ more, Accepts call answer more ∧ s.Holds capacity (bytes ++ more)
  | .err kind s => ∃ more, Accepts call (.failed kind) more ∧ s.Holds capacity (bytes ++ more)
  | .panicked s => s.Quiet

lemma StepHolds.ofEnds {Q : α → Writer → Prop} {E : Writer → Prop} (ends : Writer.Ends Q E o)
    (ok : ∀ a s, Q a s → ∃ more, Accepts call (f a) more ∧ s.Holds capacity (bytes ++ more))
    (err : ∀ kind s, E s → ∃ more, Accepts call (.failed kind) more ∧
      s.Holds capacity (bytes ++ more)) :
    StepHolds capacity bytes call (o.map f) := by
  cases o with
  | ok a s => exact ok a s ends
  | err kind s => exact err kind s ends
  | panicked s => exact ends

lemma StepHolds.ofTook {input : List UInt8} {o : Outcome Writer Nat}
    (ends : Writer.Ends (Writer.Took capacity bytes input) (Writer.Holds capacity bytes) o)
    (ok : ∀ n ≤ input.length, Accepts call (.count n) (input.take n))
    (err : ∀ kind, Accepts call (.failed kind) []) :
    StepHolds capacity bytes call (o.map .count) := by
  apply StepHolds.ofEnds ends
  · rintro n s ⟨short, holds⟩
    exact ⟨_, ok n short, holds⟩
  · intro kind s holds
    exact ⟨[], err kind, by rwa [append_nil]⟩

lemma StepHolds.ofAll {buf : List UInt8} {o : Outcome Writer Unit}
    (ends : Writer.Ends (fun _ => Writer.Holds capacity (bytes ++ buf))
      (fun s' => ∃ part, part <+: buf ∧ s'.Holds capacity (bytes ++ part)) o) :
    StepHolds capacity bytes (.writeAll (k := k) buf) (o.map fun _ => .done) := by
  apply StepHolds.ofEnds ends
  · intro _ s holds
    exact ⟨buf, rfl, holds⟩
  · rintro kind s ⟨part, leads, holds⟩
    exact ⟨part, leads, holds⟩

lemma StepHolds.ofNone
    (ends : Writer.Ends (fun _ => Writer.Holds capacity bytes) (Writer.Holds capacity bytes) o)
    (ok : ∀ a, Accepts call (f a) []) (err : ∀ kind, Accepts call (.failed kind) []) :
    StepHolds capacity bytes call (o.map f) := by
  apply StepHolds.ofEnds ends
  · intro a s holds
    exact ⟨[], ok a, by rwa [append_nil]⟩
  · intro kind s holds
    exact ⟨[], err kind, by rwa [append_nil]⟩

lemma step_holds (holds : s.Holds capacity bytes) (small : capacity < 2 ^ (bits - 1))
    (call : Call k) (fits : Fits bits s call) :
    StepHolds capacity bytes call (step bits s call) := by
  cases call with
  | write buf =>
    cases k with
    | bufWriter =>
      exact .ofTook (Writer.write_ends holds buf) (fun _ short => ⟨short, rfl⟩) fun _ => rfl
    | lineWriter =>
      exact .ofTook (Writer.lineWrite_ends holds buf) (fun _ short => ⟨short, rfl⟩) fun _ => rfl
  | writeAll buf =>
    cases k with
    | bufWriter => exact .ofAll (Writer.writeAll_ends holds buf)
    | lineWriter => exact .ofAll (Writer.lineWriteAll_ends holds buf)
  | writeVectored bufs =>
    cases k with
    | bufWriter =>
      exact .ofTook (Writer.writeVectored_ends holds small fits) (fun _ short => ⟨short, rfl⟩)
        fun _ => rfl
    | lineWriter =>
      exact .ofTook (Writer.lineWriteVectored_ends holds small fits)
        (fun _ short => ⟨short, rfl⟩) fun _ => rfl
  | flush =>
    cases k <;> exact .ofNone (Writer.flush_ends holds) (fun _ => rfl) fun _ => rfl
  | seek => exact .ofNone (Writer.seek_ends holds) (fun _ => rfl) fun _ => rfl
  | intoInner =>
    have ends := (Writer.flushBuf_ends holds).mono (fun _ _ h => h.1) fun _ h => h
    cases k <;> exact .ofNone ends (fun _ => rfl) fun _ => rfl

lemma Accounts.cons {calls : List (Call k)} {answer : Answer} {more : List UInt8}
    {result : List Answer × End} (first : Accepts call answer more)
    (later : Accounts (bytes ++ more) capacity calls result) :
    Accounts bytes capacity (call :: calls) (answer :: result.1, result.2) := by
  obtain ⟨answers, e⟩ := result
  cases e with
  | live s | consumed s =>
    obtain ⟨rest, accepted, written, bound⟩ := later
    exact ⟨more ++ rest, .cons first accepted, by rw [written, append_assoc], bound⟩
  | unwinding s => exact later

lemma run_accounts (holds : s.Holds capacity bytes) (small : capacity < 2 ^ (bits - 1))
    (calls : List (Call k)) (fit : AllFit bits s calls) :
    Accounts bytes capacity calls (run bits s calls) := by
  induction calls generalizing s bytes with
  | nil =>
    refine ⟨[], .nil, ?_, holds.bound⟩
    rw [holds.written, append_nil]
  | cons call calls ih =>
    obtain ⟨fits, rest⟩ := fit
    have stepped := step_holds holds small call fits
    rw [run]
    split <;> rename_i answer <;> rw [answer] at stepped rest
    · obtain ⟨more, accepts, holds⟩ := stepped
      refine ⟨more ++ [], .cons accepts .nil, ?_, holds.bound⟩
      rw [holds.written, append_nil]
    next s' notInner =>
      obtain ⟨more, accepts, holds⟩ := stepped
      have later : AllFit bits s' calls := by
        split at rest <;> simp_all
      exact .cons accepts (ih holds later)
    · obtain ⟨more, accepts, holds⟩ := stepped
      exact .cons accepts (ih holds rest)
    · exact Writer.drop_quiet stepped

/-- Buffered writing neither loses, doubles nor reorders bytes in a run whose vectored
writes have lengths that add up within a `usize`. -/
theorem writers_account {inner : Sink} (opened : Writer.withCapacity bits capacity inner = some s)
    (calls : List (Call k)) (fit : AllFit bits s calls) :
    Accounts inner.taken capacity calls (run bits s calls) := by
  simp only [Writer.withCapacity, Option.ite_none_right_eq_some, Option.some.injEq] at opened
  obtain ⟨small, rfl⟩ := opened
  refine run_accounts ⟨?_, Nat.zero_le _, rfl⟩ small calls fit
  exact List.append_nil _

/-- A short vectored write with a newline, and one that is interrupted. -/
def twoLines : List (Call .lineWriter) :=
  [.writeVectored [[72, 10], [73, 74, 75]], .writeAll [76, 10]]

theorem writers_account_twoLines :
    ∃ s, Writer.withCapacity 64 2 ⟨[9], [.take 1, .fail .interrupted], true⟩ = some s ∧
      Accounts [9] 2 twoLines (run 64 s twoLines) := by
  have opened : Writer.withCapacity 64 2 ⟨[9], [.take 1, .fail .interrupted], true⟩ =
      some ⟨⟨[9], [.take 1, .fail .interrupted], true⟩, [], 2, false⟩ := rfl
  have sum : 2 + min 2 3 < 2 ^ 64 := by decide
  refine ⟨_, opened, writers_account opened twoLines ⟨fun _ => sum, ?_⟩⟩
  split <;> simp only [AllFit, Fits, true_and]
  all_goals split <;> trivial

/-- Five times one slice that starts with a newline, and a last slice. -/
def overlapping (rest : List UInt8) : List (List UInt8) :=
  replicate 5 (10 :: rest) ++ [[7]]

/-- When five times `n` is `n` as a `usize`, the first `n` bytes pass for all the lines. -/
lemma run_overlapping (len : rest.length + 1 = n) (wraps : 5 * n % 2 ^ 32 = n) :
    run 32 (k := .lineWriter) ⟨⟨[], [.take n], true⟩, [], 8, false⟩
        [.writeVectored (overlapping rest)] =
      ([.count (n + 1)], .live ⟨⟨10 :: rest, [], true⟩, [7], 8, false⟩) := by
  have len : (10 :: rest).length = n := len
  have last : Writer.lastNewlineBufIdx (overlapping rest) = some 4 := by
    simp [Writer.lastNewlineBufIdx, overlapping, replicate, Writer.newline, zipIdx, findIdx?_cons]
  have lines : (overlapping rest).take 5 = replicate 5 (10 :: rest) := take_left' length_replicate
  have tail : (overlapping rest).drop 5 = [[7]] := drop_left' length_replicate
  have total : Writer.totalLen 32 (replicate 5 (10 :: rest)) = n := by
    rw [Writer.totalLen, map_replicate, sum_replicate_nat, len, wraps]
  have first : ((replicate 5 (10 :: rest)).flatten.take (2 ^ 32 - 1)).take n = 10 :: rest := by
    rw [take_take, min_eq_left (by omega), replicate_succ, flatten_cons, take_left' len]
  have taken : Sink.writeVectored 32 ⟨[], [.take n], true⟩ (replicate 5 (10 :: rest)) =
      .ok n ⟨10 :: rest, [], true⟩ := by
    have reported :
        min n ((replicate 5 (10 :: rest)).flatten.take (2 ^ 32 - 1)).length = n := by
      rw [length_take, length_flatten, map_replicate, sum_replicate_nat]
      omega
    simp only [Sink.writeVectored, Sink.write, Sink.mood, Sink.accept, first, reported, nil_append]
  have emptied : Writer.flushBuf ⟨⟨[], [.take n], true⟩, [], 8, false⟩ =
      .ok () ⟨⟨[], [.take n], true⟩, [], 8, false⟩ := by
    rw [Writer.flushBuf, Writer.flushLoop]
    rfl
  have some : n ≠ 0 := by
    rw [← len]
    simp
  have buffered : Writer.bufferWhile ⟨⟨10 :: rest, [], true⟩, [], 8, false⟩
      ([[7]].filter (!·.isEmpty)) = (1, ⟨⟨10 :: rest, [], true⟩, [7], 8, false⟩) := rfl
  have count : (n + 1) % 2 ^ 32 = n + 1 := Nat.mod_eq_of_lt (by omega)
  simp only [run, step, Writer.lineWriteVectored, last, emptied, Outcome.bind, Writer.direct, lines,
    taken, total, tail, Outcome.mapState, some, buffered, count, Bool.not_true, lt_irrefl,
    Bool.false_eq_true, if_false, Outcome.map]

/-- The last slice follows the first `n` bytes, where another newline should. -/
lemma overlapping_unaccounted (len : rest.length + 1 = n) (wraps : 5 * n % 2 ^ 32 = n) :
    ¬ Accounts (k := .lineWriter) [] 8 [.writeVectored (overlapping rest)]
      (run 32 (k := .lineWriter) ⟨⟨[], [.take n], true⟩, [], 8, false⟩
        [.writeVectored (overlapping rest)]) := by
  rw [run_overlapping len wraps]
  rintro ⟨bytes, accepted, written, -⟩
  cases accepted with
  | cons first later =>
    obtain ⟨-, rfl⟩ := first
    have head : (overlapping rest).flatten.take (n + 1) = (10 :: rest) ++ [10] := by
      rw [overlapping, replicate_succ, cons_append, flatten_cons, ← len,
        ← length_cons, take_length_add_append]
      rfl
    rw [head] at written
    simp at written

/-- Five times 1 GiB on a 32-bit target: 1 GiB is written, then the last slice buffered, and
the 4 GiB between are lost, though the answer is 1 GiB and one byte. -/
theorem overlapping_slices_lost :
    ∃ s, Writer.withCapacity 32 8 ⟨[], [.take (2 ^ 30)], true⟩ = some s ∧
      ¬ Accounts (k := .lineWriter) [] 8
        [.writeVectored (overlapping (replicate (2 ^ 30 - 1) 0))]
        (run 32 (k := .lineWriter) s
          [.writeVectored (overlapping (replicate (2 ^ 30 - 1) 0))]) := by
  have len : (replicate (2 ^ 30 - 1) (0 : UInt8)).length + 1 = 2 ^ 30 := by
    rw [length_replicate, Nat.sub_add_cancel Nat.one_le_two_pow]
  exact ⟨_, rfl, overlapping_unaccounted len (by decide)⟩

end BufWriter
