import BpfSysroot.Unwinding
import BpfSysroot.VecDequeDrain

/-!
# Splicing a vector

`Vec::splice` drains a range and, when dropped, writes the replacement into the gap:
first into the place of the range, then into room for as many items as the iterator
announces, then into room for what it really still has. What is left of the gap is
closed by the drop of the draining iterator. A slot is `none` while it has not been
written; elements that were moved out stay in their slots.
-/

namespace VecSplice

open SliceMemory List Option
open VecDeque (Bound assertLen accepts assertLen_eq)
open DoubleEnded (handed nthByNext ofEnd replies stateAfter)

variable {T : Type}

structure Vec (T : Type) where
  mem : List (Option T)
  len : Nat

structure Drain (T : Type) where
  tailStart : Nat
  tailLen : Nat
  front : Nat
  back : Nat
  vec : Vec T

def Vec.write (v : Vec T) (i : Nat) (x : T) : Option (Vec T) :=
  (Unwinding.write v.mem i (some x)).map fun mem => { v with mem }

/-- `RawVec::reserve`, which succeeds; `slack` is what it takes beyond the need. -/
def Vec.reserve (slack : Nat → Nat) (v : Vec T) (used additional : Nat) : Vec T :=
  if v.mem.length - used < additional then
    { v with mem := v.mem ++
      replicate (used + additional - v.mem.length + slack (used + additional)) none }
  else v

/-- Writes an element behind the others, into memory that must be there. -/
def Vec.writeNext (v : Vec T) (x : T) : Option (Vec T) := do
  let v ← v.write v.len x
  return { v with len := v.len + 1 }

/-- The items of an iterator, with the lower bounds it reports. -/
def Vec.extendDesugared (slack : Nat → Nat) (hint : List T → Nat) :
    Vec T → List T → Option (Vec T)
  | v, [] => some v
  | v, x :: items => do
    let v := if v.len = v.mem.length then v.reserve slack v.len (hint items + 1) else v
    let v ← v.writeNext x
    Vec.extendDesugared slack hint v items

/-- `spec_extend`. A `TrustedLen` iterator gives an upper bound, and memory is reserved once. -/
def Vec.extend (slack : Nat → Nat) (hint : List T → Nat) (upper : List T → Option Nat) (v : Vec T)
    (items : List T) : Option (Vec T) :=
  match upper items with
  | some additional => items.foldlM Vec.writeNext (v.reserve slack v.len additional)
  | none => v.extendDesugared slack hint items

def Vec.drain (v : Vec T) (first last : Bound) : Option (Drain T) :=
  match assertLen first last v.len with
  | .ok (start, stop) => some {
      tailStart := stop
      tailLen := v.len - stop
      front := start
      back := stop
      vec := { v with len := start } }
  | _ => none

namespace Drain

section
variable (d : Drain T)

def next : Option (Option T × Drain T) :=
  if d.front = d.back then some (none, d)
  else do
    let x ← d.vec.mem[d.front]?.join
    return (some x, { d with front := d.front + 1 })

def nextBack : Option (Option T × Drain T) :=
  if d.front = d.back then some (none, d)
  else do
    let x ← d.vec.mem[d.back - 1]?.join
    return (some x, { d with back := d.back - 1 })

def call : DoubleEnded.Call → Option (Option T × Drain T)
  | .next => d.next
  | .nextBack => d.nextBack
  | .nth n => nthByNext next n d
  | .nthBack n => nthByNext nextBack n d

/-- `for_each(drop)`, with the elements that it drops. -/
def dropRest : Nat → Drain T → Option (List T × Drain T)
  | 0, _ => none
  | fuel + 1, d => do
    match ← d.next with
    | (none, d) => return ([], d)
    | (some x, d) =>
      let (dropped, d) ← dropRest fuel d
      return (x :: dropped, d)

/-- `DropGuard::drop` after its loop: moves back the tail. -/
def restore : Option (Vec T) :=
  if d.tailLen > 0 then do
    let mem ← if d.tailStart ≠ d.vec.len then copy d.vec.mem d.tailStart d.vec.len d.tailLen
      else some d.vec.mem
    return { mem, len := d.vec.len + d.tailLen }
  else some d.vec

/-- `Drop for Drain`, with the elements that it drops. -/
def drop : Option (List T × Vec T) := do
  let (dropped, d) ← d.dropRest (d.back - d.front + 1)
  let v ← d.restore
  return (dropped, v)

/-- The loop over the gap. -/
def fillLoop : Nat → Vec T → List T → Option (Bool × Vec T × List T)
  | 0, v, items => some (true, v, items)
  | _ + 1, v, [] => some (false, v, [])
  | count + 1, v, x :: items => do
    fillLoop count (← v.writeNext x) items

def fill (items : List T) : Option (Bool × Drain T × List T) :=
  if d.vec.len ≤ d.tailStart then do
    let (filled, vec, items) ← fillLoop (d.tailStart - d.vec.len) d.vec items
    return (filled, { d with vec }, items)
  else none

end

variable (slack : Nat → Nat)

def moveTail (d : Drain T) (additional : Nat) : Option (Drain T) := do
  let vec := d.vec.reserve slack (d.tailStart + d.tailLen) additional
  let newTailStart := d.tailStart + additional
  let mem ← copy vec.mem d.tailStart newTailStart d.tailLen
  return { d with vec := { vec with mem }, tailStart := newTailStart }

/-- The end of `Drop for Splice`, after the second round. -/
def fillCollected (d : Drain T) (collected : List T) : Option (Drain T) :=
  if collected.length > 0 then do
    let d ← d.moveTail slack collected.length
    let (_, d, _) ← d.fill collected
    return d
  else some d

/-- The rounds of `Drop for Splice` from the first `fill` on. -/
def fillRounds (hint : List T → Nat) (d : Drain T) (items : List T) : Option (Drain T) := do
  let (filled, d, items) ← d.fill items
  if filled then
    if hint items > 0 then
      let d ← d.moveTail slack (hint items)
      let (filled, d, items) ← d.fill items
      if filled then d.fillCollected slack items else return d
    else d.fillCollected slack items
  else return d

/-- What `Drop for Splice` does after it has exhausted the `Drain`. -/
def replace (hint : List T → Nat) (upper : List T → Option Nat) (d : Drain T) (items : List T) :
    Option (Drain T) :=
  if d.tailLen = 0 then (d.vec.extend slack hint upper items).map fun vec => { d with vec }
  else d.fillRounds slack hint items

end Drain

/-- `Drop for Splice` and the drop of its `Drain`; also the elements of the range it drops. -/
def dropSplice (slack : Nat → Nat) (hint : List T → Nat) (upper : List T → Option Nat)
    (d : Drain T) (items : List T) : Option (List T × Vec T) := do
  let (dropped, d) ← d.dropRest (d.back - d.front + 1)
  let d ← d.replace slack hint upper items
  let (later, v) ← d.drop
  return (dropped ++ later, v)

/-- The vector has the elements `l`. -/
def Vec.Holds (v : Vec T) (l : List T) : Prop :=
  v.len = l.length ∧ ∃ free, v.mem = l.map some ++ free

/-- A drained range, of which the iterator has still to give `left`. -/
structure Drain.Draining (d : Drain T) (pre left suf : List T) : Prop where
  slots : ∃ given givenBack free, d.vec.mem =
      pre.map some ++ given ++ left.map some ++ givenBack ++ suf.map some ++ free ∧
    d.front = pre.length + given.length ∧
    d.tailStart = pre.length + given.length + left.length + givenBack.length
  back : d.back = d.front + left.length
  len : d.vec.len = pre.length
  tailLen : d.tailLen = suf.length

/-- A gap between what is written and the tail, after the end of the iterator. -/
structure Drain.Open (d : Drain T) (written suf : List T) (gap : Nat) : Prop where
  exhausted : d.front = d.back
  slots : ∃ between free, d.vec.mem = written.map some ++ between ++ suf.map some ++ free ∧
    between.length = gap
  len : d.vec.len = written.length
  tailStart : d.tailStart = written.length + gap
  tailLen : d.tailLen = suf.length

lemma Vec.Holds.drain {v : Vec T} {l : List T} (h : v.Holds l) {first last : Bound}
    (accepted : accepts first last l.length) : ∃ d, v.drain first last = some d ∧
      d.Draining (l.take first.start) ((l.take (last.stop l.length)).drop first.start)
        (l.drop (last.stop l.length)) := by
  obtain ⟨len, free, mem⟩ := h
  obtain ⟨ordered, inside⟩ := accepted
  have whole : l.take first.start ++ (l.take (last.stop l.length)).drop first.start ++
      l.drop (last.stop l.length) = l := by
    have front : l.take first.start = (l.take (last.stop l.length)).take first.start := by
      rw [take_take, min_eq_left ordered]
    rw [front, take_append_drop, take_append_drop]
  rw [Vec.drain, len, assertLen_eq, if_pos ⟨ordered, inside⟩]
  refine ⟨_, rfl, ⟨[], [], free, ?_, ?_, ?_⟩, ?_, ?_, ?_⟩
  · rw [mem, append_nil, append_nil, ← map_append, ← map_append, whole]
  all_goals simp
  all_goals omega

namespace Drain
variable {d : Drain T} {pre left suf written : List T} {gap : Nat}

lemma Draining.next (h : d.Draining pre left suf) :
    ∃ d', d.next = some (left.head?, d') ∧ d'.Draining pre left.tail suf := by
  obtain ⟨⟨given, givenBack, free, mem, front, tailStart⟩, back, len, tailLen⟩ := h
  rw [Drain.next]
  cases left with
  | nil =>
    rw [if_pos (by simpa using back.symm)]
    exact ⟨d, rfl, ⟨given, givenBack, free, mem, front, tailStart⟩, back, len, tailLen⟩
  | cons x left =>
    have read : d.vec.mem[d.front]? = some (some x) := by
      rw [mem, front]
      simp
    rw [if_neg (by simp at back; omega), read]
    refine ⟨_, rfl, ⟨given ++ [some x], givenBack, free, ?_, ?_, ?_⟩, ?_, len, tailLen⟩
    all_goals simp at *
    all_goals omega

lemma Draining.nextBack (h : d.Draining pre left suf) :
    ∃ d', d.nextBack = some (left.getLast?, d') ∧ d'.Draining pre left.dropLast suf := by
  obtain ⟨⟨given, givenBack, free, mem, front, tailStart⟩, back, len, tailLen⟩ := h
  rw [Drain.nextBack]
  rcases eq_nil_or_concat' left with rfl | ⟨left, x, rfl⟩
  · rw [if_pos (by simpa using back.symm)]
    exact ⟨d, rfl, ⟨given, givenBack, free, mem, front, tailStart⟩, back, len, tailLen⟩
  · have cut : d.vec.mem = pre.map some ++ given ++ left.map some ++
        some x :: (givenBack ++ suf.map some ++ free) := by
      rw [mem]
      simp
    have place : d.back - 1 = (pre.map some ++ given ++ left.map some).length := by
      simp [back, front]
      omega
    have read : d.vec.mem[d.back - 1]? = some (some x) := by
      rw [cut, place]
      simp
    rw [if_neg (by simp at back; omega), read, getLast?_concat]
    refine ⟨{ d with back := d.back - 1 }, rfl, ⟨given, some x :: givenBack, free, ?_, front, ?_⟩,
      ?_, len, tailLen⟩
    · simpa using cut
    · simp at tailStart ⊢
      omega
    · simp at back ⊢
      omega

lemma follows (pre suf : List T) :
    DoubleEnded.Follows call fun d left => d.Draining pre left suf := by
  intro request d left draining
  cases request with
  | next => exact draining.next
  | nextBack => exact draining.nextBack
  | nth n =>
    exact DoubleEnded.nthByNext_eq Drain.next (fun d left => d.Draining pre left suf)
      (fun draining => draining.next) n draining
  | nthBack n =>
    exact DoubleEnded.nthByNext_back Drain.nextBack (fun d left => d.Draining pre left suf)
      (fun draining => draining.nextBack) n draining

lemma Draining.dropRest (fuel : Nat) : ∀ {d : Drain T} {left : List T}, left.length < fuel →
    d.Draining pre left suf →
    ∃ d', Drain.dropRest fuel d = some (left, d') ∧ d'.Draining pre [] suf := by
  induction fuel with
  | zero =>
    omega
  | succ fuel ih =>
    intro d left enough draining
    obtain ⟨d', called, draining'⟩ := draining.next
    rw [Drain.dropRest, called]
    cases left with
    | nil => exact ⟨d', rfl, draining'⟩
    | cons x left =>
      obtain ⟨d'', rest, draining''⟩ := ih (by simpa using enough) draining'
      refine ⟨d'', ?_, draining''⟩
      simp [rest]

lemma Draining.opened (h : d.Draining pre [] suf) : ∃ gap, d.Open pre suf gap := by
  obtain ⟨⟨given, givenBack, free, mem, front, tailStart⟩, back, len, tailLen⟩ := h
  refine ⟨given.length + givenBack.length, by simpa using back.symm,
    ⟨given ++ givenBack, free, ?_, by simp⟩, len, ?_, tailLen⟩
  · rw [mem]
    simp
  · simp at tailStart
    omega

lemma writeNext_eq {v : Vec T} {written : List T} {slot : Option T} {rest : List (Option T)}
    (mem : v.mem = written.map some ++ slot :: rest) (len : v.len = written.length) (x : T) :
    v.writeNext x = some ⟨(written ++ [x]).map some ++ rest, v.len + 1⟩ := by
  have wrote := Unwinding.write_middle (written.map some) rest slot (some x)
  rw [length_map] at wrote
  rw [Vec.writeNext, Vec.write, mem, len, wrote]
  simp

lemma fillLoop_spec (gap : Nat) : ∀ (v : Vec T) (written : List T)
    (between rest : List (Option T)) (items : List T),
      v.mem = written.map some ++ between ++ rest → between.length = gap →
      v.len = written.length →
      ∃ v', fillLoop gap v items = some (decide (gap ≤ items.length), v', items.drop gap) ∧
        v'.mem = (written ++ items.take gap).map some ++ between.drop items.length ++ rest ∧
        v'.len = (written ++ items.take gap).length := by
  induction gap with
  | zero =>
    intro v written between rest items mem length len
    obtain rfl := length_eq_zero_iff.mp length
    exact ⟨v, by simp [fillLoop], by simpa using mem, by simpa using len⟩
  | succ gap ih =>
    intro v written between rest items mem length len
    cases items with
    | nil => exact ⟨v, by simp [fillLoop], by simpa using mem, by simpa using len⟩
    | cons x items =>
      obtain ⟨slot, between, rfl⟩ := exists_cons_of_length_eq_add_one length
      rw [append_assoc, cons_append] at mem
      obtain ⟨v', run, mem', len'⟩ := ih
        ⟨(written ++ [x]).map some ++ (between ++ rest), v.len + 1⟩ (written ++ [x]) between rest
        items (append_assoc ..).symm (by simpa using length) (by simp [len])
      refine ⟨v', ?_, by simpa using mem', by simpa using len'⟩
      rw [fillLoop, writeNext_eq mem len]
      simpa using run

lemma fillLoop_length (items : List T) : ∀ v, fillLoop items.length v items =
    (items.foldlM Vec.writeNext v).map fun v => (true, v, []) := by
  induction items with
  | nil => exact fun v => rfl
  | cons x items ih =>
    intro v
    rw [length_cons, fillLoop, foldlM_cons]
    cases v.writeNext x with
    | none => rfl
    | some v => exact ih v

lemma Open.fill (h : d.Open written suf gap) (items : List T) :
    ∃ d', d.fill items = some (decide (gap ≤ items.length), d', items.drop gap) ∧
      d'.Open (written ++ items.take gap) suf (gap - items.length) := by
  obtain ⟨exhausted, ⟨between, free, mem, length⟩, len, tailStart, tailLen⟩ := h
  rw [append_assoc] at mem
  obtain ⟨v, run, mem', len'⟩ := fillLoop_spec gap d.vec written between _ items mem length len
  have room : d.tailStart - d.vec.len = gap := by omega
  refine ⟨{ d with vec := v }, ?_, exhausted, ⟨between.drop items.length, free, ?_, ?_⟩, len', ?_,
    tailLen⟩
  · rw [Drain.fill, if_pos (by omega), room, run]
    rfl
  · simpa using mem'
  · rw [length_drop, length]
  · simp only [tailStart, length_append, length_take]
    omega

lemma reserve_eq (slack : Nat → Nat) (v : Vec T) {used : Nat} (additional : Nat)
    (inside : used ≤ v.mem.length) : ∃ extra,
      v.reserve slack used additional = { v with mem := v.mem ++ extra } ∧
        used + additional ≤ (v.mem ++ extra).length := by
  rw [Vec.reserve]
  split
  · exact ⟨_, rfl, by simp; omega⟩
  · exact ⟨[], by simp, by simp; omega⟩

lemma Open.moveTail (h : d.Open written suf gap) (slack : Nat → Nat) (additional : Nat) :
    ∃ d', d.moveTail slack additional = some d' ∧ d'.Open written suf (gap + additional) := by
  obtain ⟨exhausted, ⟨between, free, mem, length⟩, len, tailStart, tailLen⟩ := h
  have size : d.vec.mem.length = d.tailStart + d.tailLen + free.length := by
    rw [mem, tailStart, tailLen, ← length]
    simp [add_assoc]
  obtain ⟨extra, grown, enough⟩ := reserve_eq slack d.vec additional
    (show d.tailStart + d.tailLen ≤ d.vec.mem.length by omega)
  rw [length_append] at enough
  -- the slots from the tail on, cut where the tail goes
  obtain ⟨room, place, rest, cut, hroom, hplace⟩ : ∃ room place rest,
      suf.map some ++ (free ++ extra) = room ++ place ++ rest ∧ room.length = additional ∧
        place.length = suf.length := by
    refine ⟨(suf.map some ++ (free ++ extra)).take additional,
      ((suf.map some ++ (free ++ extra)).drop additional).take suf.length,
      ((suf.map some ++ (free ++ extra)).drop additional).drop suf.length, ?_, ?_, ?_⟩
    · rw [append_assoc, take_append_drop, take_append_drop]
    · simp
      omega
    · simp
      omega
  have reads : d.vec.mem ++ extra =
      written.map some ++ between ++ suf.map some ++ (free ++ extra) := by
    rw [mem, append_assoc _ free]
  have writes : d.vec.mem ++ extra = written.map some ++ between ++ room ++ place ++ rest := by
    rw [reads, append_assoc _ (suf.map some), cut]
    simp
  have copied := copy_eq reads writes (by simp [hplace])
  simp only [length_append, length_map, length, hroom, ← tailStart, ← tailLen] at copied
  refine ⟨{ d with
      vec := ⟨written.map some ++ between ++ room ++ suf.map some ++ rest, d.vec.len⟩
      tailStart := d.tailStart + additional }, ?_, exhausted,
    ⟨between ++ room, rest, by simp, by simp [length, hroom]⟩, len,
    by simp [tailStart, add_assoc], tailLen⟩
  rw [Drain.moveTail]
  simp [grown, copied]

lemma drop_of_exhausted (exhausted : d.front = d.back) :
    d.drop = d.restore.map fun v => ([], v) := by
  have done : d.dropRest (d.back - d.front + 1) = some ([], d) := by
    rw [Drain.dropRest, Drain.next, if_pos exhausted]
    rfl
  rw [Drain.drop, done]
  change (do let v ← d.restore; return ([], v)) = _
  cases d.restore <;> rfl

lemma Open.drop (h : d.Open written suf gap) :
    ∃ v, d.drop = some ([], v) ∧ v.Holds (written ++ suf) := by
  obtain ⟨exhausted, ⟨between, free, mem, length⟩, len, tailStart, tailLen⟩ := h
  obtain ⟨v, restored, holds⟩ : ∃ v, d.restore = some v ∧ v.Holds (written ++ suf) := by
    rw [Drain.restore]
    by_cases none_ : d.tailLen > 0
    · rw [if_pos none_]
      by_cases closed : d.tailStart = d.vec.len
      · obtain rfl : between = [] := length_eq_zero_iff.mp (by omega)
        refine ⟨_, by rw [if_neg (by simpa using closed)]; rfl, by simp [len, tailLen], free, ?_⟩
        simpa using mem
      · obtain ⟨place, rest, cut, hplace⟩ : ∃ place rest,
            between ++ suf.map some = place ++ rest ∧ place.length = suf.length :=
          ⟨_, _, (take_append_drop suf.length _).symm, by simp⟩
        have writes : d.vec.mem = written.map some ++ place ++ (rest ++ free) := by
          rw [mem, append_assoc (written.map some), cut]
          simp
        have copied := copy_eq mem writes (by simp [hplace])
        simp only [length_append, length_map, length, ← tailStart, ← tailLen] at copied
        refine ⟨_, by rw [if_pos closed, len, copied]; rfl, by simp [tailLen], rest ++ free, ?_⟩
        simp
    · rw [if_neg none_]
      obtain rfl : suf = [] := length_eq_zero_iff.mp (by omega)
      exact ⟨_, rfl, by simpa using len, between ++ free, by simpa using mem⟩
  exact ⟨v, by rw [drop_of_exhausted exhausted, restored]; rfl, holds⟩

lemma Open.fillCollected (h : d.Open written suf 0) (slack : Nat → Nat) (collected : List T) :
    ∃ d' gap, d.fillCollected slack collected = some d' ∧
      d'.Open (written ++ collected) suf gap := by
  rw [Drain.fillCollected]
  split
  · obtain ⟨d₁, moved, open₁⟩ := h.moveTail slack collected.length
    obtain ⟨d₂, filled, open₂⟩ := open₁.fill collected
    refine ⟨d₂, _, ?_, by simpa using open₂⟩
    simp [moved, filled]
  · obtain rfl : collected = [] := length_eq_zero_iff.mp (by omega)
    exact ⟨d, 0, rfl, by simpa using h⟩

/-- Every way through the rounds writes all the items. -/
lemma Open.fillRounds (h : d.Open written suf gap) (slack : Nat → Nat) (hint : List T → Nat)
    (items : List T) : ∃ d' gap', d.fillRounds slack hint items = some d' ∧
      d'.Open (written ++ items) suf gap' := by
  -- a round that does not fill the gap has written all it was given
  have all {n : Nat} {items : List T} (short : ¬ n ≤ items.length) : items.take n = items :=
    take_of_length_le (by omega)
  have full {d : Drain T} {n : Nat} {written items : List T} (filled : n ≤ items.length)
      (h : d.Open (written ++ items.take n) suf (n - items.length)) :
      ∃ d' gap', d.fillCollected slack (items.drop n) = some d' ∧
        d'.Open (written ++ items) suf gap' := by
    rw [Nat.sub_eq_zero_of_le filled] at h
    obtain ⟨d', gap', run, opened⟩ := h.fillCollected slack (items.drop n)
    exact ⟨d', gap', run, by rwa [append_assoc, take_append_drop] at opened⟩
  obtain ⟨d₁, first, open₁⟩ := h.fill items
  rw [Drain.fillRounds, first]
  by_cases filled : gap ≤ items.length
  · simp only [bind_eq_bind, bind_some, filled, decide_true, if_true]
    split
    · rw [Nat.sub_eq_zero_of_le filled] at open₁
      obtain ⟨d₂, moved, open₂⟩ := open₁.moveTail slack (hint (items.drop gap))
      obtain ⟨d₃, second, open₃⟩ := open₂.fill (items.drop gap)
      rw [zero_add] at second open₃
      simp only [moved, second, bind_some]
      have split_items : written ++ items = written ++ items.take gap ++ items.drop gap := by
        rw [append_assoc, take_append_drop]
      rw [split_items]
      by_cases again : hint (items.drop gap) ≤ (items.drop gap).length
      · simp only [again, decide_true, if_true]
        exact full again open₃
      · simp only [again, decide_false]
        rw [all again] at open₃
        exact ⟨d₃, _, rfl, open₃⟩
    · exact full filled open₁
  · simp only [bind_eq_bind, bind_some, filled, decide_false]
    rw [all filled] at open₁
    exact ⟨d₁, _, rfl, open₁⟩

end Drain

lemma Vec.Holds.extendDesugared (slack : Nat → Nat) (hint : List T → Nat) (items : List T) :
    ∀ {v : Vec T} {l : List T}, v.Holds l →
      ∃ v', v.extendDesugared slack hint items = some v' ∧ v'.Holds (l ++ items) := by
  induction items with
  | nil => exact fun {v l} h => ⟨v, rfl, by rwa [append_nil]⟩
  | cons x items ih =>
    rintro v l ⟨len, free, mem⟩
    obtain ⟨slot, free', hw⟩ : ∃ slot free', (if v.len = v.mem.length then
        v.reserve slack v.len (hint items + 1) else v) =
          { v with mem := l.map some ++ slot :: free' } := by
      split
      next full =>
        obtain ⟨extra, grown, enough⟩ := Drain.reserve_eq slack v (hint items + 1)
          (le_of_eq full)
        obtain ⟨slot, extra, rfl⟩ : ∃ slot rest, extra = slot :: rest :=
          exists_cons_of_length_pos (by rw [length_append] at enough; omega)
        rw [grown]
        refine ⟨slot, extra, ?_⟩
        obtain rfl : free = [] := by
          rw [mem, len] at full
          simpa using full
        rw [mem, append_nil]
      next room =>
        obtain ⟨slot, free, rfl⟩ : ∃ slot rest, free = slot :: rest := by
          apply exists_cons_of_ne_nil
          rintro rfl
          rw [mem, len] at room
          simp at room
        exact ⟨slot, free, by rw [← mem]⟩
    have wrote := Drain.writeNext_eq (v := ⟨l.map some ++ slot :: free', v.len⟩) rfl len x
    obtain ⟨v', run, holds⟩ := ih (v := ⟨(l ++ [x]).map some ++ free', v.len + 1⟩)
      ⟨by simp [len], free', rfl⟩
    refine ⟨v', ?_, by simpa using holds⟩
    rw [Vec.extendDesugared]
    simp only [hw, wrote, bind_eq_bind, bind_some]
    exact run

lemma Vec.Holds.extend (slack : Nat → Nat) (hint : List T → Nat) {upper : List T → Option Nat}
    {items : List T} (tight : ∀ n ∈ upper items, n = items.length) {v : Vec T} {l : List T}
    (holds : v.Holds l) :
    ∃ v', v.extend slack hint upper items = some v' ∧ v'.Holds (l ++ items) := by
  rw [Vec.extend]
  split
  next n bound =>
    obtain rfl := tight n bound
    obtain ⟨len, free, mem⟩ := holds
    obtain ⟨extra, grown, enough⟩ := Drain.reserve_eq slack v items.length
      (show v.len ≤ v.mem.length by simp [mem, len])
    rw [grown]
    simp only [mem, append_assoc, length_append, length_map, len] at enough
    obtain ⟨v', run, mem', len'⟩ := Drain.fillLoop_spec items.length
      { v with mem := v.mem ++ extra } l ((free ++ extra).take items.length)
      ((free ++ extra).drop items.length) items
      (by rw [mem, append_assoc, append_assoc, take_append_drop]) (by simp; omega) len
    rw [Drain.fillLoop_length, map_eq_some_iff] at run
    obtain ⟨_, run, same⟩ := run
    obtain rfl := (Prod.ext_iff.mp (Prod.ext_iff.mp same).2).1
    rw [take_length] at mem' len'
    exact ⟨_, run, len', _, by rw [mem', append_assoc]⟩
  next => exact holds.extendDesugared slack hint items

lemma Drain.Draining.dropSplice {d : Drain T} {pre left suf : List T}
    (h : d.Draining pre left suf) (slack : Nat → Nat) (hint : List T → Nat)
    (upper : List T → Option Nat) (items : List T) (tight : ∀ n ∈ upper items, n = items.length) :
    ∃ v, dropSplice slack hint upper d items = some (left, v) ∧ v.Holds (pre ++ items ++ suf) := by
  obtain ⟨d₁, dropped, draining⟩ := Draining.dropRest (d.back - d.front + 1)
    (by rw [h.back]; omega) h
  obtain ⟨gap, opened⟩ := draining.opened
  obtain ⟨d₂, v, replaced, last, holds⟩ : ∃ d₂ v, d₁.replace slack hint upper items = some d₂ ∧
      d₂.drop = some ([], v) ∧ v.Holds (pre ++ items ++ suf) := by
    rw [Drain.replace]
    split
    next none_ =>
      obtain ⟨-, ⟨between, free, mem, -⟩, len, -, tailLen⟩ := opened
      obtain rfl : suf = [] := length_eq_zero_iff.mp (by omega)
      obtain ⟨v, extended, holds⟩ := Vec.Holds.extend slack hint tight
        ⟨len, between ++ free, by simpa using mem⟩
      refine ⟨{ d₁ with vec := v }, v, by rw [extended]; rfl, ?_, by rwa [append_nil]⟩
      rw [drop_of_exhausted (by simpa using draining.back.symm), Drain.restore,
        if_neg (by simp [none_])]
      rfl
    · obtain ⟨d₂, gap₂, filled, opened₂⟩ := opened.fillRounds slack hint items
      obtain ⟨v, last, holds⟩ := opened₂.drop
      exact ⟨d₂, v, filled, last, holds⟩
  refine ⟨v, ?_, holds⟩
  rw [VecSplice.dropSplice, dropped]
  simp [replaced, last]

/-- Whatever lower bounds the iterator reports and however the removed elements are asked for,
each of them is given once or dropped once, and the replacement stands in their place. Only the
upper bound of a `TrustedLen` iterator must be exact. -/
theorem splice_replaces (slack : Nat → Nat) (hint : List T → Nat) {v : Vec T} {l : List T}
    (holds : v.Holds l) {first last : Bound} (accepted : accepts first last l.length)
    (upper : List T → Option Nat) (items : List T) (tight : ∀ n ∈ upper items, n = items.length)
    (script : List Bool) :
    ∃ d given d' dropped v', v.drain first last = some d ∧
      DoubleEnded.run Drain.call (script.map ofEnd) d = some given ∧
      stateAfter Drain.call (script.map ofEnd) d = some d' ∧
      dropSplice slack hint upper d' items = some (dropped, v') ∧
      given = replies (script.map ofEnd)
        ((l.take (last.stop l.length)).drop first.start) ∧
      handed true script given ++ dropped ++
        (handed false script given).reverse =
          (l.take (last.stop l.length)).drop first.start ∧
      v'.Holds (l.take first.start ++ items ++ l.drop (last.stop l.length)) := by
  obtain ⟨d, drained, draining⟩ := holds.drain accepted
  have follows := Drain.follows (l.take first.start) (l.drop (last.stop l.length))
  obtain ⟨d', after_, draining'⟩ := follows.stateAfter (script.map ofEnd) draining
  obtain ⟨v', run, holds'⟩ := draining'.dropSplice slack hint upper items tight
  exact ⟨d, _, d', _, v', drained, follows.run _ draining, after_, run, rfl,
    DoubleEnded.handed_replies script _, holds'⟩

def sample : Vec Nat := ⟨[some 1, some 2, some 3, some 4, none], 4⟩

theorem splice_replaces_sample :
    sample.Holds [1, 2, 3, 4] ∧ ∃ d d' v', sample.drain (.included 1) (.excluded 3) = some d ∧
      stateAfter Drain.call [.nextBack] d = some d' ∧
      dropSplice (fun n => n) (fun _ => 9) (some ∘ length) d' [5, 6, 7, 8] = some ([2], v') ∧
      v'.Holds [1, 5, 6, 7, 8, 4] := by
  have holds : sample.Holds [1, 2, 3, 4] := ⟨rfl, [none], rfl⟩
  have accepted : accepts (.included 1) (.excluded 3) 4 := by decide
  obtain ⟨d, given, d', dropped, v', drained, -, after_, run, answers, whole, holds'⟩ :=
    splice_replaces (fun n => n) (fun _ => 9) holds accepted (some ∘ length) [5, 6, 7, 8] (by simp)
      [false]
  refine ⟨holds, d, d', v', drained, after_, ?_, holds'⟩
  have joined : dropped ++ [3] = [2] ++ [3] := by
    rw [answers] at whole
    simpa [handed, replies, DoubleEnded.ask, ofEnd, Bound.start, Bound.stop] using whole
  rw [run, append_cancel_right joined]

end VecSplice
