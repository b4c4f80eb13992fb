import BpfSysroot.Allocating
import BpfSysroot.RingMemory

/-!
# The ring buffer of `VecDeque`

The operations of `alloc::collections::VecDeque<T>` on their buffer, for elements
of non-zero size on a 64-bit target. The buffer is a memory of slots; a slot keeps
its old content when an element is moved out of it, as the bytes do. Pointer
accesses outside the buffer, overlapping copies declared to be disjoint, reads
of slots never written and failed debug assertions are faults, an assertion
that fails in every build is a panic. Allocation succeeds up to the largest
power of two in `usize`.
-/

open Allocating Allocating.Outcome RingMemory

/-- `tail` is the first position to read, `head` the next to write, `cap` the capacity of `buf`. -/
structure VecDeque (T : Type) where
  tail : Nat
  head : Nat
  cap : Nat
  slot : Slots T

namespace VecDeque

variable {T S : Type}

/-- The number of values of `usize`. -/
def usizeValues : Nat := 2 ^ 64

/-- The largest power of two in `usize`. -/
def maxCapacity : Nat := 2 ^ 63

def initialCapacity : Nat := 7
def minimumCapacity : Nat := 1

def wrappingAdd (a b : Nat) : Nat := (a + b) % usizeValues
def wrappingSub (a b : Nat) : Nat := (a + usizeValues - b) % usizeValues
def saturatingAdd (a b : Nat) : Nat := min (a + b) (usizeValues - 1)

/-- `next_power_of_two`, where it does not overflow. -/
def nextPowerOfTwo (n : Nat) : Nat := if n ≤ 1 then 1 else 2 ^ (Nat.log2 (n - 1) + 1)

def wrapIndex (index size : Nat) : Nat := index &&& (size - 1)

def count (tail head size : Nat) : Nat := wrappingSub head tail &&& (size - 1)

section
variable (d : VecDeque T)

def wrapAdd (idx addend : Nat) : Nat := wrapIndex (wrappingAdd idx addend) d.cap

def wrapSub (idx subtrahend : Nat) : Nat := wrapIndex (wrappingSub idx subtrahend) d.cap

def len : Nat := count d.tail d.head d.cap

def isEmpty : Bool := d.tail == d.head

def capacity : Nat := d.cap - 1

def isFull : Bool := d.cap - d.len == 1

def isContiguous : Bool := d.tail ≤ d.head

def bufferRead (off : Nat) : Outcome T := do
  check (off < d.cap)
  require (d.slot off)

def bufferWrite (off : Nat) (value : T) : Outcome (VecDeque T) := do
  check (off < d.cap)
  return { d with slot := put off value d.slot }

/-- `ptr::copy` within the buffer. -/
def copy (dst src len : Nat) : Outcome (VecDeque T) := do
  check (dst + len ≤ d.cap)
  check (src + len ≤ d.cap)
  return { d with slot := move dst src len d.slot }

def copyNonoverlapping (dst src len : Nat) : Outcome (VecDeque T) := do
  check (dst + len ≤ d.cap)
  check (src + len ≤ d.cap)
  check (dst + len ≤ src ∨ src + len ≤ dst)
  return { d with slot := move dst src len d.slot }

def diff (a b : Nat) : Nat := if a ≤ b then b - a else a - b

/-- Copies a block that may wrap around at either end. -/
def wrapCopy (dst src len : Nat) : Outcome (VecDeque T) := do
  check (min (diff dst src) (d.cap - diff dst src) + len ≤ d.cap)
  if src = dst ∨ len = 0 then
    return d
  else
    let dstAfterSrc := decide (d.wrapSub dst src < len)
    let srcPreWrapLen ← sub d.cap src
    let dstPreWrapLen ← sub d.cap dst
    let srcWraps := decide (srcPreWrapLen < len)
    let dstWraps := decide (dstPreWrapLen < len)
    match dstAfterSrc, srcWraps, dstWraps with
    | _, false, false => d.copy dst src len
    | false, false, true =>
      let d ← d.copy dst src dstPreWrapLen
      d.copy 0 (src + dstPreWrapLen) (← sub len dstPreWrapLen)
    | true, false, true =>
      let d ← d.copy 0 (src + dstPreWrapLen) (← sub len dstPreWrapLen)
      d.copy dst src dstPreWrapLen
    | false, true, false =>
      let d ← d.copy dst src srcPreWrapLen
      d.copy (dst + srcPreWrapLen) 0 (← sub len srcPreWrapLen)
    | true, true, false =>
      let d ← d.copy (dst + srcPreWrapLen) 0 (← sub len srcPreWrapLen)
      d.copy dst src srcPreWrapLen
    | false, true, true =>
      check (srcPreWrapLen < dstPreWrapLen)
      let delta ← sub dstPreWrapLen srcPreWrapLen
      let d ← d.copy dst src srcPreWrapLen
      let d ← d.copy (dst + srcPreWrapLen) 0 delta
      d.copy 0 delta (← sub len dstPreWrapLen)
    | true, true, true =>
      check (dstPreWrapLen < srcPreWrapLen)
      let delta ← sub srcPreWrapLen dstPreWrapLen
      let d ← d.copy delta 0 (← sub len srcPreWrapLen)
      let d ← d.copy 0 (← sub d.cap delta) delta
      d.copy dst src dstPreWrapLen

/-- `RawVec::reserve_exact`: the new slots are not written yet. -/
def reallocate (newCap : Nat) : VecDeque T :=
  { d with cap := newCap, slot := fun p => if p < d.cap then d.slot p else none }

/-- Moves the shorter of the two sections of a ring that wrapped around at the old capacity. -/
def unwrapAt (oldCapacity : Nat) : Outcome (VecDeque T) := do
  let tailLen ← sub oldCapacity d.tail
  if d.head < tailLen then
    let d ← d.copyNonoverlapping oldCapacity 0 d.head
    let d := { d with head := d.head + oldCapacity }
    check (d.tail < d.head)
    return d
  else
    let newTail ← sub d.cap tailLen
    let d ← d.copyNonoverlapping newTail d.tail tailLen
    let d := { d with tail := newTail }
    check (d.head < d.tail)
    return d

def handleCapacityIncrease (oldCapacity : Nat) : Outcome (VecDeque T) := do
  let d ← if d.tail ≤ d.head then pure d else d.unwrapAt oldCapacity
  check (d.head < d.cap)
  check (d.tail < d.cap)
  return d

def reserve (additional : Nat) : Outcome (VecDeque T) := do
  let oldCap := d.cap
  let usedCap := d.len + 1
  allocate maxCapacity (usedCap + additional)
  let newCap := nextPowerOfTwo (usedCap + additional)
  if oldCap < newCap then
    (d.reallocate newCap).handleCapacityIncrease oldCap
  else
    return d

def grow : Outcome (VecDeque T) := do
  if d.isFull then
    let oldCap := d.cap
    allocate maxCapacity (oldCap * 2)
    let d := d.reallocate (oldCap * 2)
    assert (d.cap = oldCap * 2)
    let d ← d.handleCapacityIncrease oldCap
    check (¬ d.isFull)
    return d
  else
    return d

/-- `if self.is_full() { self.grow(); }`, with which every insertion begins. -/
def makeRoom : Outcome (VecDeque T) := if d.isFull then d.grow else pure d

end

def withCapacity (capacity : Nat) : Outcome (VecDeque T) := do
  let needed := max (capacity + 1) (minimumCapacity + 1)
  allocate maxCapacity needed
  let cap := nextPowerOfTwo needed
  assert (capacity < cap)
  return { tail := 0, head := 0, cap := cap, slot := fun _ => none }

def new : Outcome (VecDeque T) := withCapacity initialCapacity

section
variable (d : VecDeque T)

def get (index : Nat) : Outcome (Option T) := do
  if index < d.len then
    let x ← d.bufferRead (d.wrapAdd d.tail index)
    return some x
  else
    return none

def swap (i j : Nat) : Outcome (VecDeque T) := do
  assert (i < d.len)
  assert (j < d.len)
  let ri := d.wrapAdd d.tail i
  let rj := d.wrapAdd d.tail j
  check (ri < d.cap)
  check (rj < d.cap)
  return { d with slot := SliceMemory.swapAt d.slot ri rj }

def popFront : Outcome (Option T × VecDeque T) := do
  if d.isEmpty then
    return (none, d)
  else
    let tail := d.tail
    let d := { d with tail := d.wrapAdd d.tail 1 }
    let x ← d.bufferRead tail
    return (some x, d)

def popBack : Outcome (Option T × VecDeque T) := do
  if d.isEmpty then
    return (none, d)
  else
    let d := { d with head := d.wrapSub d.head 1 }
    let x ← d.bufferRead d.head
    return (some x, d)

def pushFront (value : T) : Outcome (VecDeque T) := do
  let d ← d.makeRoom
  let d := { d with tail := d.wrapSub d.tail 1 }
  d.bufferWrite d.tail value

def pushBack (value : T) : Outcome (VecDeque T) := do
  let d ← d.makeRoom
  let head := d.head
  let d := { d with head := d.wrapAdd d.head 1 }
  d.bufferWrite head value

def swapRemoveFront (index : Nat) : Outcome (Option T × VecDeque T) := do
  let length := d.len
  if 0 < length ∧ index < length ∧ index ≠ 0 then
    let d ← d.swap index 0
    d.popFront
  else if length ≤ index then
    return (none, d)
  else
    d.popFront

def swapRemoveBack (index : Nat) : Outcome (Option T × VecDeque T) := do
  let length := d.len
  if 0 < length ∧ index < length - 1 then
    let d ← d.swap index (length - 1)
    d.popBack
  else if length ≤ index then
    return (none, d)
  else
    d.popBack

end

section
variable (d : VecDeque T)

/-- The part of `insert` that moves elements to make room at `index`. -/
def openGap (index : Nat) : Outcome (VecDeque T) := do
  let idx := d.wrapAdd d.tail index
  let distanceToTail := index
  let distanceToHead ← sub d.len index
  match d.isContiguous, decide (distanceToTail ≤ distanceToHead), decide (d.tail ≤ idx) with
  | true, true, _ =>
    if index = 0 then
      return { d with tail := d.wrapSub d.tail 1 }
    else
      let newTail := d.wrapSub d.tail 1
      let d ← d.copy newTail d.tail 1
      let d ← d.copy d.tail (d.tail + 1) (← sub index 1)
      return { d with tail := newTail }
  | true, false, _ =>
    let d ← d.copy (idx + 1) idx (← sub d.head idx)
    return { d with head := d.wrapAdd d.head 1 }
  | false, true, true =>
    let d ← d.copy (← sub d.tail 1) d.tail index
    return { d with tail := ← sub d.tail 1 }
  | false, false, true =>
    let d ← d.copy 1 0 d.head
    let d ← d.copy 0 (← sub d.cap 1) 1
    let d ← d.copy (idx + 1) idx (← sub (← sub d.cap 1) idx)
    return { d with head := d.head + 1 }
  | false, true, false =>
    let d ← d.copy (← sub d.tail 1) d.tail (← sub d.cap d.tail)
    let d ← d.copy (← sub d.cap 1) 0 1
    if idx = 0 then
      return { d with tail := ← sub d.tail 1 }
    else
      let d ← d.copy 0 1 (← sub idx 1)
      return { d with tail := ← sub d.tail 1 }
  | false, false, false =>
    let d ← d.copy (idx + 1) idx (← sub d.head idx)
    return { d with head := d.head + 1 }

def insert (index : Nat) (value : T) : Outcome (VecDeque T) := do
  assert (index ≤ d.len)
  let d ← d.makeRoom
  let d ← d.openGap index
  let newIdx := d.wrapAdd d.tail index
  d.bufferWrite newIdx value

/-- The part of `remove` that moves elements to close the gap at `index`. -/
def closeGap (index : Nat) : Outcome (VecDeque T) := do
  let idx := d.wrapAdd d.tail index
  let distanceToTail := index
  let distanceToHead ← sub d.len index
  match d.isContiguous, decide (distanceToTail ≤ distanceToHead), decide (d.tail ≤ idx) with
  | true, true, _ =>
    let d ← d.copy (d.tail + 1) d.tail index
    return { d with tail := d.tail + 1 }
  | true, false, _ =>
    let d ← d.copy idx (idx + 1) (← sub (← sub d.head idx) 1)
    return { d with head := ← sub d.head 1 }
  | false, true, true =>
    let d ← d.copy (d.tail + 1) d.tail index
    return { d with tail := d.wrapAdd d.tail 1 }
  | false, false, false =>
    let d ← d.copy idx (idx + 1) (← sub (← sub d.head idx) 1)
    return { d with head := ← sub d.head 1 }
  | false, false, true =>
    let d ← d.copy idx (idx + 1) (← sub (← sub d.cap idx) 1)
    if d.head ≠ 0 then
      let d ← d.copy (← sub d.cap 1) 0 1
      let d ← d.copy 0 1 (← sub d.head 1)
      return { d with head := d.wrapSub d.head 1 }
    else
      return { d with head := d.wrapSub d.head 1 }
  | false, true, false =>
    let d ← d.copy 1 0 idx
    let d ← d.copy 0 (← sub d.cap 1) 1
    let d ← d.copy (d.tail + 1) d.tail (← sub (← sub d.cap d.tail) 1)
    return { d with tail := d.wrapAdd d.tail 1 }

def remove (index : Nat) : Outcome (Option T × VecDeque T) := do
  if d.isEmpty ∨ d.len ≤ index then
    return (none, d)
  else
    let elem ← d.bufferRead (d.wrapAdd d.tail index)
    let d ← d.closeGap index
    return (some elem, d)

end

section
variable (d : VecDeque T)

/-- The two blocks of the buffer, as offset and length, that hold the elements in order. -/
def asSlices : Outcome ((Nat × Nat) × (Nat × Nat)) := do
  if d.isContiguous then
    assert (d.head ≤ d.cap)
    return ((d.tail, d.head - d.tail), (0, 0))
  else
    assert (d.tail ≤ d.cap)
    return ((d.tail, d.cap - d.tail), (0, d.head))

/-- Moves the elements of a block out of the buffer, as `drop_in_place` does. -/
def takeBlock (off : Nat) : Nat → Outcome (List T)
  | 0 => return []
  | n + 1 => do
    let x ← d.bufferRead off
    let rest ← takeBlock (off + 1) n
    return x :: rest

/-- Also returns the elements in the order in which they are dropped. -/
def truncate (len : Nat) : Outcome (List T × VecDeque T) := do
  if d.len < len then
    return ([], d)
  else
    let numDropped ← sub d.len len
    let (front, back) ← d.asSlices
    let shortened := { d with head := d.wrapSub d.head numDropped }
    if front.2 < len then
      let start ← sub len front.2
      let dropped ← d.takeBlock (back.1 + start) (← sub back.2 start)
      return (dropped, shortened)
    else
      let first ← d.takeBlock (front.1 + len) (← sub front.2 len)
      let second ← d.takeBlock back.1 back.2
      return (first ++ second, shortened)

/-- `ptr::copy_nonoverlapping` from this buffer into another one. -/
def copyInto (other : VecDeque T) (dst src len : Nat) : Outcome (VecDeque T) := do
  check (dst + len ≤ other.cap)
  check (src + len ≤ d.cap)
  return { other with
    slot := fun p => if dst ≤ p ∧ p < dst + len then d.slot (src + (p - dst)) else other.slot p }

/-- Returns the split-off deque and what remains. -/
def splitOff (at_ : Nat) : Outcome (VecDeque T × VecDeque T) := do
  let len := d.len
  assert (at_ ≤ len)
  let otherLen ← sub len at_
  let other ← withCapacity otherLen
  let (first, second) ← d.asSlices
  let other ← if at_ < first.2 then do
      let amountInFirst ← sub first.2 at_
      let other ← d.copyInto other 0 (first.1 + at_) amountInFirst
      d.copyInto other amountInFirst second.1 second.2
    else do
      let offset ← sub at_ first.2
      let amountInSecond ← sub second.2 offset
      d.copyInto other 0 (second.1 + offset) amountInSecond
  let self := { d with head := d.wrapSub d.head otherLen }
  let other := { other with head := wrapIndex otherLen other.cap }
  return (other, self)

/-- The check of `extend` for room, with the lower bound of the iterator's `size_hint`. -/
def reserveFor (lower : Nat) : Outcome (VecDeque T) :=
  if d.len = d.capacity then d.reserve (saturatingAdd lower 1) else pure d

/-- An iterator is given by its elements, each with the lower bound of `size_hint` right after it
was returned. -/
def extend : List (T × Nat) → VecDeque T → Outcome (VecDeque T)
  | [], d => return d
  | (element, lower) :: rest, d => do
    let d ← d.reserveFor lower
    let head := d.head
    let d := { d with head := d.wrapAdd d.head 1 }
    let d ← d.bufferWrite head element
    extend rest d

/-- `FromIterator`, where `lower` is the lower bound of `size_hint` at the start. -/
def fromIter (lower : Nat) (items : List (T × Nat)) : Outcome (VecDeque T) := do
  let deq ← withCapacity lower
  extend items deq

/-- `&self[index]`. -/
def index (i : Nat) : Outcome T := do
  match ← d.get i with
  | some x => return x
  | none => .panic

/-- The loop of `retain`, with `n` elements to look at from index `i` on. -/
def retainLoop (f : S → T → Bool × S) :
    Nat → Nat → Nat → S → VecDeque T → Outcome (Nat × S × VecDeque T)
  | 0, _, del, s, d => return (del, s, d)
  | n + 1, i, del, s, d => do
    let x ← d.index i
    let (keep, s) := f s x
    if ¬ keep then
      retainLoop f n (i + 1) (del + 1) s d
    else if 0 < del then
      let d ← d.swap (← sub i del) i
      retainLoop f n (i + 1) del s d
    else
      retainLoop f n (i + 1) del s d

def retain (f : S → T → Bool × S) (s : S) : Outcome (S × VecDeque T) := do
  let len := d.len
  let (del, s, d) ← retainLoop f len 0 0 s d
  if 0 < del then
    let (_, d) ← d.truncate (← sub len del)
    return (s, d)
  else
    return (s, d)

/-- `repeat_with(generator).take(n)`: its elements and hints, and the generator's state. -/
def generate (generator : S → T × S) : Nat → S → List (T × Nat) × S
  | 0, s => ([], s)
  | n + 1, s =>
    let (x, s) := generator s
    let (rest, s) := generate generator n s
    ((x, n) :: rest, s)

def resizeWith (newLen : Nat) (generator : S → T × S) (s : S) : Outcome (S × VecDeque T) := do
  let len := d.len
  if len < newLen then
    let (items, s) := generate generator (newLen - len) s
    let d ← extend items d
    return (s, d)
  else
    let (_, d) ← d.truncate newLen
    return (s, d)

def rotateLeftInner (mid : Nat) : Outcome (VecDeque T) := do
  check (mid * 2 ≤ d.len)
  let d ← d.wrapCopy d.head d.tail mid
  let d := { d with head := d.wrapAdd d.head mid }
  return { d with tail := d.wrapAdd d.tail mid }

def rotateRightInner (k : Nat) : Outcome (VecDeque T) := do
  check (k * 2 ≤ d.len)
  let d := { d with head := d.wrapSub d.head k }
  let d := { d with tail := d.wrapSub d.tail k }
  d.wrapCopy d.tail d.head k

def rotateLeft (mid : Nat) : Outcome (VecDeque T) := do
  assert (mid ≤ d.len)
  let k ← sub d.len mid
  if mid ≤ k then d.rotateLeftInner mid else d.rotateRightInner k

def rotateRight (k : Nat) : Outcome (VecDeque T) := do
  assert (k ≤ d.len)
  let mid ← sub d.len k
  if k ≤ mid then d.rotateRightInner k else d.rotateLeftInner mid

end

/-- An end of a range of indices. -/
inductive Bound
  | included (i : Nat)
  | excluded (i : Nat)
  | unbounded
  deriving DecidableEq

/-- `RangeBounds::assert_len`. An end beyond `usize::MAX` is beyond the length, too. -/
def assertLen (first last : Bound) (len : Nat) : Outcome (Nat × Nat) := do
  let start := match first with
    | .included i => i
    | .excluded i => i + 1
    | .unbounded => 0
  let stop := match last with
    | .included i => i + 1
    | .excluded i => i
    | .unbounded => len
  assert (start ≤ stop)
  assert (stop ≤ len)
  return (start, stop)

/-- A draining iterator, which holds the only reference to its deque. -/
structure Drain (T : Type) where
  afterTail : Nat
  afterHead : Nat
  iterTail : Nat
  iterHead : Nat
  deque : VecDeque T

def drain (d : VecDeque T) (first last : Bound) : Outcome (Drain T) := do
  let (start, stop) ← assertLen first last d.len
  let drainTail := d.wrapAdd d.tail start
  let drainHead := d.wrapAdd d.tail stop
  return {
    afterTail := drainHead
    afterHead := d.head
    iterTail := drainTail
    iterHead := drainHead
    deque := { d with head := drainTail } }

namespace Drain
variable (r : Drain T)

def next : Outcome (Option T × Drain T) := do
  if r.iterTail = r.iterHead then
    return (none, r)
  else
    let x ← r.deque.bufferRead r.iterTail
    return (some x, { r with iterTail := wrapIndex (wrappingAdd r.iterTail 1) r.deque.cap })

def nextBack : Outcome (Option T × Drain T) := do
  if r.iterTail = r.iterHead then
    return (none, r)
  else
    let iterHead := wrapIndex (wrappingSub r.iterHead 1) r.deque.cap
    let x ← r.deque.bufferRead iterHead
    return (some x, { r with iterHead := iterHead })

/-- The lower bound of `size_hint`. -/
def sizeHint : Nat := count r.iterTail r.iterHead r.deque.cap

/-- Calls `next` until it returns nothing; a deque holds less than `cap` elements. Each element
comes with the hint after it. -/
def exhaust : Nat → Drain T → Outcome (List (T × Nat) × Drain T)
  | 0, _ => .fault
  | fuel + 1, r => do
    match ← r.next with
    | (none, r) => return ([], r)
    | (some x, r) =>
      let lower := r.sizeHint
      let (rest, r) ← exhaust fuel r
      return ((x, lower) :: rest, r)

/-- What the drop guard does with the deque: it closes the hole from the shorter side. -/
def restore : Outcome (VecDeque T) := do
  let d := r.deque
  let origTail := d.tail
  let drainTail := d.head
  let drainHead := r.afterTail
  let origHead := r.afterHead
  let tailLen := count origTail drainTail d.cap
  let headLen := count drainHead origHead d.cap
  let d := { d with head := origHead }
  match tailLen, headLen with
  | 0, 0 => return { d with head := 0, tail := 0 }
  | 0, _ => return { d with tail := drainHead }
  | _, 0 => return { d with head := drainTail }
  | tailLen, headLen =>
    if tailLen ≤ headLen then
      let d := { d with tail := d.wrapSub drainHead tailLen }
      d.wrapCopy d.tail origTail tailLen
    else
      let d := { d with head := d.wrapAdd drainTail headLen }
      d.wrapCopy drainTail drainHead headLen

/-- Dropping the iterator, with the elements that are dropped then. -/
def dropAll : Outcome (List T × VecDeque T) := do
  let (items, r) ← exhaust r.deque.cap r
  let (more, r) ← exhaust r.deque.cap r
  return ((items ++ more).map Prod.fst, ← r.restore)

/-- Dropping the iterator drops the elements it has not returned and restores the deque. -/
def drop : Outcome (VecDeque T) := do
  let (_, r) ← exhaust r.deque.cap r
  let (_, r) ← exhaust r.deque.cap r
  r.restore

/-- Calls `next` (for `true`) and `next_back` (for `false`) in the order of the script. -/
def calls : List Bool → Drain T → Outcome (List (Option T) × Drain T)
  | [], r => return ([], r)
  | front :: script, r => do
    let (x, r) ← if front then r.next else r.nextBack
    let (rest, r) ← calls script r
    return (x :: rest, r)

end Drain

/-- Extends by what a full drain of `other` returns; also returns `other` afterwards. -/
def append (d other : VecDeque T) : Outcome (VecDeque T × VecDeque T) := do
  let r ← other.drain .unbounded .unbounded
  let (items, r) ← Drain.exhaust r.deque.cap r
  let d ← extend items d
  let other ← r.drop
  return (d, other)

end VecDeque
