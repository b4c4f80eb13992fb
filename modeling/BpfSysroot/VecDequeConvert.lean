import BpfSysroot.VecDequeShrink

/-!
# `VecDeque::make_contiguous`, and the conversions from and to `Vec`

A `Vec` is its buffer, with a capacity that is the largest `usize` for elements of zero size.
`make_contiguous` swaps the two pieces of a ring where there is too little room to copy them;
it does this in passes over the buffer, each of which brings the slots of its window into their
final place and leaves a smaller rotation to the next one.
-/

open Allocating Allocating.Outcome RingMemory List

namespace VecDeque

variable {T : Type}

section
variable (d : VecDeque T)

/-- The inner loop: `n` more swaps, the next one at `i`. -/
def swapLoop (leftEdge rightEdge : Nat) : Nat → VecDeque T → Nat → Nat → Outcome (VecDeque T × Nat)
  | 0, d, _, rightOffset => pure (d, rightOffset)
  | n + 1, d, i, _ => do
    let span ← sub d.cap rightEdge
    assert (span ≠ 0)
    let rightOffset := (i - leftEdge) % span
    let src := rightEdge + rightOffset
    check (i < d.cap)
    check (src < d.cap)
    swapLoop leftEdge rightEdge n { d with slot := SliceMemory.swapAt d.slot i src } (i + 1)
      rightOffset

/-- The outer loop, for at most `fuel` passes. -/
def swapPasses (len : Nat) : Nat → VecDeque T → Nat → Nat → Outcome (VecDeque T)
  | 0, _, _, _ => fault
  | fuel + 1, d, leftEdge, rightEdge =>
    if leftEdge < len ∧ rightEdge ≠ d.cap then do
      let nOps ← sub rightEdge leftEdge
      let (d, rightOffset) ← swapLoop leftEdge rightEdge nOps d leftEdge 0
      swapPasses len fuel d (leftEdge + nOps) (rightEdge + (rightOffset + 1))
    else pure d

/-- The ring in one piece; the slice that is returned is left out. -/
def makeContiguous : Outcome (VecDeque T) := do
  if d.isContiguous then
    return d
  else
    let len := d.len
    let free ← sub d.tail d.head
    let tailLen ← sub d.cap d.tail
    if tailLen ≤ free then
      let d ← d.copy tailLen 0 d.head
      let d ← d.copyNonoverlapping 0 d.tail tailLen
      return { d with tail := 0, head := len }
    else if d.head < free then
      let d ← d.copy d.head d.tail tailLen
      let d ← d.copyNonoverlapping (d.head + tailLen) 0 d.head
      let d := { d with tail := d.head }
      return { d with head := d.wrapAdd d.tail len }
    else
      let d ← swapPasses len d.cap d 0 d.tail
      return { d with tail := 0, head := len }

end

/-- The largest `usize`. -/
def usizeMax : Nat := usizeValues - 1

/-- No allocation has more bytes. -/
def isizeMax : Nat := 2 ^ 63 - 1

/-- A `Vec`, with the number that `capacity()` returns. -/
structure Vec (T : Type) where
  slot : Slots T
  cap : Nat
  len : Nat

def Vec.reserveExact (size : Nat) (v : Vec T) (len additional : Nat) : Outcome (Vec T) :=
  if wrappingSub v.cap len < additional then
    if size = 0 then panic
    else do
      allocate (isizeMax / size) (len + additional)
      return { v with
        cap := len + additional
        slot := fun p => if p < v.cap then v.slot p else none }
  else pure v

section
variable {d : VecDeque T} {goal : Slots T} {left right k : Nat}

/-- After `k` swaps of a pass: the window is in its final place up to the next swap, and the
store at the end of the buffer holds what comes next, turned around. -/
structure Passed (slot goal : Slots T) (cap left right k : Nat) : Prop where
  done : ∀ p, p < left + k → slot p = goal p
  window : ∀ p, left + k ≤ p → p < right → slot p = goal (p + (cap - right))
  store : ∀ t, t < cap - right → slot (right + (k + t) % (cap - right)) = goal (left + k + t)

lemma Passed.swap {slot : Slots T} {cap : Nat} (passed : Passed slot goal cap left right k)
    (inside : left + k < right) (room : right < cap) :
    Passed (SliceMemory.swapAt slot (left + k) (right + k % (cap - right))) goal cap left right
      (k + 1) := by
  constructor
  · intro p hp
    by_cases last : p = left + k
    · subst last
      have next := passed.store 0 (Nat.sub_pos_of_lt room)
      rw [SliceMemory.swapAt_left]
      exact next
    · rw [SliceMemory.swapAt_of_ne _ last (by omega)]
      exact passed.done p (by omega)
  · intro p above below
    rw [SliceMemory.swapAt_of_ne _ (by omega) (by omega)]
    exact passed.window p (by omega) below
  · intro t ht
    by_cases last : t + 1 = cap - right
    · have turn : (k + 1 + t) % (cap - right) = k % (cap - right) := by
        rw [add_assoc, add_comm 1 t, last, Nat.add_mod_right]
      have moved := passed.window (left + k) le_rfl inside
      rw [turn, SliceMemory.swapAt_right, moved]
      congr 1
      omega
    · have next := passed.store (t + 1) (by omega)
      have other : (k + 1 + t) % (cap - right) ≠ k % (cap - right) := by
        intro same
        have zero := Nat.sub_mod_eq_zero_of_mod_eq same
        rw [Nat.mod_eq_of_lt (by omega)] at zero
        omega
      rw [SliceMemory.swapAt_of_ne _ (by omega) (by omega), add_assoc k 1 t, add_comm 1 t, next]
      congr 1
      omega

/-- A pass over a window that is not empty. -/
lemma swapLoop_spec (n rightOffset : Nat)
    (passed : Passed d.slot goal d.cap left right k) (ends : left + k + n = right)
    (room : right < d.cap) :
    ∃ slot off,
      swapLoop left right n d (left + k) rightOffset = .ok ({ d with slot := slot }, off) ∧
      Passed slot goal d.cap left right (k + n) ∧
      off = if n = 0 then rightOffset else (k + n - 1) % (d.cap - right) := by
  induction n generalizing d k rightOffset with
  | zero => exact ⟨d.slot, rightOffset, rfl, passed, rfl⟩
  | succ n ih =>
    have offset := Nat.mod_lt k (Nat.sub_pos_of_lt room)
    let d' : VecDeque T :=
      { d with slot := SliceMemory.swapAt d.slot (left + k) (right + k % (d.cap - right)) }
    have next : Passed d'.slot goal d'.cap left right (k + 1) := passed.swap (by omega) room
    obtain ⟨slot, off, runs, passed', last⟩ := ih (k % (d.cap - right)) next (by omega) room
    refine ⟨slot, off, ?_, ?_, ?_⟩
    · rw [swapLoop, sub, if_pos (le_of_lt room)]
      change (assert (d.cap - right ≠ 0) >>= _) = _
      rw [assert, if_pos (Nat.sub_ne_zero_of_lt room)]
      simp only [Nat.add_sub_cancel_left]
      rw [check, if_pos (by omega)]
      rw [check, if_pos (by omega)]
      exact runs
    · rw [add_assoc, add_comm 1 n] at passed'
      exact passed'
    · rw [last]
      split
      · subst n
        rfl
      · congr 1
        omega

/-- The store is the window of the next pass and what is left of the store. -/
lemma Passed.next {slot : Slots T} {cap w : Nat} (passed : Passed slot goal cap left right w)
    (whole : left + w = right) (some : 0 < w) (room : right < cap) :
    Passed slot goal cap right (right + ((w - 1) % (cap - right) + 1)) 0 := by
  generalize last : (w - 1) % (cap - right) = o
  have below : o < cap - right := last ▸ Nat.mod_lt _ (Nat.sub_pos_of_lt room)
  have turn (t : Nat) : (w + t) % (cap - right) = (o + 1 + t) % (cap - right) := by
    have split : w + t = w - 1 + (1 + t) := by omega
    rw [split, ← last, add_assoc, Nat.mod_add_mod]
  constructor
  · intro p hp
    exact passed.done p (by omega)
  · intro p above hp
    -- the slots up to the last swap are those that come last
    have held := passed.store (p - right + (cap - right - (o + 1))) (by omega)
    have back : (o + 1 + (p - right + (cap - right - (o + 1)))) % (cap - right) = p - right := by
      have split : o + 1 + (p - right + (cap - right - (o + 1))) = p - right + (cap - right) := by
        omega
      rw [split, Nat.add_mod_right, Nat.mod_eq_of_lt (by omega)]
    rw [turn, back, Nat.add_sub_cancel' (by omega)] at held
    rw [held]
    congr 1
    omega
  · intro t ht
    have held := passed.store t (by omega)
    rw [turn, Nat.mod_eq_of_lt (by omega)] at held
    rw [zero_add, Nat.mod_eq_of_lt ht, add_assoc, held]
    congr 1
    omega

lemma swapPasses_spec {len : Nat} (fuel : Nat) (passed : Passed d.slot goal d.cap left right 0)
    (window : left < right) (room : right ≤ d.cap) (enough : d.cap < right + fuel)
    (short : len ≤ d.cap) :
    ∃ slot, swapPasses len fuel d left right = .ok { d with slot := slot } ∧
      ∀ p < len, slot p = goal p := by
  induction fuel generalizing d left right with
  | zero => omega
  | succ fuel ih =>
    by_cases more : left < len ∧ right ≠ d.cap
    · have room : right < d.cap := Nat.lt_of_le_of_ne room more.2
      obtain ⟨slot, off, runs, passed', last⟩ :=
        swapLoop_spec (right - left) 0 passed (by omega) room
      rw [if_neg (by omega)] at last
      have next := passed'.next (by omega) (by omega) room
      rw [← last] at next
      have below : off < d.cap - right := last ▸ Nat.mod_lt _ (Nat.sub_pos_of_lt room)
      obtain ⟨slot', rest, final⟩ := ih (d := { d with slot := slot }) next (by omega)
        (by dsimp only; omega) (by dsimp only; omega) short
      refine ⟨slot', ?_, final⟩
      rw [swapPasses, if_pos more, sub, if_pos (le_of_lt window)]
      change (swapLoop left right (right - left) d left 0 >>= _) = _
      rw [add_zero] at runs
      rw [runs]
      rw [Nat.add_sub_cancel' (le_of_lt window)]
      exact rest
    · refine ⟨d.slot, ?_, ?_⟩
      · rw [swapPasses, if_neg more]
        rfl
      · intro p hp
        by_cases before : p < left
        · exact passed.done p before
        · have full : right = d.cap := by omega
          have there := passed.window p (by omega) (by omega)
          rw [full, Nat.sub_self] at there
          exact there

end

section
variable {d : VecDeque T} {l : List T} {size : Nat}

lemma Rep.straight (rep : Rep d l) {tail : Nat} {slot : Slots T} (free : tail + l.length < d.cap)
    (same : ∀ k < l.length, slot (tail + k) = d.slot (place d.cap d.tail k)) :
    Rep { d with tail := tail, head := tail + l.length, slot := slot } l := by
  refine ⟨rep.power, rep.bound, ?_, ?_, rep.free, ?_⟩
  · exact lt_of_le_of_lt (Nat.le_add_right _ _) free
  · exact (if_pos free).symm
  · apply rep.holds.congr
    intro k hk
    dsimp only
    rw [place, if_pos (by omega)]
    exact same k hk

lemma place_wrapped {cap tail k : Nat} (tail_lt : tail < cap) :
    place cap tail k = if k < cap - tail then tail + k else k - (cap - tail) := by
  rw [place]
  split <;> split <;> omega

/-- Too little room to copy: the passes turn the buffer around. -/
lemma Rep.swapPasses (rep : Rep d l) (wraps : d.head + d.cap = d.tail + l.length) :
    ∃ slot, swapPasses l.length d.cap d 0 d.tail = .ok { d with slot := slot } ∧
      ∀ k < l.length, slot k = d.slot (place d.cap d.tail k) := by
  have tail_lt := rep.tail_lt
  have free := rep.free
  have start : Passed d.slot (fun p => d.slot (place d.cap d.tail p)) d.cap 0 d.tail 0 := by
    constructor
    · intro p hp
      cases hp
    · intro p _ hp
      rw [place_wrapped tail_lt, if_neg (by omega), Nat.add_sub_cancel]
    · intro t ht
      rw [Nat.zero_add, Nat.mod_eq_of_lt ht, place_wrapped tail_lt, if_pos ht]
  exact swapPasses_spec d.cap start (by omega) (le_of_lt tail_lt) (by omega)
    (le_of_lt free)

lemma Rep.makeContiguous (rep : Rep d l) :
    ∃ d', d.makeContiguous = .ok d' ∧ Rep d' l ∧ d'.cap = d.cap ∧ d'.tail + l.length = d'.head := by
  have tail_lt := rep.tail_lt
  have free := rep.free
  by_cases contiguous : d.isContiguous
  · refine ⟨d, ?_, rep, rfl, rep.isContiguous_iff.mp contiguous⟩
    rw [VecDeque.makeContiguous, if_pos contiguous]
    rfl
  have wraps := rep.wraps (Bool.eq_false_iff.mpr contiguous)
  rw [VecDeque.makeContiguous, if_neg contiguous, rep.len_eq, sub, if_pos (by omega)]
  rw [sub, if_pos (by omega)]
  change ∃ d', (if d.cap - d.tail ≤ d.tail - d.head then _ else _) = _ ∧ _
  by_cases wide : d.cap - d.tail ≤ d.tail - d.head
  · -- the head is shifted, and the tail goes before it
    refine ⟨{ d with
      tail := 0
      head := 0 + l.length
      slot := move 0 d.tail (d.cap - d.tail) (move (d.cap - d.tail) 0 d.head d.slot) }, ?_, ?_, ?_⟩
    · rw [if_pos wide, copy_eq (by omega) (by omega)]
      change (copyNonoverlapping _ 0 d.tail (d.cap - d.tail) >>= _) = _
      rw [copyNonoverlapping_eq (by dsimp only; omega) (by dsimp only; omega) (by omega)]
      rw [zero_add]
      rfl
    · apply rep.straight (by omega)
      grind [move]
    · exact ⟨rfl, rfl⟩
  rw [if_neg wide]
  by_cases room : d.head < d.tail - d.head
  · -- the tail is shifted, and the head goes behind it
    refine ⟨{ d with
      tail := d.head
      head := d.head + l.length
      slot := move (d.head + (d.cap - d.tail)) 0 d.head
        (move d.head d.tail (d.cap - d.tail) d.slot) }, ?_, ?_, ?_⟩
    · have head : d.wrapAdd d.head l.length = d.head + l.length := by
        rw [rep.wrapAdd_eq rep.head_lt (le_of_lt free), place, if_pos (by omega)]
      rw [if_pos room, copy_eq (by omega) (by omega)]
      change (copyNonoverlapping _ (d.head + (d.cap - d.tail)) 0 d.head >>= _) = _
      rw [copyNonoverlapping_eq (by dsimp only; omega) (by dsimp only; omega) (by omega), ← head]
      rfl
    · apply rep.straight (by omega)
      grind [move]
    · exact ⟨rfl, rfl⟩
  · obtain ⟨slot, passes, same⟩ := rep.swapPasses wraps
    refine ⟨{ d with tail := 0, head := 0 + l.length, slot := slot }, ?_, ?_, rfl, rfl⟩
    · rw [if_neg room, passes, zero_add]
      rfl
    · apply rep.straight (by omega)
      intro k hk
      rw [zero_add]
      exact same k hk

end

/-- Whatever the layout, all elements are afterwards in the first slice, in their order. -/
theorem make_contiguous_straightens {d : VecDeque T} {l : List T} (rep : Rep d l) :
    ∃ d', d.makeContiguous = .ok d' ∧ Rep d' l ∧ d'.cap = d.cap ∧ d'.tail ≤ d'.head ∧
      d'.asSlices = .ok ((d'.tail, l.length), (0, 0)) ∧
      ∀ k, d'.tail + k < d'.head → d'.slot (d'.tail + k) = l[k]? := by
  obtain ⟨d', done, rep', cap, straight⟩ := rep.makeContiguous
  have contiguous : d'.isContiguous := rep'.isContiguous_iff.mpr straight
  have inside := rep'.head_lt
  refine ⟨d', done, rep', cap, by omega, ?_, ?_⟩
  · rw [VecDeque.asSlices, if_pos contiguous, assert, if_pos inside.le, ← straight,
      Nat.add_sub_cancel_left]
    rfl
  · intro k before
    rw [← rep'.holds k (by omega), place, if_pos (by omega)]

theorem make_contiguous_across :
    ∃ d', across.makeContiguous = .ok d' ∧ Rep d' [6, 7, 0, 1, 2] ∧ d'.tail ≤ d'.head := by
  obtain ⟨d', done, rep, -, order, -⟩ := make_contiguous_straightens rep_across
  exact ⟨d', done, rep, order⟩

section
variable {d : VecDeque T} {v : Vec T} {l : List T} {size : Nat}

/-- A `Vec` of elements of this size that holds `l`. -/
structure Vec.Lists (size : Nat) (v : Vec T) (l : List T) : Prop where
  len : v.len = l.length
  room : v.len ≤ v.cap
  capacity : if size = 0 then v.cap = usizeMax else v.cap * size ≤ isizeMax
  holds : ∀ k, k < l.length → v.slot k = l[k]?

end

/-- A `Vec` of elements without a size. -/
def units (n : Nat) : Vec Unit where
  slot _ := some ()
  cap := usizeMax
  len := n

end VecDeque
