import BpfSysroot.VecDequeSpecs

/-!
# `VecDeque::shrink_to`

Also for elements of zero size. These take no room in the buffer: a read at any position gives
the same, and `cap` is a constant that shrinking the buffer does not change. The elements are
moved below the new capacity by three cases; for elements of zero size two of them place `head`
or `tail` for a ring that is smaller than the one they are read in.
-/

open Allocating Allocating.Outcome RingMemory List

namespace VecDeque

variable {T : Type}

/-- The number of bits that are set in a `usize`. -/
def countOnes (n : Nat) : Nat := ((range 64).filter n.testBit).length

section
variable (d : VecDeque T)

/-- `RawVec::shrink_to_fit`, which returns at once where there is no allocation. -/
def shrinkBuf (size amount : Nat) : VecDeque T :=
  if size = 0 then d
  else { d with cap := amount, slot := fun p => if p < amount then d.slot p else none }

/-- Moves the elements below the target capacity. -/
def relocate (targetCap : Nat) : Outcome (VecDeque T) := do
  if targetCap ≤ d.tail ∧ (d.head = 0 ∨ targetCap ≤ d.head) then
    let d' ← d.copyNonoverlapping 0 d.tail d.len
    return { d' with head := d.len, tail := 0 }
  else if d.tail ≠ 0 ∧ d.tail < targetCap ∧ (d.head = 0 ∨ targetCap ≤ d.head) then
    let len := d.wrapSub d.head targetCap
    let d ← d.copyNonoverlapping 0 targetCap len
    let d := { d with head := len }
    check (d.head < d.tail)
    return d
  else if targetCap ≤ d.tail then
    check (d.wrapSub d.head 1 < targetCap)
    let len ← sub d.cap d.tail
    let newTail ← sub targetCap len
    let d ← d.copyNonoverlapping newTail d.tail len
    let d := { d with tail := newTail }
    check (d.head < d.tail)
    return d
  else
    return d

/-- One more slot than the elements or the minimum need. -/
def targetCap (minCapacity : Nat) : Nat :=
  nextPowerOfTwo (max (max minCapacity d.len + 1) (minimumCapacity + 1))

/-- `size` is the size of an element. -/
def shrinkTo (size minCapacity : Nat) : Outcome (VecDeque T) := do
  assert (minCapacity ≤ d.capacity)
  if d.targetCap minCapacity < d.cap then
    let d' ← d.relocate (d.targetCap minCapacity)
    let d' := d'.shrinkBuf size (d.targetCap minCapacity)
    check (d'.head < d'.cap)
    check (d'.tail < d'.cap)
    check (countOnes d'.cap = 1)
    return d'
  else
    return d

end

/-- A deque of elements of this size that holds `l`. -/
structure Layout (size : Nat) (d : VecDeque T) (l : List T) : Prop where
  rep : Rep d l
  zero : size = 0 → d.cap = maxCapacity ∧ ∀ p q, d.slot p = d.slot q

/-- The elements lie around the target capacity, at a place from where they are moved in part. -/
def Splits (d : VecDeque T) (targetCap : Nat) : Prop :=
  d.tail ≠ 0 ∧ d.tail < targetCap ∧ (d.head = 0 ∨ targetCap ≤ d.head) ∨
    targetCap ≤ d.tail ∧ d.head ≠ 0 ∧ d.head < targetCap

section
variable {d : VecDeque T} {l : List T} {target : Nat}

lemma copyNonoverlapping_eq {dst src len : Nat} (hdst : dst + len ≤ d.cap)
    (hsrc : src + len ≤ d.cap) (apart : dst + len ≤ src ∨ src + len ≤ dst) :
    d.copyNonoverlapping dst src len = .ok { d with slot := move dst src len d.slot } := by
  rw [copyNonoverlapping, check, if_pos hdst, check, if_pos hsrc, check, if_pos apart]
  rfl

/-- The ring of the target capacity. -/
structure Relocated (d : VecDeque T) (target : Nat) (l : List T) (d' : VecDeque T) : Prop where
  cap : d'.cap = d.cap
  tail_lt : d'.tail < target
  head_eq : d'.head = place target d'.tail l.length
  holds : Holds d'.slot target d'.tail l
  wraps : target ≤ d'.tail + l.length ↔ Splits d target

variable (rep : Rep d l)
include rep

lemma Rep.relocate_all (room : l.length < target)
    (beyond : target ≤ d.tail ∧ (d.head = 0 ∨ target ≤ d.head)) :
    ∃ d', d.relocate target = .ok d' ∧ Relocated d target l d' := by
  have tail_lt := rep.tail_lt
  have head_eq := rep.head_eq
  have inside : d.tail + l.length ≤ d.cap := by
    rw [place] at head_eq
    split at head_eq <;> omega
  refine ⟨{ d with slot := move 0 d.tail l.length d.slot, head := l.length, tail := 0 }, ?_, ?_⟩
  · rw [VecDeque.relocate, if_pos beyond, rep.len_eq,
      copyNonoverlapping_eq (by omega) (by omega) (by omega)]
    rfl
  · constructor
    · rfl
    · exact lt_of_le_of_lt (Nat.zero_le _) room
    · dsimp only
      rw [place, if_pos (by omega), zero_add]
    · apply rep.holds.congr
      intro k hk
      dsimp only
      rw [place, if_pos (by omega), place, if_pos (by omega), move, if_pos (by omega)]
      congr 1
      omega
    · dsimp only [Splits]
      omega

variable (twice : 2 * target ≤ d.cap)
include twice

variable (room : l.length < target)
include room

/-- The end of the piece goes to the start of the buffer. -/
lemma Rep.relocate_end (across : d.tail ≠ 0 ∧ d.tail < target ∧ (d.head = 0 ∨ target ≤ d.head)) :
    ∃ d', d.relocate target = .ok d' ∧ Relocated d target l d' := by
  have head_eq := rep.head_eq
  have head_lt := rep.head_lt
  have inside : d.head = d.tail + l.length ∧ target ≤ d.head := by
    rw [place] at head_eq
    split at head_eq <;> omega
  have length : d.wrapSub d.head target = d.head - target := by
    rw [rep.wrapSub_eq head_lt (by omega), place, if_neg (by omega)]
    omega
  have copies : d.copyNonoverlapping 0 target (d.head - target) =
      .ok { d with slot := move 0 target (d.head - target) d.slot } :=
    copyNonoverlapping_eq (by omega) (by omega) (by omega)
  refine ⟨{ d with slot := move 0 target (d.head - target) d.slot, head := d.head - target },
    ?_, ?_⟩
  · have less : d.head - target < d.tail := by omega
    rw [VecDeque.relocate, if_neg (by omega), if_pos across, length]
    simp only [copies]
    change (check (d.head - target < d.tail) >>= _) = _
    rw [check, if_pos less]
    rfl
  · constructor
    · rfl
    · exact across.2.1
    · dsimp only
      rw [place, if_neg (by omega)]
      omega
    · apply rep.holds.congr
      grind [move, place]
    · dsimp only [Splits]
      omega

/-- The first of two pieces goes to the end of the target capacity. -/
lemma Rep.relocate_start (wrapped : target ≤ d.tail ∧ d.head ≠ 0 ∧ d.head < target) :
    ∃ d', d.relocate target = .ok d' ∧ Relocated d target l d' := by
  have head_eq := rep.head_eq
  have tail_lt := rep.tail_lt
  have around : d.head + d.cap = d.tail + l.length := by
    rw [place] at head_eq
    split at head_eq <;> omega
  have before : d.wrapSub d.head 1 < target := by
    rw [rep.wrapSub_eq rep.head_lt (by omega), place, if_neg (by omega)]
    omega
  have copies : d.copyNonoverlapping (target - (d.cap - d.tail)) d.tail (d.cap - d.tail) =
      .ok { d with slot := move (target - (d.cap - d.tail)) d.tail (d.cap - d.tail) d.slot } :=
    copyNonoverlapping_eq (by omega) (by omega) (by omega)
  refine ⟨{ d with
      slot := move (target - (d.cap - d.tail)) d.tail (d.cap - d.tail) d.slot
      tail := target - (d.cap - d.tail) }, ?_, ?_⟩
  · have less : d.head < target - (d.cap - d.tail) := by omega
    rw [VecDeque.relocate, if_neg (by omega), if_neg (by omega), if_pos wrapped.1, check,
      if_pos before]
    rw [sub, if_pos (by omega)]
    change (sub target (d.cap - d.tail) >>= _) = _
    rw [sub, if_pos (by omega)]
    change (d.copyNonoverlapping (target - (d.cap - d.tail)) d.tail (d.cap - d.tail) >>= _) = _
    rw [copies]
    change (check (d.head < target - (d.cap - d.tail)) >>= _) = _
    rw [check, if_pos less]
    rfl
  · constructor
    · rfl
    · dsimp only
      omega
    · dsimp only
      rw [place, if_neg (by omega)]
      omega
    · apply rep.holds.congr
      intro k hk
      dsimp only
      grind [move, place]
    · dsimp only [Splits]
      omega

lemma Rep.relocate : ∃ d', d.relocate target = .ok d' ∧ Relocated d target l d' := by
  by_cases beyond : target ≤ d.tail ∧ (d.head = 0 ∨ target ≤ d.head)
  · exact rep.relocate_all room beyond
  by_cases across : d.tail ≠ 0 ∧ d.tail < target ∧ (d.head = 0 ∨ target ≤ d.head)
  · exact rep.relocate_end twice room across
  by_cases wrapped : target ≤ d.tail
  · exact rep.relocate_start twice room (by omega)
  -- everything is below the target capacity already
  have head_eq := rep.head_eq
  have inside : d.tail + l.length < target ∧ d.tail + l.length < d.cap := by
    rw [place] at head_eq
    split at head_eq <;> omega
  refine ⟨d, ?_, ?_⟩
  · rw [VecDeque.relocate, if_neg beyond, if_neg across, if_neg wrapped]
    rfl
  · constructor
    · rfl
    · omega
    · rw [head_eq, place, if_pos inside.2, place, if_pos inside.1]
    · apply rep.holds.congr
      intro k hk
      rw [place, if_pos (by omega), place, if_pos (by omega)]
    · dsimp only [Splits]
      omega

end

section
variable {d d' : VecDeque T} {l : List T} {size target minCapacity : Nat}

lemma Cap.countOnes_eq {cap : Nat} (h : Cap cap) : countOnes cap = 1 := by
  obtain ⟨e, rfl⟩ := h.power
  have bound : 2 ^ e ≤ 2 ^ 63 := h.bound
  have below : e ≤ 63 := (Nat.pow_le_pow_iff_right (by decide)).mp bound
  have member : e ∈ range 64 := mem_range.mpr (by omega)
  have bits : (2 ^ e).testBit = (· == e) := by
    funext i
    rw [Nat.testBit_two_pow, Bool.eq_iff_iff, decide_eq_true_iff, beq_iff_eq]
    exact eq_comm
  rw [countOnes, bits, filter_beq, length_replicate]
  exact count_eq_one_of_mem nodup_range member

/-- What the deque is as a sequence, and where it lies. -/
structure Unchanged (d d' : VecDeque T) : Prop where
  len : d'.len = d.len
  get : ∀ index, d'.get index = d.get index
  head : d'.head < d'.cap
  tail : d'.tail < d'.cap
  room : d'.len + 1 ≤ d'.cap

lemma Rep.unchanged (rep : Rep d l) (rep' : Rep d' l) : Unchanged d d' where
  len := by rw [rep.len_eq, rep'.len_eq]
  get index := by rw [rep.get, rep'.get]
  head := rep'.head_lt
  tail := rep'.tail_lt
  room := by
    rw [rep'.len_eq]
    exact rep'.free

/-- The target is a power of two with room for the elements. -/
lemma Rep.targetCap (rep : Rep d l) (small : minCapacity ≤ d.capacity) :
    Cap (d.targetCap minCapacity) ∧ l.length < d.targetCap minCapacity := by
  have free := rep.free
  have bound := rep.bound
  rw [capacity] at small
  have fits : max (max minCapacity l.length + 1) (minimumCapacity + 1) ≤ maxCapacity := by
    have two : minimumCapacity + 1 ≤ maxCapacity := by decide
    omega
  obtain ⟨cap, enough⟩ := nextPowerOfTwo_cap fits
  rw [VecDeque.targetCap, rep.len_eq]
  exact ⟨cap, by omega⟩

section
variable (moved : Relocated d target l d')
include moved

lemma Relocated.shrinkBuf (cap : Cap target)
    (room : l.length < target) (sized : size ≠ 0) : Rep (d'.shrinkBuf size target) l := by
  rw [VecDeque.shrinkBuf, if_neg sized]
  refine ⟨cap.power, cap.bound, moved.tail_lt, moved.head_eq, room, ?_⟩
  apply moved.holds.congr
  intro k hk
  exact if_pos (place_lt moved.tail_lt (by omega))

/-- Where the ring does not wrap around in the new capacity, it is right in the old one. -/
lemma Relocated.rep (rep : Rep d l) (less : target < d.cap)
    (whole : ¬ Splits d target) : Rep d' l := by
  have inside : d'.tail + l.length < target := Nat.lt_of_not_le (mt moved.wraps.mp whole)
  have head_eq := moved.head_eq
  have cap := moved.cap
  rw [place, if_pos inside] at head_eq
  refine ⟨cap ▸ rep.power, cap ▸ rep.bound, by omega, ?_, cap ▸ rep.free, ?_⟩
  · rw [head_eq, place, if_pos (by omega)]
  · apply moved.holds.congr
    intro k hk
    rw [place, if_pos (by omega), place, if_pos (by omega)]

/-- Where it wraps around, the length is wrong in the old one. -/
lemma Relocated.len_ne (rep : Rep d l) (less : target < d.cap)
    (room : l.length < target) (split : Splits d target) : d'.len ≠ d.len := by
  have around : target ≤ d'.tail + l.length := moved.wraps.mpr split
  have tail_lt := moved.tail_lt
  have head_eq : d'.head = place d.cap d'.tail (d.cap - target + l.length) := by
    rw [moved.head_eq, place, if_neg (by omega), place, if_neg (by omega)]
    omega
  have longer : d'.len = d.cap - target + l.length := by
    rw [len, moved.cap, head_eq, rep.cap.count_place (by omega) (by omega)]
  rw [rep.len_eq]
  omega

end

lemma shrinkTo_eq (size : Nat) (small : minCapacity ≤ d.capacity)
    (less : d.targetCap minCapacity < d.cap) (moves : d.relocate (d.targetCap minCapacity) = .ok d')
    (head : (d'.shrinkBuf size (d.targetCap minCapacity)).head <
      (d'.shrinkBuf size (d.targetCap minCapacity)).cap)
    (tail : (d'.shrinkBuf size (d.targetCap minCapacity)).tail <
      (d'.shrinkBuf size (d.targetCap minCapacity)).cap)
    (cap : Cap (d'.shrinkBuf size (d.targetCap minCapacity)).cap) :
    d.shrinkTo size minCapacity = .ok (d'.shrinkBuf size (d.targetCap minCapacity)) := by
  rw [shrinkTo, Outcome.assert, if_pos small]
  rw [if_pos less, moves]
  change (check _ >>= _) = _
  rw [check, if_pos head]
  rw [check, if_pos tail]
  rw [check, if_pos cap.countOnes_eq]
  rfl

/-- A deque is the same sequence afterwards, unless its elements have no size and lie around the
target capacity. -/
theorem shrinkTo_unchanged_iff {T : Type} (size : Nat) (d : VecDeque T) (l : List T)
    (minCapacity : Nat) (layout : Layout size d l) (small : minCapacity ≤ d.capacity) :
    (∃ d', d.shrinkTo size minCapacity = .ok d' ∧ Unchanged d d') ↔
      (size = 0 → d.targetCap minCapacity < d.cap → ¬ Splits d (d.targetCap minCapacity)) := by
  have rep := layout.rep
  obtain ⟨cap, room⟩ := rep.targetCap small
  by_cases less : d.targetCap minCapacity < d.cap
  · obtain ⟨d', moves, moved⟩ := rep.relocate (cap.twice_le rep.cap less) room
    by_cases sized : size = 0
    · have same : d'.shrinkBuf size (d.targetCap minCapacity) = d' := if_pos sized
      have head_lt := place_lt moved.tail_lt (le_of_lt room)
      have done := shrinkTo_eq size small less moves
      rw [same, moved.head_eq, moved.cap] at done
      have done := done (by omega) (lt_trans moved.tail_lt less) rep.cap
      constructor
      · rintro ⟨d'', done', unchanged⟩ - - split
        cases done.symm.trans done'
        exact moved.len_ne rep less room split unchanged.len
      · intro whole
        exact ⟨d', done, rep.unchanged (moved.rep rep less (whole sized less))⟩
    · have rep' := moved.shrinkBuf cap room sized
      have done := shrinkTo_eq size small less moves rep'.head_lt rep'.tail_lt rep'.cap
      exact ⟨fun _ none => absurd none sized, fun _ => ⟨_, done, rep.unchanged rep'⟩⟩
  · have done : d.shrinkTo size minCapacity = .ok d := by
      rw [shrinkTo, Outcome.assert, if_pos small]
      rw [if_neg less]
      rfl
    exact ⟨fun _ _ other => absurd other less, fun _ => ⟨d, done, rep.unchanged rep⟩⟩

end

/-- A deque with one element that has no size. -/
def oneUnit (tail : Nat) : VecDeque Unit where
  tail := tail
  head := tail + 1
  cap := maxCapacity
  slot _ := some ()

lemma layout_oneUnit {tail : Nat} (less : tail + 1 < maxCapacity) :
    Layout 0 (oneUnit tail) [()] := by
  constructor
  · refine ⟨⟨63, rfl⟩, le_rfl, Nat.lt_of_succ_lt less, (if_pos less).symm,
      lt_of_le_of_lt (Nat.le_add_left 1 tail) less, ?_⟩
    intro k hk
    obtain rfl : k = 0 := Nat.lt_one_iff.mp hk
    rfl
  · exact fun _ => ⟨rfl, fun _ _ => rfl⟩

/-- The deque is what `push_back`, `push_back` and `pop_front` leave of an empty one, and its
length becomes `2 ^ 63 - 1`. -/
theorem shrinkTo_oneUnit :
    (do
      let d ← pushBack { tail := 0, head := 0, cap := maxCapacity, slot := fun _ => some () } ()
      let d ← d.pushBack ()
      let (_, d) ← d.popFront
      return (d.tail, d.head, d.cap) : Outcome (Nat × Nat × Nat)) =
        .ok ((oneUnit 1).tail, (oneUnit 1).head, (oneUnit 1).cap) ∧
    Layout 0 (oneUnit 1) [()] ∧ 0 ≤ (oneUnit 1).capacity ∧
    (do
      let d ← (oneUnit 1).shrinkTo 0 0
      return ((oneUnit 1).len, d.len) : Outcome (Nat × Nat)) = .ok (1, 2 ^ 63 - 1) := by
  refine ⟨?_, layout_oneUnit ?_, Nat.zero_le _, ?_⟩
  · decide +kernel
  · decide
  · decide +kernel

/-- The last elements are at the start of the buffer. -/
def wrapped : VecDeque Nat := ⟨13, 2, 16, fun p => some p⟩

theorem shrinkTo_unchanged_of_wrapped :
    wrapped.targetCap 0 = 8 ∧ ∃ d', wrapped.shrinkTo 8 0 = .ok d' ∧ Unchanged wrapped d' := by
  have rep : Rep wrapped [13, 14, 15, 0, 1] :=
    ⟨⟨4, rfl⟩, by decide, by decide, rfl, by decide, (by decide : ∀ k < 5, _)⟩
  exact ⟨by decide, (shrinkTo_unchanged_iff 8 wrapped _ 0 ⟨rep, by simp⟩ (Nat.zero_le _)).mpr
    (by simp)⟩

end VecDeque
