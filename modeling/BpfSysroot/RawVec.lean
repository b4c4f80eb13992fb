import Mathlib

/-!
# `RawVec`

`alloc/src/raw_vec.rs` with the layouts of `core/src/alloc/layout.rs`, on a
64-bit target. An allocator is an oracle: it refuses a request or grants a block
at least as large. Plain arithmetic that would wrap around, and calls that break
the allocator's contract, have no result here. The model keeps the size of the
current block, which the program itself does not know.
-/

namespace RawVec

open Option

def usizeBits : Nat := 64

def usizeValues : Nat := 2 ^ usizeBits

def isizeMax : Nat := 2 ^ (usizeBits - 1) - 1

section
variable (a b : Nat)

/-- Plain addition, which must not wrap around. -/
def add : Option Nat := if a + b < usizeValues then some (a + b) else none

/-- Plain multiplication, which must not wrap around. -/
def mul : Option Nat := if a * b < usizeValues then some (a * b) else none

def checkedAdd : Option Nat := if a + b < usizeValues then some (a + b) else none

def checkedMul : Option Nat := if a * b < usizeValues then some (a * b) else none

def wrappingAdd : Nat := (a + b) % usizeValues

def wrappingSub : Nat := (a + usizeValues - b) % usizeValues

end

def complement (a : Nat) : Nat := usizeValues - 1 - a

/-- A condition that callers must establish. -/
def require (p : Prop) [Decidable p] : Option Unit := if p then some () else none

structure Layout where
  size : Nat
  align : Nat
  deriving DecidableEq

/-- The size and the alignment of an element type. -/
structure Elem where
  size : Nat
  align : Nat
  size_lt : size < usizeValues
  align_power : ∃ e, e < 64 ∧ align = 2 ^ e
  align_dvd : align ∣ size

namespace Layout

/-- `from_size_align`, for an alignment that is a power of two. -/
def fromSizeAlign (size align : Nat) : Option Layout :=
  if usizeValues - 1 - (align - 1) < size then none else some ⟨size, align⟩

def paddingNeededFor (l : Layout) (align : Nat) : Nat :=
  let lenRoundedUp := wrappingSub (wrappingAdd l.size align) 1 &&& complement (wrappingSub align 1)
  wrappingSub lenRoundedUp l.size

/-- The inner option is the unwrapped result of `from_size_align`. -/
def padToAlign (l : Layout) : Option Layout := do
  let newSize ← add l.size (l.paddingNeededFor l.align)
  fromSizeAlign newSize l.align

/-- No result is a wrap-around; the inner one is a layout error. -/
def repeat_ (l : Layout) (n : Nat) : Option (Option (Layout × Nat)) := do
  let paddedSize ← add l.size (l.paddingNeededFor l.align)
  match checkedMul paddedSize n with
  | none => return none
  | some allocSize => return some (⟨allocSize, l.align⟩, paddedSize)

def array (t : Elem) (n : Nat) : Option (Option Layout) := do
  match ← repeat_ ⟨t.size, t.align⟩ n with
  | none => return none
  | some (layout, offset) =>
    require (offset = t.size)
    return some (← layout.padToAlign)

end Layout

/-- A block that an allocator hands out for a request of some size. It may be larger than
requested, but no block has more than `isize::MAX` bytes. -/
structure Grant (requested : Nat) where
  ptr : Nat
  size : Nat
  enough : requested ≤ size
  bounded : size ≤ isizeMax

/-- An allocator's answers; requests above `isize::MAX` bytes must fail. -/
abbrev Allocator := (l : Layout) → Option (Grant l.size)

inductive TryReserveError
  | capacityOverflow
  | allocError (layout : Layout)
  deriving DecidableEq

end RawVec

/-- The pointer and the capacity; also what was requested for the current block and its size. -/
structure RawVec where
  ptr : Nat
  cap : Nat
  requested : Nat
  size : Nat
  deriving DecidableEq

namespace RawVec

section
variable (t : Elem) (alloc : Allocator) (v : RawVec)

/-- The pointer dangles and nothing is allocated. -/
def new : RawVec := ⟨t.align, 0, 0, 0⟩

def capacity : Nat := if t.size = 0 then usizeValues - 1 else v.cap

def currentMemory : Option (Option (Nat × Layout)) := do
  if t.size = 0 ∨ v.cap = 0 then
    return none
  else
    return some (v.ptr, ⟨← mul t.size v.cap, t.align⟩)

section
variable (len additional : Nat)

def needsToGrow : Prop := wrappingSub (capacity t v) len < additional

instance (len additional : Nat) : Decidable (needsToGrow t v len additional) :=
  inferInstanceAs (Decidable (_ < _))

/-- An excess of the block counts, too. -/
def capacityFromBytes (excess : Nat) : Option Nat := do
  require (t.size ≠ 0)
  return excess / t.size

def setPtr {requested : Nat} (block : Grant requested) : Option RawVec := do
  return ⟨block.ptr, ← capacityFromBytes t block.size, requested, block.size⟩

def allocGuard (allocSize : Nat) : Except TryReserveError Unit :=
  if usizeBits < 64 ∧ isizeMax < allocSize then .error .capacityOverflow else .ok ()

/-- The layout that a block is resized with must fit it. -/
def fits (ptr : Nat) (old : Layout) : Prop :=
  ptr = v.ptr ∧ v.requested ≤ old.size ∧ old.size ≤ v.size

instance (ptr : Nat) (old : Layout) : Decidable (fits v ptr old) :=
  inferInstanceAs (Decidable (_ ∧ _ ∧ _))

/-- `Allocator::grow`, whose new layout must not be smaller. -/
def grow (ptr : Nat) (old new : Layout) : Option (Option (Grant new.size)) := do
  require (fits v ptr old ∧ old.size ≤ new.size)
  return alloc new

/-- `Allocator::shrink`, whose new layout must not be larger. -/
def shrinkBlock (ptr : Nat) (old new : Layout) : Option (Option (Grant new.size)) := do
  require (fits v ptr old ∧ new.size ≤ old.size)
  return alloc new

def finishGrow (newLayout : Option Layout) (currentMemory : Option (Nat × Layout)) :
    Option (Except TryReserveError ((l : Layout) × Grant l.size)) := do
  match newLayout with
  | none => return .error .capacityOverflow
  | some newLayout =>
    match allocGuard newLayout.size with
    | .error e => return .error e
    | .ok () =>
      let memory ← match currentMemory with
        | some (ptr, oldLayout) => do
          require (oldLayout.align = newLayout.align)
          grow alloc v ptr oldLayout newLayout
        | none => some (alloc newLayout)
      match memory with
      | none => return .error (.allocError newLayout)
      | some block => return .ok ⟨newLayout, block⟩

/-- Both ways to grow end with this: a new block for `cap` elements. -/
def growTo (cap : Nat) : Option (Except TryReserveError RawVec) := do
  let newLayout ← Layout.array t cap
  match ← finishGrow alloc v newLayout (← currentMemory t v) with
  | .error e => return .error e
  | .ok ⟨_, block⟩ => return .ok (← setPtr t block)

def minNonZeroCap : Nat := if t.size = 1 then 8 else if t.size ≤ 1024 then 4 else 1

def growAmortized : Option (Except TryReserveError RawVec) := do
  require (0 < additional)
  if t.size = 0 then
    return .error .capacityOverflow
  else
    match checkedAdd len additional with
    | none => return .error .capacityOverflow
    | some requiredCap =>
      let cap := max (← mul v.cap 2) requiredCap
      growTo t alloc v (max (minNonZeroCap t) cap)

def growExact : Option (Except TryReserveError RawVec) := do
  if t.size = 0 then
    return .error .capacityOverflow
  else
    match checkedAdd len additional with
    | none => return .error .capacityOverflow
    | some cap => growTo t alloc v cap

def tryReserve : Option (Except TryReserveError RawVec) :=
  if needsToGrow t v len additional then growAmortized t alloc v len additional else some (.ok v)

def tryReserveExact : Option (Except TryReserveError RawVec) :=
  if needsToGrow t v len additional then growExact t alloc v len additional else some (.ok v)

end

/-- The assertion is one that callers must establish. -/
def shrink (amount : Nat) : Option (Except TryReserveError RawVec) := do
  require (amount ≤ capacity t v)
  match ← currentMemory t v with
  | none => return .ok v
  | some (ptr, layout) =>
    let newLayout : Layout := ⟨← mul amount t.size, layout.align⟩
    match ← shrinkBlock alloc v ptr layout newLayout with
    | none => return .error (.allocError newLayout)
    | some block => return .ok (← setPtr t block)

/-- `with_capacity`. -/
def allocateIn (capacity : Nat) : Option (Except TryReserveError RawVec) := do
  if t.size = 0 then
    return .ok (new t)
  else
    match ← Layout.array t capacity with
    | none => return .error .capacityOverflow
    | some layout =>
      match allocGuard layout.size with
      | .error e => return .error e
      | .ok () =>
        match alloc layout with
        | none => return .error (.allocError layout)
        | some block => return .ok (← setPtr t block)

end

inductive Op
  | reserve (len additional : Nat)
  | tryReserve (len additional : Nat)
  | reserveExact (len additional : Nat)
  | tryReserveExact (len additional : Nat)
  | shrinkToFit (amount : Nat)

/-- How a call ends; a capacity overflow panics and an allocation error aborts, unless the call
returns them. -/
inductive Reply
  | ok
  | err (e : TryReserveError)
  | panicked
  | aborted (layout : Layout)
  deriving DecidableEq

/-- The result of a `try_` call. -/
def reply (v : RawVec) : Except TryReserveError RawVec → Reply × RawVec
  | .ok v' => (.ok, v')
  | .error e => (.err e, v)

def handleReserve (v : RawVec) : Except TryReserveError RawVec → Reply × RawVec
  | .ok v' => (.ok, v')
  | .error .capacityOverflow => (.panicked, v)
  | .error (.allocError layout) => (.aborted layout, v)

def step (t : Elem) (alloc : Allocator) (v : RawVec) : Op → Option (Reply × RawVec)
  | .reserve len additional => (tryReserve t alloc v len additional).map (handleReserve v)
  | .tryReserve len additional => (tryReserve t alloc v len additional).map (reply v)
  | .reserveExact len additional => (tryReserveExact t alloc v len additional).map (handleReserve v)
  | .tryReserveExact len additional => (tryReserveExact t alloc v len additional).map (reply v)
  | .shrinkToFit amount => (shrink t alloc v amount).map (handleReserve v)

/-- The length that the call is made with. -/
def Op.len : Op → Nat
  | .reserve len _ => len
  | .tryReserve len _ => len
  | .reserveExact len _ => len
  | .tryReserveExact len _ => len
  | .shrinkToFit amount => amount

/-- How many more elements the call asks for. -/
def Op.additional : Op → Nat
  | .reserve _ additional => additional
  | .tryReserve _ additional => additional
  | .reserveExact _ additional => additional
  | .tryReserveExact _ additional => additional
  | .shrinkToFit _ => 0

/-- What runs of calls lead to, each made with a length within the capacity. -/
inductive Reachable (t : Elem) : RawVec → Prop
  | new : Reachable t (new t)
  | withCapacity {alloc capacity v} (h : allocateIn t alloc capacity = some (.ok v)) :
      Reachable t v
  | step {alloc v op r v'} (before : Reachable t v) (inside : op.len ≤ capacity t v)
      (h : step t alloc v op = some (r, v')) : Reachable t v'

lemma and_complement {y e : Nat} (hy : y < usizeValues) (he : e < 64) :
    y &&& complement (2 ^ e - 1) = y / 2 ^ e * 2 ^ e := by
  have positive : 0 < 2 ^ e := Nat.two_pow_pos e
  have mask : complement (2 ^ e - 1) = 2 ^ 64 - (2 ^ e - 1 + 1) := by
    rw [complement, usizeValues, usizeBits]
    omega
  have below : 2 ^ e - 1 < 2 ^ 64 :=
    (Nat.sub_lt positive Nat.one_pos).trans (Nat.pow_lt_pow_right (by decide) he)
  apply Nat.eq_of_testBit_eq
  intro i
  rw [Nat.testBit_and, mask, Nat.testBit_two_pow_sub_succ below,
    Nat.testBit_mul_two_pow, Nat.testBit_div_two_pow]
  by_cases high : i < 64
  · by_cases low : i < e
    · simp [low]
    · have : i - e + e = i := by omega
      simp [high, low, this, Nat.le_of_not_lt low]
  · have outside : y.testBit i = false := by
      apply Nat.testBit_eq_false_of_lt
      exact hy.trans_le (Nat.pow_le_pow_right (by decide) (Nat.le_of_not_lt high))
    have : i - e + e = i := by omega
    simp [outside, this]

lemma size_add_align_le {size e : Nat} (he : e < 64) (hdvd : 2 ^ e ∣ size)
    (hsize : size < usizeValues) : size + 2 ^ e ≤ usizeValues := by
  obtain ⟨k, rfl⟩ := hdvd
  obtain ⟨m, hm⟩ : 2 ^ e ∣ usizeValues := Nat.pow_dvd_pow 2 he.le
  rw [hm] at hsize ⊢
  have : k < m := Nat.lt_of_mul_lt_mul_left hsize
  calc 2 ^ e * k + 2 ^ e = 2 ^ e * (k + 1) := by ring
    _ ≤ 2 ^ e * m := Nat.mul_le_mul_left _ this

/-- A size that is a multiple of the alignment needs no padding. -/
lemma paddingNeededFor_eq_zero {l : Layout} {e : Nat} (he : e < 64) (halign : l.align = 2 ^ e)
    (hdvd : l.align ∣ l.size) (hsize : l.size < usizeValues) : l.paddingNeededFor l.align = 0 := by
  have positive : 0 < 2 ^ e := Nat.two_pow_pos e
  have room : l.size + 2 ^ e ≤ usizeValues := size_add_align_le he (halign ▸ hdvd) hsize
  have rounded : wrappingSub (wrappingAdd l.size (2 ^ e)) 1 = l.size + 2 ^ e - 1 := by
    rw [wrappingSub, wrappingAdd]
    by_cases last : l.size + 2 ^ e = usizeValues
    · rw [last, Nat.mod_self]
      exact Nat.mod_eq_of_lt (by omega)
    · rw [Nat.mod_eq_of_lt (by omega : l.size + 2 ^ e < usizeValues)]
      rw [show l.size + 2 ^ e + usizeValues - 1 = l.size + 2 ^ e - 1 + usizeValues by omega,
        Nat.add_mod_right, Nat.mod_eq_of_lt (by omega)]
  have mask : wrappingSub (2 ^ e) 1 = 2 ^ e - 1 := by
    rw [wrappingSub, show 2 ^ e + usizeValues - 1 = 2 ^ e - 1 + usizeValues by omega,
      Nat.add_mod_right, Nat.mod_eq_of_lt (by omega)]
  have down : (l.size + 2 ^ e - 1) / 2 ^ e * 2 ^ e = l.size := by
    obtain ⟨k, hk⟩ := hdvd
    rw [halign] at hk
    rw [hk, Nat.add_sub_assoc positive, Nat.mul_add_div positive,
      Nat.div_eq_of_lt (Nat.sub_lt positive Nat.one_pos), add_zero, mul_comm]
  rw [Layout.paddingNeededFor, halign, rounded, mask, and_complement (by omega) he, down,
    wrappingSub, Nat.add_sub_cancel_left, Nat.mod_self]

/-- The layout of an array, or an error if its size is not a `usize`. -/
lemma array_eq (t : Elem) (n : Nat) :
    Layout.array t n =
      some (if t.size * n < usizeValues then some ⟨t.size * n, t.align⟩ else none) := by
  obtain ⟨e, he, halign⟩ := t.align_power
  have padded := paddingNeededFor_eq_zero (l := ⟨t.size, t.align⟩) he halign t.align_dvd t.size_lt
  have whole : add t.size 0 = some t.size := if_pos t.size_lt
  rw [Layout.array, Layout.repeat_]
  by_cases fits : t.size * n < usizeValues
  · have hdvd : t.align ∣ t.size * n := t.align_dvd.mul_right n
    have again := paddingNeededFor_eq_zero (l := ⟨t.size * n, t.align⟩) he halign hdvd fits
    have room := size_add_align_le he (halign ▸ hdvd) fits
    have small : ¬ usizeValues - 1 - (t.align - 1) < t.size * n := by
      omega
    have kept : (⟨t.size * n, t.align⟩ : Layout).padToAlign = some ⟨t.size * n, t.align⟩ := by
      simp only [Layout.padToAlign, again, add, add_zero, if_pos fits, Option.bind_eq_bind,
        Option.bind_some, Layout.fromSizeAlign, if_neg small]
    simp [padded, whole, checkedMul, fits, require, kept]
  · simp [padded, whole, checkedMul, fits]

/-- The capacity is that of the current block, and the block's layout can be given back. -/
structure Recorded (t : Elem) (v : RawVec) : Prop where
  size_le : v.size ≤ isizeMax
  cap_eq : t.size ≠ 0 → v.cap = v.size / t.size
  requested_le : t.size ≠ 0 → v.requested ≤ t.size * v.cap

/-- The call returns; if it succeeds, the new state is recorded with room for `n` elements. -/
def Provides (t : Elem) (n : Nat) (r : Option (Except TryReserveError RawVec)) : Prop :=
  ∃ e, r = some e ∧ ∀ v, e = .ok v → Recorded t v ∧ n ≤ capacity t v

variable {t : Elem} {v : RawVec}

lemma Provides.mono {n n' : Nat} {r : Option (Except TryReserveError RawVec)} (h : Provides t n r)
    (less : n' ≤ n) : Provides t n' r := by
  obtain ⟨e, he, all⟩ := h
  exact ⟨e, he, fun v hv => ⟨(all v hv).1, less.trans (all v hv).2⟩⟩

lemma recorded_new : Recorded t (new t) :=
  ⟨Nat.zero_le _, fun _ => (Nat.zero_div _).symm, fun _ => Nat.zero_le _⟩

lemma provides_error (n : Nat) (e : TryReserveError) : Provides t n (some (.error e)) :=
  ⟨.error e, rfl, fun _ h => nomatch h⟩

lemma provides_ok {n : Nat} (h : Recorded t v) (room : n ≤ capacity t v) :
    Provides t n (some (.ok v)) := by
  refine ⟨.ok v, rfl, ?_⟩
  rintro _ ⟨⟩
  exact ⟨h, room⟩

/-- A block for `n` elements is recorded with at least that capacity. -/
lemma provides_setPtr {n : Nat} (ht : t.size ≠ 0) (block : Grant (t.size * n)) :
    Provides t n (do return .ok (← setPtr t block)) := by
  have enough : n ≤ block.size / t.size := by
    rw [Nat.le_div_iff_mul_le (pos_of_ne_zero ht), mul_comm]
    exact block.enough
  have granted : setPtr t block =
      some ⟨block.ptr, block.size / t.size, t.size * n, block.size⟩ := by
    simp [setPtr, capacityFromBytes, require, ht]
  rw [granted]
  apply provides_ok
  · exact ⟨block.bounded, fun _ => rfl, fun _ => Nat.mul_le_mul_left _ enough⟩
  · rw [capacity, if_neg ht]
    exact enough

namespace Recorded
variable (alloc : Allocator)
variable {n len additional : Nat}

section
variable (h : Recorded t v)
include h

lemma size_mul_cap_le (ht : t.size ≠ 0) : t.size * v.cap ≤ v.size := by
  rw [h.cap_eq ht]
  exact Nat.mul_div_le v.size t.size

lemma cap_le (ht : t.size ≠ 0) : v.cap ≤ isizeMax := by
  rw [h.cap_eq ht]
  exact (Nat.div_le_self _ _).trans h.size_le

/-- The size of the current layout does not wrap around. -/
lemma currentMemory_eq : currentMemory t v = some (if t.size = 0 ∨ v.cap = 0 then none
      else some (v.ptr, ⟨t.size * v.cap, t.align⟩)) := by
  rw [currentMemory]
  split
  next => rfl
  next some =>
    rw [not_or] at some
    have below : t.size * v.cap < usizeValues :=
      ((h.size_mul_cap_le some.1).trans h.size_le).trans_lt (by decide)
    simp [mul, below]

lemma fits_current (ht : t.size ≠ 0) : fits v v.ptr ⟨t.size * v.cap, t.align⟩ :=
  ⟨rfl, h.requested_le ht, h.size_mul_cap_le ht⟩

/-- Growing asks the allocator once, within its contract. -/
lemma finishGrow_eq (ht : t.size ≠ 0) (larger : v.cap ≤ n) :
    (do finishGrow alloc v (some ⟨t.size * n, t.align⟩) (← currentMemory t v)) =
      some (match alloc ⟨t.size * n, t.align⟩ with
        | none => .error (.allocError ⟨t.size * n, t.align⟩)
        | some block => .ok ⟨⟨t.size * n, t.align⟩, block⟩) := by
  have guarded : allocGuard (t.size * n) = .ok () := if_neg (fun h => absurd h.1 (by decide))
  have order : t.size * v.cap ≤ t.size * n := Nat.mul_le_mul_left _ larger
  rw [h.currentMemory_eq]
  by_cases unallocated : t.size = 0 ∨ v.cap = 0
  · simp only [if_pos unallocated, Option.bind_eq_bind, Option.bind_some, finishGrow, guarded]
    cases alloc ⟨t.size * n, t.align⟩ <;> rfl
  · simp only [if_neg unallocated, Option.bind_eq_bind, Option.bind_some, finishGrow, guarded, grow,
      require, if_pos (And.intro (h.fits_current ht) order), if_true]
    cases alloc ⟨t.size * n, t.align⟩ <;> rfl

lemma growTo (ht : t.size ≠ 0) (larger : v.cap ≤ n) : Provides t n (growTo t alloc v n) := by
  have grown := h.finishGrow_eq alloc ht larger
  rw [h.currentMemory_eq] at grown
  rw [RawVec.growTo, array_eq, h.currentMemory_eq]
  by_cases small : t.size * n < usizeValues
  · rw [if_pos small]
    simp only [Option.bind_eq_bind, Option.bind_some] at grown ⊢
    rw [grown]
    cases alloc ⟨t.size * n, t.align⟩ with
    | none => exact provides_error n _
    | some block => exact provides_setPtr ht block
  · rw [if_neg small]
    exact provides_error n .capacityOverflow

end

/-- A capacity that is not large enough is noticed, since the length is within it. -/
lemma cap_le_of_needsToGrow (ht : t.size ≠ 0) (hlen : len ≤ capacity t v)
    (cap_le : v.cap ≤ isizeMax) (need : needsToGrow t v len additional) :
    v.cap < len + additional := by
  rw [capacity, if_neg ht] at hlen
  rw [needsToGrow, capacity, if_neg ht, wrappingSub,
    show v.cap + usizeValues - len = v.cap - len + usizeValues by omega, Nat.add_mod_right,
    Nat.mod_eq_of_lt] at need
  · omega
  · have : isizeMax < usizeValues := by decide
    omega

lemma le_capacity_of_not_needsToGrow (h : Recorded t v) (hlen : len ≤ capacity t v)
    (enough : ¬ needsToGrow t v len additional) : len + additional ≤ capacity t v := by
  have below : capacity t v < usizeValues := by
    rw [capacity]
    split
    next => decide
    next ht => exact (h.cap_le ht).trans_lt (by decide)
  rw [needsToGrow, wrappingSub,
    show capacity t v + usizeValues - len = capacity t v - len + usizeValues by omega,
    Nat.add_mod_right, Nat.mod_eq_of_lt (by omega)] at enough
  omega

lemma growAmortized_eq {doubled required : Nat} (ht : t.size ≠ 0) (positive : 0 < additional)
    (hdoubled : mul v.cap 2 = some doubled)
    (hrequired : checkedAdd len additional = some required) :
    RawVec.growAmortized t alloc v len additional =
      RawVec.growTo t alloc v (max (minNonZeroCap t) (max doubled required)) := by
  rw [RawVec.growAmortized, require, if_pos positive, if_neg ht, hrequired]
  simp only [Option.bind_eq_bind]
  rw [hdoubled, Option.bind_some, Option.bind_some]

variable (h : Recorded t v)
include h

section
variable (hlen : len ≤ capacity t v)
include hlen

lemma growAmortized (need : needsToGrow t v len additional) :
    Provides t (len + additional) (growAmortized t alloc v len additional) := by
  have positive : 0 < additional := Nat.zero_lt_of_lt need
  by_cases ht : t.size = 0
  · simp only [RawVec.growAmortized, require, if_pos positive, ht, if_true]
    exact provides_error _ .capacityOverflow
  · have larger := cap_le_of_needsToGrow ht hlen (h.cap_le ht) need
    by_cases sum : len + additional < usizeValues
    · have twice : isizeMax * 2 < usizeValues := by decide
      have doubled : mul v.cap 2 = some (v.cap * 2) :=
        if_pos ((Nat.mul_le_mul_right 2 (h.cap_le ht)).trans_lt twice)
      rw [growAmortized_eq alloc ht positive doubled (if_pos sum)]
      apply Provides.mono (h.growTo alloc ht _) <;> omega
    · simp only [RawVec.growAmortized, require, if_pos positive, if_neg ht, checkedAdd, if_neg sum]
      exact provides_error _ .capacityOverflow

lemma growExact (need : needsToGrow t v len additional) :
    Provides t (len + additional) (growExact t alloc v len additional) := by
  rw [RawVec.growExact]
  by_cases ht : t.size = 0
  · simp only [ht, if_true]
    exact provides_error _ .capacityOverflow
  · have larger := cap_le_of_needsToGrow ht hlen (h.cap_le ht) need
    by_cases sum : len + additional < usizeValues
    · simp only [if_neg ht, checkedAdd, if_pos sum]
      exact h.growTo alloc ht larger.le
    · simp only [if_neg ht, checkedAdd, if_neg sum]
      exact provides_error _ .capacityOverflow

lemma tryReserve : Provides t (len + additional) (tryReserve t alloc v len additional) := by
  rw [RawVec.tryReserve]
  split
  next need => exact h.growAmortized alloc hlen need
  next enough => exact provides_ok h (h.le_capacity_of_not_needsToGrow hlen enough)

lemma tryReserveExact :
    Provides t (len + additional) (tryReserveExact t alloc v len additional) := by
  rw [RawVec.tryReserveExact]
  split
  next need => exact h.growExact alloc hlen need
  next enough => exact provides_ok h (h.le_capacity_of_not_needsToGrow hlen enough)

end

lemma shrink {amount : Nat} (hamount : amount ≤ capacity t v) :
    Provides t amount (shrink t alloc v amount) := by
  rw [RawVec.shrink, require, if_pos hamount, h.currentMemory_eq]
  by_cases unallocated : t.size = 0 ∨ v.cap = 0
  · simp only [if_pos unallocated]
    exact provides_ok h hamount
  · have ht : t.size ≠ 0 := fun zero => unallocated (.inl zero)
    rw [capacity, if_neg ht] at hamount
    have order : t.size * amount ≤ t.size * v.cap := Nat.mul_le_mul_left _ hamount
    have below : t.size * amount < usizeValues :=
      ((order.trans (h.size_mul_cap_le ht)).trans h.size_le).trans_lt (by decide)
    have product : mul amount t.size = some (t.size * amount) := by
      rw [mul, mul_comm, if_pos below]
    simp only [if_neg unallocated, Option.bind_eq_bind, Option.bind_some, product, shrinkBlock,
      RawVec.require, if_pos (And.intro (h.fits_current ht) order)]
    cases alloc ⟨t.size * amount, t.align⟩ with
    | none => exact provides_error amount _
    | some block => exact provides_setPtr ht block

end Recorded

variable {n : Nat} {x : Option (Except TryReserveError RawVec)}

lemma provides_allocateIn (alloc : Allocator) (n : Nat) : Provides t 0 (allocateIn t alloc n) := by
  rw [allocateIn]
  by_cases ht : t.size = 0
  · rw [if_pos ht]
    exact provides_ok recorded_new (Nat.zero_le _)
  · rw [if_neg ht, array_eq]
    by_cases small : t.size * n < usizeValues
    · have guarded : allocGuard (t.size * n) = .ok () := if_neg (fun h => absurd h.1 (by decide))
      simp only [if_pos small, Option.bind_eq_bind, Option.bind_some, guarded]
      cases alloc ⟨t.size * n, t.align⟩ with
      | none => exact provides_error 0 _
      | some block => exact (provides_setPtr ht block).mono (Nat.zero_le _)
    · simp only [if_neg small]
      exact provides_error 0 .capacityOverflow

/-- What a caller sees of a call from `v` that provides room for `n` elements. -/
structure Kept (t : Elem) (v : RawVec) (n : Nat) (r : Reply) (v' : RawVec) : Prop where
  recorded : Recorded t v'
  room : r = .ok → n ≤ capacity t v'
  unchanged : r ≠ .ok → v' = v

lemma Provides.reply (h : Recorded t v) (p : Provides t n x) :
    ∃ r v', x.map (reply v) = some (r, v') ∧ Kept t v n r v' := by
  obtain ⟨e, rfl, all⟩ := p
  cases e with
  | error e => exact ⟨.err e, v, rfl, h, (fun same => nomatch same), fun _ => rfl⟩
  | ok v' =>
    obtain ⟨recorded, room⟩ := all v' rfl
    exact ⟨.ok, v', rfl, recorded, fun _ => room, absurd rfl⟩

lemma Provides.handleReserve (h : Recorded t v) (p : Provides t n x) :
    ∃ r v', x.map (handleReserve v) = some (r, v') ∧ Kept t v n r v' := by
  obtain ⟨e, rfl, all⟩ := p
  cases e with
  | error e =>
    cases e with
    | capacityOverflow =>
      exact ⟨.panicked, v, rfl, h, (fun same => nomatch same), fun _ => rfl⟩
    | allocError layout =>
      exact ⟨.aborted layout, v, rfl, h, (fun same => nomatch same), fun _ => rfl⟩
  | ok v' =>
    obtain ⟨recorded, room⟩ := all v' rfl
    exact ⟨.ok, v', rfl, recorded, fun _ => room, absurd rfl⟩

lemma step_kept (alloc : Allocator) (h : Recorded t v) (op : Op) (hlen : op.len ≤ capacity t v) :
    ∃ r v', step t alloc v op = some (r, v') ∧ Kept t v (op.len + op.additional) r v' := by
  cases op with
  | reserve len additional => exact (h.tryReserve alloc hlen).handleReserve h
  | tryReserve len additional => exact (h.tryReserve alloc hlen).reply h
  | reserveExact len additional => exact (h.tryReserveExact alloc hlen).handleReserve h
  | tryReserveExact len additional => exact (h.tryReserveExact alloc hlen).reply h
  | shrinkToFit amount => exact (h.shrink alloc hlen).handleReserve h

lemma reachable_recorded (h : Reachable t v) : Recorded t v := by
  induction h with
  | new => exact recorded_new
  | withCapacity made =>
    obtain ⟨e, same, all⟩ := provides_allocateIn _ _
    rw [made] at same
    exact (all _ (Option.some.inj same).symm).1
  | step before inside made ih =>
    obtain ⟨r, v', same, kept⟩ := step_kept _ ih _ inside
    rw [made] at same
    obtain ⟨rfl, rfl⟩ := Prod.mk.inj (Option.some.inj same)
    exact kept.recorded

/-- After any run the capacity is that of the current block, and the next call returns without
wrapping around or breaking the allocator's contract; it makes the room it is asked for, or leaves
everything as it is. -/
theorem reachable_capacity (h : Reachable t v) :
    capacity t v = (if t.size = 0 then usizeValues - 1 else v.size / t.size) ∧
      ∀ alloc op, op.len ≤ capacity t v →
        ∃ r v', step t alloc v op = some (r, v') ∧
          (r = .ok → op.len + op.additional ≤ capacity t v') ∧ (r ≠ .ok → v' = v) := by
  have recorded := reachable_recorded h
  constructor
  · rw [capacity]
    split
    next => rfl
    next ht => exact recorded.cap_eq ht
  · intro alloc op hlen
    obtain ⟨r, v', same, kept⟩ := step_kept alloc recorded op hlen
    exact ⟨r, v', same, kept.room, kept.unchanged⟩

/-- Elements of four bytes. -/
def word : Elem := ⟨4, 4, by decide, ⟨2, by decide, rfl⟩, by decide⟩

/-- An allocator that refuses only what no block can hold. -/
def exactBlocks : Allocator := fun l =>
  if h : l.size ≤ isizeMax then some ⟨8, l.size, le_rfl, h⟩ else none

theorem reachable_capacity_word :
    Reachable word ⟨8, 4, 16, 16⟩ ∧ capacity word ⟨8, 4, 16, 16⟩ = 4 := by
  have grown : step word exactBlocks (new word) (.reserve 0 3) = some (.ok, ⟨8, 4, 16, 16⟩) := by
    decide +kernel
  have after : Reachable word ⟨8, 4, 16, 16⟩ := Reachable.new.step (Nat.zero_le _) grown
  exact ⟨after, (reachable_capacity after).1⟩

end RawVec
