import BpfSysroot.VecDeque

/-!
# What the operations of `VecDeque` do to the sequence

`Rep d l` is the invariant of the ring buffer together with the sequence it
holds. Each operation has one specification: from a deque that represents a
list it returns one that represents the list after the same operation, or it
gives up because it needed more than the largest capacity.
-/

namespace VecDeque

open Allocating Allocating.Outcome RingMemory List

variable {T S : Type}

attribute [grind] place move

/-- A well-formed ring buffer that holds `l`. -/
structure Rep (d : VecDeque T) (l : List T) : Prop where
  power : ∃ e, d.cap = 2 ^ e
  bound : d.cap ≤ maxCapacity
  tail_lt : d.tail < d.cap
  head_eq : d.head = place d.cap d.tail l.length
  free : l.length < d.cap
  holds : Holds d.slot d.cap d.tail l

section

/-- The capacities that occur. -/
structure Cap (cap : Nat) : Prop where
  power : ∃ e, cap = 2 ^ e
  bound : cap ≤ maxCapacity

variable {cap idx k : Nat}
variable (h : Cap cap)
include h

lemma Cap.pos : 0 < cap := by
  obtain ⟨e, rfl⟩ := h.power
  exact Nat.two_pow_pos e

lemma Cap.dvd : cap ∣ usizeValues := by
  obtain ⟨e, rfl⟩ := h.power
  have : e ≤ 63 := (Nat.pow_le_pow_iff_right (by decide)).mp h.bound
  exact Nat.pow_dvd_pow 2 (by omega)

lemma Cap.wrapIndex_eq (index : Nat) : wrapIndex index cap = index % cap := by
  obtain ⟨e, rfl⟩ := h.power
  exact Nat.and_two_pow_sub_one_eq_mod index e

lemma Cap.wrapIndex_add (hidx : idx < cap) (hk : k ≤ cap) :
    wrapIndex (wrappingAdd idx k) cap = place cap idx k := by
  rw [h.wrapIndex_eq, wrappingAdd, Nat.mod_mod_of_dvd _ h.dvd, place_eq_mod hidx hk]

lemma Cap.wrapIndex_sub (hidx : idx < cap) (hk : k ≤ cap) :
    wrapIndex (wrappingSub idx k) cap = place cap idx (cap - k) := by
  obtain ⟨m, hm⟩ := h.dvd
  have positive : 0 < m := by
    apply pos_of_ne_zero
    rintro rfl
    rw [mul_zero] at hm
    exact absurd hm (by decide)
  have split : idx + usizeValues - k = idx + (cap - k) + cap * (m - 1) := by
    have : cap * (m - 1) + cap = usizeValues := by
      rw [hm, ← Nat.mul_succ, Nat.succ_eq_add_one, Nat.sub_add_cancel positive]
    omega
  rw [h.wrapIndex_eq, wrappingSub, Nat.mod_mod_of_dvd _ h.dvd, split, Nat.add_mul_mod_self_left,
    place_eq_mod hidx (Nat.sub_le cap k)]

/-- The distance from `tail` to a position `k` steps behind it. -/
lemma Cap.count_place (hidx : idx < cap) (hk : k < cap) :
    count idx (place cap idx k) cap = k := by
  have hplace := place_lt hidx hk.le
  have := h.wrapIndex_sub (k := idx) hplace hidx.le
  rw [wrapIndex] at this
  rw [count, this]
  simp only [place] at hplace ⊢
  split <;> split <;> split at hplace <;> omega

end

section
variable {d : VecDeque T} {l : List T}

section
variable (h : Rep d l)
include h

lemma Rep.cap : Cap d.cap := ⟨h.power, h.bound⟩

lemma Rep.head_lt : d.head < d.cap := by
  rw [h.head_eq]
  exact place_lt h.tail_lt h.free.le

lemma Rep.len_eq : d.len = l.length := by
  rw [len, h.head_eq]
  exact h.cap.count_place h.tail_lt h.free

lemma Rep.wrapAdd_eq {idx k : Nat} (hidx : idx < d.cap) (hk : k ≤ d.cap) :
    d.wrapAdd idx k = place d.cap idx k := h.cap.wrapIndex_add hidx hk

lemma Rep.wrapSub_eq {idx k : Nat} (hidx : idx < d.cap) (hk : k ≤ d.cap) :
    d.wrapSub idx k = place d.cap idx (d.cap - k) := h.cap.wrapIndex_sub hidx hk

lemma Rep.isEmpty_iff : d.isEmpty ↔ l = [] := by
  have := h.tail_lt
  have := h.free
  rw [isEmpty, beq_iff_eq, h.head_eq, ← length_eq_zero_iff, place]
  split <;> omega

lemma Rep.isFull_iff : d.isFull ↔ l.length + 1 = d.cap := by
  rw [isFull, beq_iff_eq, h.len_eq]
  omega

lemma Rep.read {k : Nat} (hk : k < l.length) : d.slot (place d.cap d.tail k) = some l[k] := by
  rw [h.holds k hk, getElem?_eq_getElem hk]

end

lemma ends_bufferRead {B : Type} {k : T → Outcome B} {R : B → Prop} {limit off : Nat} {x : T}
    (hoff : off < d.cap) (hx : d.slot off = some x) (hk : (k x).Ends limit R) :
    (d.bufferRead off >>= k).Ends limit R := by
  rw [bufferRead, check, if_pos hoff, hx]
  exact hk

lemma ends_bufferWrite {off : Nat} {x : T} {Q : VecDeque T → Prop} (hoff : off < d.cap)
    (hq : Q { d with slot := put off x d.slot }) : (d.bufferWrite off x).Ends maxCapacity Q := by
  exact ends_check hoff hq

lemma ends_copy {B : Type} {k : VecDeque T → Outcome B} {R : B → Prop}
    {limit dst src len : Nat} (hdst : dst + len ≤ d.cap) (hsrc : src + len ≤ d.cap)
    (hk : (k { d with slot := move dst src len d.slot }).Ends limit R) :
    (d.copy dst src len >>= k).Ends limit R := by
  rw [copy, check, if_pos hdst, check, if_pos hsrc]
  exact hk

lemma copy_eq {dst src len : Nat} (hdst : dst + len ≤ d.cap) (hsrc : src + len ≤ d.cap) :
    d.copy dst src len = .ok { d with slot := move dst src len d.slot } := by
  rw [copy, check, if_pos hdst, check, if_pos hsrc]
  rfl

end

section
variable {d : VecDeque T} {l : List T}

lemma ends_copyNonoverlapping {B : Type} {k : VecDeque T → Outcome B} {R : B → Prop}
    {dst src len : Nat} (hdst : dst + len ≤ d.cap) (hsrc : src + len ≤ d.cap)
    (apart : dst + len ≤ src ∨ src + len ≤ dst)
    (hk : (k { d with slot := move dst src len d.slot }).Ends maxCapacity R) :
    (d.copyNonoverlapping dst src len >>= k).Ends maxCapacity R := by
  rw [copyNonoverlapping, check, if_pos hdst, check, if_pos hsrc, check, if_pos apart]
  exact hk

/-- In a larger buffer the ring is whole again once the shorter of two sections has moved. -/
lemma handleCapacityIncrease_spec {cap : Nat} (hnew : Cap d.cap) (twice : 2 * cap ≤ d.cap)
    (htail : d.tail < cap) (hhead : d.head = place cap d.tail l.length) (hfree : l.length < cap)
    (holds : Holds d.slot cap d.tail l) :
    (d.handleCapacityIncrease cap).Ends maxCapacity (fun d' => Rep d' l ∧ d'.cap = d.cap) := by
  have hheadlt : d.head < cap := by
    rw [hhead]
    exact place_lt htail hfree.le
  rw [VecDeque.handleCapacityIncrease]
  by_cases contiguous : d.tail ≤ d.head
  · rw [if_pos contiguous]
    have inside : d.tail + l.length < cap := by
      rw [place] at hhead
      split at hhead <;> omega
    apply ends_check (by omega)
    apply ends_check (by omega)
    refine ends_ok ⟨⟨hnew.power, hnew.bound, by omega, ?_, by omega, ?_⟩, rfl⟩
    · rw [hhead, place, place, if_pos inside, if_pos (by omega)]
    · apply holds.congr
      intro k hk
      rw [place, place, if_pos (by omega), if_pos (by omega)]
  · rw [if_neg contiguous]
    have wraps : d.head + cap = d.tail + l.length := by
      rw [place] at hhead
      split at hhead <;> omega
    apply Ends.bind (Q := fun d' => Rep d' l ∧ d'.cap = d.cap)
    · apply ends_sub (by omega)
      by_cases shorter : d.head < cap - d.tail
      · rw [if_pos shorter]
        apply ends_copyNonoverlapping (by omega) (by omega) (by omega)
        apply ends_check (by grind)
        refine ends_ok ⟨⟨hnew.power, hnew.bound, by dsimp only; omega, ?_, by dsimp only; omega,
          ?_⟩, rfl⟩
        · dsimp only
          rw [place, if_pos (by omega)]
          omega
        · apply holds.congr
          intro k hk
          dsimp only
          grind
      · rw [if_neg shorter]
        apply ends_sub (by omega)
        apply ends_copyNonoverlapping (by omega) (by omega) (by omega)
        apply ends_check (by grind)
        refine ends_ok ⟨⟨hnew.power, hnew.bound, by dsimp only; omega, ?_, by dsimp only; omega,
          ?_⟩, rfl⟩
        · dsimp only
          rw [place, if_neg (by omega)]
          omega
        · apply holds.congr
          grind
    · rintro d' ⟨hrep, hcap⟩
      apply ends_check hrep.head_lt
      apply ends_check hrep.tail_lt
      exact ends_ok ⟨hrep, hcap⟩

lemma Rep.reallocated (h : Rep d l) {newCap : Nat} (hnew : Cap newCap)
    (twice : 2 * d.cap ≤ newCap) :
    ((d.reallocate newCap).handleCapacityIncrease d.cap).Ends maxCapacity
      (fun d' => Rep d' l ∧ d'.cap = newCap) := by
  apply handleCapacityIncrease_spec (d := d.reallocate newCap) hnew twice h.tail_lt h.head_eq h.free
  apply h.holds.congr
  intro k hk
  have := h.free
  exact if_pos (place_lt h.tail_lt (by omega))

lemma nextPowerOfTwo_cap {n : Nat} (hn : n ≤ maxCapacity) :
    Cap (nextPowerOfTwo n) ∧ n ≤ nextPowerOfTwo n := by
  rw [nextPowerOfTwo]
  split
  next small => exact ⟨⟨⟨0, rfl⟩, by decide⟩, small⟩
  next large =>
    have positive : n - 1 ≠ 0 := by omega
    have below : n - 1 < 2 ^ (Nat.log2 (n - 1) + 1) :=
      (Nat.log2_lt positive).mp (Nat.lt_succ_self _)
    have log : Nat.log2 (n - 1) < 63 := by
      rw [Nat.log2_lt positive]
      have : maxCapacity = 2 ^ 63 := rfl
      omega
    exact ⟨⟨⟨_, rfl⟩, Nat.pow_le_pow_right (by decide) (by omega)⟩, by omega⟩

lemma Cap.twice_le {cap cap' : Nat} (h : Cap cap) (h' : Cap cap') (lt : cap < cap') :
    2 * cap ≤ cap' := by
  obtain ⟨e, rfl⟩ := h.power
  obtain ⟨e', rfl⟩ := h'.power
  have : e < e' := (Nat.pow_lt_pow_iff_right (by decide)).mp lt
  rw [← pow_succ']
  exact Nat.pow_le_pow_right (by decide) this

/-- After `reserve` there is room for `additional` more elements. -/
lemma Rep.reserve (h : Rep d l) (additional : Nat) :
    (d.reserve additional).Ends maxCapacity
      (fun d' => Rep d' l ∧ l.length + additional < d'.cap) := by
  rw [VecDeque.reserve, h.len_eq]
  apply ends_allocate
  intro fits
  obtain ⟨hcap, enough⟩ := nextPowerOfTwo_cap fits
  by_cases larger : d.cap < nextPowerOfTwo (l.length + 1 + additional)
  · rw [if_pos larger]
    apply (h.reallocated hcap (h.cap.twice_le hcap larger)).mono
    rintro d' ⟨hrep, heq⟩
    exact ⟨hrep, by omega⟩
  · rw [if_neg larger]
    exact ends_ok ⟨h, by omega⟩

/-- The step that all insertions begin with: afterwards there is room for one more element. -/
lemma Rep.makeRoom (h : Rep d l) :
    d.makeRoom.Ends maxCapacity (fun d' => Rep d' l ∧ l.length + 1 < d'.cap) := by
  have hfree := h.free
  rw [VecDeque.makeRoom]
  by_cases full : d.isFull
  · rw [if_pos full, grow, if_pos full]
    apply ends_allocate
    intro fits
    have hcap : Cap (d.cap * 2) := by
      obtain ⟨e, he⟩ := h.power
      exact ⟨⟨e + 1, by rw [he, pow_succ]⟩, fits⟩
    apply ends_assert rfl
    apply (h.reallocated hcap (by omega)).bind
    rintro d' ⟨hrep, heq⟩
    apply ends_check
    · rw [hrep.isFull_iff]
      omega
    · exact ends_ok ⟨hrep, by omega⟩
  · rw [if_neg full]
    refine ends_ok ⟨h, ?_⟩
    have := mt h.isFull_iff.mpr full
    omega

lemma withCapacity_spec (capacity : Nat) :
    (withCapacity capacity : Outcome (VecDeque T)).Ends maxCapacity
      (fun d => Rep d [] ∧ capacity < d.cap ∧ d.tail = 0 ∧ d.head = 0) := by
  apply ends_allocate
  intro fits
  obtain ⟨hcap, enough⟩ := nextPowerOfTwo_cap fits
  apply ends_assert (by omega)
  refine ends_ok ⟨⟨hcap.power, hcap.bound, hcap.pos, ?_, hcap.pos, holds_nil⟩, by dsimp only; omega,
    rfl, rfl⟩
  dsimp only [length_nil]
  rw [place, if_pos hcap.pos]

end

section
variable {d : VecDeque T} {l : List T}
variable (h : Rep d l) {n : Nat}
include h

lemma Rep.dropFront (hn : n ≤ l.length) :
    Rep { d with tail := place d.cap d.tail n } (l.drop n) := by
  have hfree := h.free
  refine ⟨h.power, h.bound, place_lt h.tail_lt (by omega), ?_, ?_,
    h.holds.drop h.tail_lt hfree.le hn⟩
  · rw [length_drop, place_place h.tail_lt (by omega), Nat.add_sub_cancel' hn]
    exact h.head_eq
  · rw [length_drop]
    exact lt_of_le_of_lt (Nat.sub_le _ _) hfree

lemma Rep.takeFront (hn : n ≤ l.length) :
    Rep { d with head := place d.cap d.tail n } (l.take n) := by
  have hfree := h.free
  have length : (l.take n).length = n := length_take_of_le hn
  refine ⟨h.power, h.bound, h.tail_lt, ?_, ?_, h.holds.take n⟩
  · rw [length]
  · rw [length]
    exact lt_of_le_of_lt hn hfree

lemma Rep.wrapSub_head (hn : n ≤ l.length) :
    d.wrapSub d.head (l.length - n) = place d.cap d.tail n := by
  have hfree := h.free
  rw [h.wrapSub_eq h.head_lt (by omega), h.head_eq]
  grind

lemma Rep.get (index : Nat) : d.get index = .ok l[index]? := by
  have hfree := h.free
  rw [VecDeque.get, h.len_eq]
  split
  next inside =>
    rw [h.wrapAdd_eq h.tail_lt (by omega), bufferRead, check,
      if_pos (place_lt h.tail_lt (by omega)), h.read inside, getElem?_eq_getElem inside]
    rfl
  next outside =>
    rw [getElem?_eq_none (by omega)]
    rfl

lemma Rep.index {i : Nat} {x : T} (hx : l[i]? = some x) : d.index i = .ok x := by
  rw [VecDeque.index, h.get, hx]
  rfl

lemma Rep.popFront : d.popFront.Ends maxCapacity (fun r => r.1 = l.head? ∧ Rep r.2 l.tail) := by
  rw [VecDeque.popFront]
  cases l with
  | nil =>
    rw [if_pos (h.isEmpty_iff.mpr rfl)]
    exact ends_ok ⟨rfl, h⟩
  | cons x rest =>
    have htail := h.tail_lt
    have first := h.read (k := 0) (Nat.succ_pos _)
    rw [place, if_pos (show d.tail + 0 < d.cap from htail)] at first
    rw [if_neg (by rw [h.isEmpty_iff]; exact cons_ne_nil x rest)]
    apply ends_bufferRead htail first
    refine ends_ok ⟨rfl, ?_⟩
    rw [h.wrapAdd_eq htail (by omega)]
    exact h.dropFront (n := 1) (Nat.succ_pos _)

lemma Rep.popBack :
    d.popBack.Ends maxCapacity (fun r => r.1 = l.getLast? ∧ Rep r.2 l.dropLast) := by
  rw [VecDeque.popBack]
  by_cases empty : l = []
  · rw [if_pos (h.isEmpty_iff.mpr empty)]
    subst empty
    exact ends_ok ⟨rfl, h⟩
  · have positive : 0 < l.length := length_pos_iff.mpr empty
    have hfree := h.free
    have back := h.wrapSub_head (n := l.length - 1) (Nat.sub_le _ _)
    rw [Nat.sub_sub_self positive] at back
    rw [if_neg (mt h.isEmpty_iff.mp empty), back]
    apply ends_bufferRead (place_lt h.tail_lt (by omega)) (h.read (Nat.sub_lt positive Nat.one_pos))
    refine ends_ok ⟨?_, ?_⟩
    · rw [getLast?_eq_getElem?, getElem?_eq_getElem (by omega)]
    · rw [dropLast_eq_take]
      exact h.takeFront (Nat.sub_le _ _)

lemma Rep.pushFront (value : T) :
    (d.pushFront value).Ends maxCapacity (fun d' => Rep d' (value :: l)) := by
  apply h.makeRoom.bind
  rintro d' ⟨hrep, room⟩
  have htail := hrep.tail_lt
  have back := hrep.wrapSub_eq htail (show 1 ≤ d'.cap by omega)
  rw [back]
  have start : d'.tail = place d'.cap (place d'.cap d'.tail (d'.cap - 1)) 1 := by grind
  apply ends_bufferWrite
  · exact place_lt htail (by omega)
  refine ⟨hrep.power, hrep.bound, place_lt htail (by omega), ?_, room, ?_⟩
  · have := hrep.head_eq
    grind
  · exact hrep.holds.pushFront (place_lt htail (by omega)) (by omega) start value

lemma Rep.append_one (room : l.length + 1 < d.cap) (value : T) :
    Rep { d with head := d.wrapAdd d.head 1, slot := put d.head value d.slot } (l ++ [value]) := by
  have hlength : (l ++ [value]).length = l.length + 1 := by simp
  refine ⟨h.power, h.bound, h.tail_lt, ?_, ?_, ?_⟩
  · rw [hlength, h.wrapAdd_eq h.head_lt (by omega), h.head_eq, place_place h.tail_lt (by omega)]
  · rw [hlength]
    exact room
  · rw [h.head_eq]
    exact h.holds.push (by omega) value

lemma Rep.pushBack (value : T) :
    (d.pushBack value).Ends maxCapacity (fun d' => Rep d' (l ++ [value])) := by
  apply h.makeRoom.bind
  rintro d' ⟨hrep, room⟩
  apply ends_bufferWrite
  · exact hrep.head_lt
  · exact hrep.append_one room value

end

section
variable {d : VecDeque T} {l : List T} {index : Nat}

lemma Rep.swap (h : Rep d l) {i j : Nat} (hi : i < l.length) (hj : j < l.length) :
    (d.swap i j).Ends maxCapacity (fun d' => Rep d' (SliceMemory.swap l i j)) := by
  have hfree := h.free
  rw [VecDeque.swap, h.len_eq, h.wrapAdd_eq h.tail_lt (by omega), h.wrapAdd_eq h.tail_lt (by omega)]
  apply ends_assert hi
  apply ends_assert hj
  apply ends_check (place_lt h.tail_lt (by omega))
  apply ends_check (place_lt h.tail_lt (by omega))
  refine ends_ok ⟨h.power, h.bound, h.tail_lt, ?_, ?_, h.holds.swap hfree.le hi hj⟩
  · rw [SliceMemory.length_swap]
    exact h.head_eq
  · rw [SliceMemory.length_swap]
    exact hfree

/-- What `openGap` leaves: a ring with one position more, free at `index`. -/
structure GapAt (d d' : VecDeque T) (index n : Nat) : Prop where
  cap_eq : d'.cap = d.cap
  tail_lt : d'.tail < d.cap
  head_eq : d'.head = place d.cap d'.tail (n + 1)
  opened : Opened d.slot d'.slot d.cap d.tail d'.tail index n

lemma Rep.isContiguous_iff (h : Rep d l) :
    d.isContiguous ↔ d.tail + l.length = d.head := by
  have hfree := h.free
  rw [isContiguous, h.head_eq]
  grind

lemma Rep.wraps (h : Rep d l) (around : d.isContiguous = false) :
    d.head + d.cap = d.tail + l.length := by
  have hhead := h.head_eq
  rw [Bool.eq_false_iff, ne_eq, h.isContiguous_iff] at around
  grind

/-- A position before the start lies behind the seam. -/
lemma place_earlier {cap start k : Nat} (earlier : ¬start ≤ place cap start k) :
    cap ≤ start + k ∧ place cap start k = start + k - cap := by
  grind

lemma Rep.openGap (h : Rep d l) (hi : index ≤ l.length) (room : l.length + 1 < d.cap) :
    (d.openGap index).Ends maxCapacity (fun d' => GapAt d d' index l.length) := by
  have htail := h.tail_lt
  have hhead := h.head_eq
  have hheadlt := h.head_lt
  have hidx := h.wrapAdd_eq (k := index) htail (by omega)
  have hback := h.wrapSub_eq (k := 1) htail (by omega)
  have hnext := h.wrapAdd_eq (k := 1) hheadlt (by omega)
  rw [VecDeque.openGap, h.len_eq, hidx]
  clear hidx
  apply ends_sub hi
  split <;> simp only [decide_eq_true_eq, decide_eq_false_iff_not] at *
  case h_1 contiguous _ =>
    rw [h.isContiguous_iff] at contiguous
    split
    next first =>
      rw [hback]
      refine ends_ok ⟨rfl, ?_, ?_, ?_, ?_⟩ <;> grind
    next inner =>
      rw [hback]
      apply ends_copy (by grind) (by omega)
      apply ends_sub (by omega)
      apply ends_copy (by grind) (by grind)
      refine ends_ok ⟨rfl, ?_, ?_, ?_, ?_⟩ <;> grind
  case h_2 contiguous closer =>
    rw [h.isContiguous_iff] at contiguous
    have inside : place d.cap d.tail index = d.tail + index := if_pos (by omega)
    rw [inside]
    apply ends_sub (by omega)
    apply ends_copy (by omega) (by omega)
    exact ends_ok ⟨rfl, htail, hnext.trans (by grind), by grind, by grind⟩
  case h_3 wraps closer later =>
    have around := h.wraps wraps
    have inside : d.tail + index < d.cap := by grind
    apply ends_sub (by omega)
    apply ends_copy (by omega) (by omega)
    apply ends_sub (by grind)
    refine ends_ok ⟨rfl, ?_, ?_, ?_, ?_⟩ <;> grind
  case h_4 wraps closer later =>
    have around := h.wraps wraps
    have inside : d.tail + index < d.cap := by grind
    have position : place d.cap d.tail index = d.tail + index := if_pos inside
    rw [position]
    apply ends_copy (by omega) (by omega)
    apply ends_sub (by grind)
    apply ends_copy (by grind) (by grind)
    apply ends_sub (by grind)
    apply ends_sub (by grind)
    apply ends_copy (by grind) (by grind)
    refine ends_ok ⟨rfl, ?_, ?_, ?_, ?_⟩ <;> grind
  case h_5 wraps closer earlier =>
    have around := h.wraps wraps
    obtain ⟨outside, position⟩ := place_earlier earlier
    rw [position]
    apply ends_sub (by omega)
    apply ends_sub (by omega)
    apply ends_copy (by omega) (by omega)
    apply ends_sub (by grind)
    apply ends_copy (by grind) (by grind)
    split
    next zero =>
      apply ends_sub (by grind)
      refine ends_ok ⟨rfl, ?_, ?_, ?_, ?_⟩ <;> grind
    next inner =>
      apply ends_sub (by omega)
      apply ends_copy (by grind) (by grind)
      apply ends_sub (by grind)
      refine ends_ok ⟨rfl, ?_, ?_, ?_, ?_⟩ <;> grind
  case h_6 wraps closer earlier =>
    have around := h.wraps wraps
    obtain ⟨outside, position⟩ := place_earlier earlier
    rw [position]
    apply ends_sub (by omega)
    apply ends_copy (by omega) (by omega)
    refine ends_ok ⟨rfl, ?_, ?_, ?_, ?_⟩ <;> grind

lemma Rep.insert (h : Rep d l) (hi : index ≤ l.length) (value : T) :
    (d.insert index value).Ends maxCapacity (fun d' => Rep d' (l.insertIdx index value)) := by
  rw [VecDeque.insert, h.len_eq]
  apply ends_assert hi
  apply h.makeRoom.bind
  rintro d₁ ⟨hrep, room⟩
  apply (hrep.openGap hi room).bind
  rintro d₂ ⟨hcap, htail, hhead, opened⟩
  have cap₂ : Cap d₂.cap := hcap ▸ hrep.cap
  have position : d₂.wrapAdd d₂.tail index = place d₁.cap d₂.tail index := by
    rw [← hcap]
    exact cap₂.wrapIndex_add (by omega) (by omega)
  rw [position]
  apply ends_bufferWrite
  · rw [hcap]
    exact place_lt htail (by omega)
  have length := length_insertIdx_of_le_length hi (a := value)
  refine ⟨cap₂.power, cap₂.bound, by dsimp only; omega, ?_, ?_, ?_⟩
  · rw [length]
    rw [hcap, hhead]
  · dsimp only
    omega
  · rw [hcap]
    exact hrep.holds.insert opened hi (by omega) value

/-- What `closeGap` leaves: a ring with one position less. -/
structure GapClosed (d d' : VecDeque T) (index n : Nat) : Prop where
  cap_eq : d'.cap = d.cap
  tail_lt : d'.tail < d.cap
  head_eq : d'.head = place d.cap d'.tail (n - 1)
  closed : Closed d.slot d'.slot d.cap d.tail d'.tail index n

lemma Rep.closeGap (h : Rep d l) (hi : index < l.length) :
    (d.closeGap index).Ends maxCapacity (fun d' => GapClosed d d' index l.length) := by
  have htail := h.tail_lt
  have hhead := h.head_eq
  have hheadlt := h.head_lt
  have hfree := h.free
  have hidx := h.wrapAdd_eq (k := index) htail (by omega)
  have hback := h.cap.wrapIndex_sub (k := 1) hheadlt (by omega)
  have hnext := h.cap.wrapIndex_add (k := 1) htail (by omega)
  rw [VecDeque.closeGap, h.len_eq, hidx]
  clear hidx
  apply ends_sub hi.le
  split <;> simp only [decide_eq_true_eq, decide_eq_false_iff_not] at *
  case h_1 contiguous _ =>
    rw [h.isContiguous_iff] at contiguous
    apply ends_copy (by omega) (by omega)
    refine ends_ok ⟨rfl, ?_, ?_, ?_, ?_⟩ <;> grind
  case h_2 contiguous closer =>
    rw [h.isContiguous_iff] at contiguous
    have inside : place d.cap d.tail index = d.tail + index := if_pos (by omega)
    rw [inside]
    apply ends_sub (by omega)
    apply ends_sub (by omega)
    apply ends_copy (by omega) (by omega)
    apply ends_sub (by grind)
    refine ends_ok ⟨rfl, ?_, ?_, ?_, ?_⟩ <;> grind
  case h_3 wraps closer later =>
    have around := h.wraps wraps
    have inside : d.tail + index < d.cap := by grind
    apply ends_copy (by omega) (by omega)
    dsimp only [wrapAdd]
    rw [hnext]
    refine ends_ok ⟨rfl, ?_, ?_, ?_, ?_⟩ <;> grind
  case h_4 wraps closer earlier =>
    have around := h.wraps wraps
    obtain ⟨outside, position⟩ := place_earlier earlier
    rw [position]
    apply ends_sub (by omega)
    apply ends_sub (by omega)
    apply ends_copy (by omega) (by omega)
    apply ends_sub (by grind)
    refine ends_ok ⟨rfl, ?_, ?_, ?_, ?_⟩ <;> grind
  case h_5 wraps closer later =>
    have around := h.wraps wraps
    have inside : d.tail + index < d.cap := by grind
    have position : place d.cap d.tail index = d.tail + index := if_pos inside
    rw [position]
    apply ends_sub (by omega)
    apply ends_sub (by omega)
    apply ends_copy (by omega) (by omega)
    dsimp only
    split
    next occupied =>
      apply ends_sub (by omega)
      apply ends_copy (by grind) (by grind)
      apply ends_sub (by grind)
      apply ends_copy (by grind) (by grind)
      dsimp only [wrapSub]
      rw [hback]
      refine ends_ok ⟨rfl, ?_, ?_, ?_, ?_⟩ <;> grind
    next empty =>
      dsimp only [wrapSub]
      rw [hback]
      refine ends_ok ⟨rfl, ?_, ?_, ?_, ?_⟩ <;> grind
  case h_6 wraps closer earlier =>
    have around := h.wraps wraps
    obtain ⟨outside, position⟩ := place_earlier earlier
    rw [position]
    apply ends_copy (by omega) (by omega)
    apply ends_sub (by grind)
    apply ends_copy (by grind) (by grind)
    apply ends_sub (by grind)
    apply ends_sub (by grind)
    apply ends_copy (by grind) (by grind)
    dsimp only [wrapAdd]
    rw [hnext]
    refine ends_ok ⟨rfl, ?_, ?_, ?_, ?_⟩ <;> grind

lemma Rep.remove (h : Rep d l) (index : Nat) :
    (d.remove index).Ends maxCapacity (fun r => r.1 = l[index]? ∧ Rep r.2 (l.eraseIdx index)) := by
  have hfree := h.free
  rw [VecDeque.remove, h.len_eq]
  by_cases inside : index < l.length
  · have occupied : ¬ (d.isEmpty ∨ l.length ≤ index) := by
      rw [h.isEmpty_iff, ← length_eq_zero_iff]
      omega
    rw [if_neg occupied, h.wrapAdd_eq h.tail_lt (by omega)]
    apply ends_bufferRead (place_lt h.tail_lt (by omega)) (h.read inside)
    apply (h.closeGap inside).bind
    rintro d' ⟨hcap, htail, hhead, closed⟩
    have cap' : Cap d'.cap := hcap ▸ h.cap
    have length := length_eraseIdx_of_lt inside
    refine ends_ok ⟨(getElem?_eq_getElem inside).symm, cap'.power, cap'.bound, ?_, ?_, ?_, ?_⟩
    · rw [hcap]
      exact htail
    · rw [length, hcap, hhead]
    · rw [hcap]
      omega
    · rw [hcap]
      exact h.holds.erase closed inside
  · rw [if_pos (.inr (Nat.le_of_not_lt inside))]
    refine ends_ok ⟨(getElem?_eq_none (by omega)).symm, ?_⟩
    rw [eraseIdx_of_length_le (by omega)]
    exact h

end

section
variable {d : VecDeque T} {limit dst src len : Nat}

/-- The result of `wrapCopy`: only the slots change. -/
structure WrapCopied (d d' : VecDeque T) (dst src len : Nat) : Prop where
  tail_eq : d'.tail = d.tail
  head_eq : d'.head = d.head
  cap_eq : d'.cap = d.cap
  copied : Copied d.slot d'.slot d.cap dst src len

lemma ends_copy_last {n : Nat} {Q : VecDeque T → Prop} (hdst : dst + n ≤ d.cap)
    (hsrc : src + n ≤ d.cap) (hq : Q { d with slot := move dst src n d.slot }) :
    (d.copy dst src n).Ends limit Q := by
  rw [copy_eq hdst hsrc]
  exact hq

/-- Each of the seven cases copies the block piece by piece, in an order in which no piece is
overwritten before it is read. -/
lemma wrapCopy_spec (hcap : Cap d.cap) (hdst : dst < d.cap) (hsrc : src < d.cap)
    (overlap : min (diff dst src) (d.cap - diff dst src) + len ≤ d.cap) :
    (d.wrapCopy dst src len).Ends limit (fun d' => WrapCopied d d' dst src len) := by
  have distance : d.wrapSub dst src = place d.cap dst (d.cap - src) :=
    hcap.wrapIndex_sub hdst hsrc.le
  rw [wrapCopy, distance]
  apply ends_check overlap
  rw [diff] at overlap
  by_cases trivial : src = dst ∨ len = 0
  · rw [if_pos trivial]
    refine ends_ok ⟨rfl, rfl, rfl, ?_, ?_⟩ <;> grind
  rw [if_neg trivial]
  rw [not_or] at trivial
  apply ends_sub hsrc.le
  apply ends_sub hdst.le
  have after : src ≤ dst ∧ place d.cap dst (d.cap - src) = dst - src ∧
        min (dst - src) (d.cap - (dst - src)) + len ≤ d.cap ∨
      dst < src ∧ place d.cap dst (d.cap - src) = dst + d.cap - src ∧
        min (src - dst) (d.cap - (src - dst)) + len ≤ d.cap := by
    grind
  clear distance overlap
  generalize place d.cap dst (d.cap - src) = gap at after ⊢
  dsimp only
  split <;> simp only [decide_eq_true_eq, decide_eq_false_iff_not] at *
  case h_1 source target =>
    apply ends_copy_last (by omega) (by omega)
    refine ⟨rfl, rfl, rfl, ?_, ?_⟩ <;> grind
  case h_2 order source target =>
    apply ends_copy (by omega) (by omega)
    apply ends_sub (by omega)
    apply ends_copy_last (by grind) (by grind)
    refine ⟨rfl, rfl, rfl, ?_, ?_⟩ <;> grind
  case h_3 order source target =>
    apply ends_sub (by omega)
    apply ends_copy (by omega) (by omega)
    apply ends_copy_last (by grind) (by grind)
    refine ⟨rfl, rfl, rfl, ?_, ?_⟩ <;> grind
  case h_4 order source target =>
    apply ends_copy (by omega) (by omega)
    apply ends_sub (by omega)
    apply ends_copy_last (by grind) (by grind)
    refine ⟨rfl, rfl, rfl, ?_, ?_⟩ <;> grind
  case h_5 order source target =>
    apply ends_sub (by omega)
    apply ends_copy (by omega) (by omega)
    apply ends_copy_last (by grind) (by grind)
    refine ⟨rfl, rfl, rfl, ?_, ?_⟩ <;> grind
  case h_6 order source target =>
    apply ends_check (by omega)
    apply ends_sub (by omega)
    apply ends_copy (by omega) (by omega)
    apply ends_copy (by grind) (by grind)
    apply ends_sub (by omega)
    apply ends_copy_last (by grind) (by grind)
    refine ⟨rfl, rfl, rfl, ?_, ?_⟩ <;> grind
  case h_7 order source target =>
    apply ends_check (by omega)
    apply ends_sub (by omega)
    apply ends_sub (by omega)
    apply ends_copy (by omega) (by omega)
    apply ends_sub (by grind)
    apply ends_copy (by grind) (by grind)
    apply ends_copy_last (by grind) (by grind)
    refine ⟨rfl, rfl, rfl, ?_, ?_⟩ <;> grind

/-- The block is moved as if all its slots were read before the first is written. -/
theorem wrap_copy_moves_block (power : ∃ e, d.cap = 2 ^ e) (bound : d.cap ≤ maxCapacity)
    (hdst : dst < d.cap) (hsrc : src < d.cap)
    (overlap : min (diff dst src) (d.cap - diff dst src) + len ≤ d.cap) :
    ∃ d', d.wrapCopy dst src len = .ok d' ∧
      (∀ i < len, d'.slot ((dst + i) % d.cap) = d.slot ((src + i) % d.cap)) ∧
      ∀ p < d.cap, (∀ i < len, p ≠ (dst + i) % d.cap) → d'.slot p = d.slot p := by
  obtain ⟨d', ran, copied⟩ := ok_of_ends fun _ => wrapCopy_spec ⟨power, bound⟩ hdst hsrc overlap
  refine ⟨d', ran, fun i below => ?_, fun p inside other => ?_⟩
  · rw [← place_eq_mod hdst (by omega), ← place_eq_mod hsrc (by omega)]
    exact copied.copied.inside i below
  · have away : p = (dst + (p + d.cap - dst) % d.cap) % d.cap := by
      rw [Nat.add_mod_mod, Nat.add_sub_cancel' (by omega), Nat.add_mod_right,
        Nat.mod_eq_of_lt inside]
    have small := Nat.mod_lt (p + d.cap - dst) (by omega : 0 < d.cap)
    have outside := copied.copied.outside ((p + d.cap - dst) % d.cap)
      (Nat.le_of_not_lt fun below => other _ below away) small
    rwa [place_eq_mod hdst small.le, ← away] at outside

/-- A block of three that overlaps itself and wraps around at both ends. -/
theorem wrap_copy_moves_block_around :
    ∃ d', VecDeque.wrapCopy ⟨0, 0, 8, some⟩ 7 6 3 = .ok d' ∧
      (d'.slot 7, d'.slot 0, d'.slot 1, d'.slot 6) = (some 6, some 7, some 0, some 6) := by
  obtain ⟨d', ran, moved, kept⟩ := wrap_copy_moves_block (d := ⟨0, 0, 8, some⟩) ⟨3, rfl⟩ (by decide)
    (show 7 < 8 by decide) (show 6 < 8 by decide) (show 1 + 3 ≤ 8 by decide)
  exact ⟨d', ran, by
    rw [show d'.slot 7 = some 6 from moved 0 (by decide),
      show d'.slot 0 = some 7 from moved 1 (by decide),
      show d'.slot 1 = some 0 from moved 2 (by decide), kept 6 (by decide) (by decide)]⟩

end

section
variable {d : VecDeque T} {l : List T}

lemma Rep.rotateLeftInner (h : Rep d l) {mid : Nat} (half : mid * 2 ≤ l.length) :
    (d.rotateLeftInner mid).Ends maxCapacity (fun d' => Rep d' (l.rotate mid)) := by
  have htail := h.tail_lt
  have hfree := h.free
  have hhead := h.head_eq
  have hheadlt := h.head_lt
  rw [VecDeque.rotateLeftInner, h.len_eq]
  apply ends_check half
  apply (wrapCopy_spec h.cap hheadlt htail (by grind [diff])).bind
  rintro d' ⟨etail, ehead, ecap, inside, outside⟩
  have hstart := h.cap.wrapIndex_add (k := mid) htail (by omega)
  have hstop := h.cap.wrapIndex_add (k := mid) hheadlt (by omega)
  refine ends_ok ⟨ecap ▸ h.power, ecap ▸ h.bound, ?_, ?_, ?_, ?_⟩
  all_goals
    dsimp only [wrapAdd]
    rw [ecap]
  · rw [etail, hstart]
    exact place_lt htail (by omega)
  · rw [length_rotate]
    grind
  · rw [length_rotate]
    exact hfree
  · rw [etail, hstart]
    apply h.holds.rotate (by omega)
    · intro k hk
      have kept := outside (mid + k + d.cap - l.length) (by omega) (by omega)
      rw [hhead, place_around htail (by omega) (by omega) (by omega),
        show l.length + (mid + k + d.cap - l.length) - d.cap = mid + k by omega] at kept
      rw [place_place htail (by omega), kept]
    · intro k hk
      have moved := inside k hk
      rw [← moved]
      congr 1
      grind

lemma Rep.rotateRightInner (h : Rep d l) {k : Nat} (half : k * 2 ≤ l.length) :
    (d.rotateRightInner k).Ends maxCapacity (fun d' => Rep d' (l.rotate (l.length - k))) := by
  have htail := h.tail_lt
  have hfree := h.free
  have hhead := h.head_eq
  have hheadlt := h.head_lt
  have hstart := h.cap.wrapIndex_sub (k := k) htail (by omega)
  have hstop := h.cap.wrapIndex_sub (k := k) hheadlt (by omega)
  rw [VecDeque.rotateRightInner, h.len_eq]
  apply ends_check half
  dsimp only [wrapSub]
  rw [hstart, hstop]
  apply (wrapCopy_spec _ _ _ _).mono
  · rintro d' ⟨etail, ehead, ecap, inside, outside⟩
    dsimp only at *
    refine ⟨ecap ▸ h.power, ecap ▸ h.bound, ?_, ?_, ?_, ?_⟩
    all_goals rw [ecap]
    · rw [etail]
      exact place_lt htail (by omega)
    · rw [etail, ehead, length_rotate]
      grind
    · rw [length_rotate]
      exact hfree
    · rw [etail]
      apply h.holds.rotate (by omega)
      · intro i hi
        rw [inside i (by omega), hhead]
        congr 1
        grind
      · intro i hi
        have kept := outside (k + i) (by omega) (by omega)
        rw [place_around htail (by omega) (by omega) (by omega),
          show d.cap - k + (k + i) - d.cap = i by omega] at kept
        rw [show l.length - (l.length - k) + i = k + i by omega,
          place_around htail (by omega) (by omega) (by omega),
          show d.cap - k + (k + i) - d.cap = i by omega, kept]
  · exact h.cap
  · exact place_lt htail (by omega)
  · exact place_lt hheadlt (by omega)
  · grind [diff]

lemma Rep.rotateLeft (h : Rep d l) {mid : Nat} (hmid : mid ≤ l.length) :
    (d.rotateLeft mid).Ends maxCapacity (fun d' => Rep d' (l.rotate mid)) := by
  rw [VecDeque.rotateLeft, h.len_eq]
  apply ends_assert hmid
  apply ends_sub hmid
  split
  next small => exact h.rotateLeftInner (by omega)
  next large =>
    have := h.rotateRightInner (k := l.length - mid) (by omega)
    rwa [Nat.sub_sub_self hmid] at this

lemma Rep.rotateRight (h : Rep d l) {k : Nat} (hk : k ≤ l.length) :
    (d.rotateRight k).Ends maxCapacity (fun d' => Rep d' (l.rotate (l.length - k))) := by
  rw [VecDeque.rotateRight, h.len_eq]
  apply ends_assert hk
  apply ends_sub hk
  split
  next small => exact h.rotateRightInner (by omega)
  next large => exact h.rotateLeftInner (by omega)

end

/-- A ring that lies across the end of its buffer. -/
def across : VecDeque Nat where
  slot p := some p
  cap := 8
  tail := 6
  head := 3

lemma rep_across : Rep across [6, 7, 0, 1, 2] where
  power := ⟨3, rfl⟩
  bound := by decide
  tail_lt := by decide
  head_eq := by decide
  free := by decide
  holds := by
    unfold Holds
    decide

end VecDeque
