import BpfSysroot.SliceMemory

/-!
# Sequences in a ring of memory slots

A memory is a function from positions to slots, and a slot may be empty. A ring
of `cap` slots is read from a start position onwards, going on at zero behind
the last slot (`place`). `Holds` says that the ring holds a sequence there; the
lemmas say how it changes when slots are written, when a block of slots is moved
and when the start moves.
-/

namespace RingMemory

open List

variable {T : Type} {cap start i j : Nat}

/-- A memory: what each slot contains, if it has been written. -/
abbrev Slots (T : Type) := Nat → Option T

/-- The position `k` steps behind `start`. -/
def place (cap start k : Nat) : Nat := if start + k < cap then start + k else start + k - cap

lemma place_lt {cap start k : Nat} (hs : start < cap) (hk : k ≤ cap) : place cap start k < cap := by
  rw [place]
  split <;> omega

lemma place_inj (hi : i < cap) (hj : j < cap)
    (h : place cap start i = place cap start j) : i = j := by
  simp only [place] at h
  split at h <;> split at h <;> omega

lemma place_place (hs : start < cap) (h : i + j ≤ cap) :
    place cap (place cap start i) j = place cap start (i + j) := by
  simp only [place]
  split <;> split <;> split <;> omega

lemma place_around (hs : start < cap) (hi : i ≤ cap) (hj : j ≤ cap)
    (h : cap ≤ i + j) : place cap (place cap start i) j = place cap start (i + j - cap) := by
  simp only [place]
  split <;> split <;> split <;> omega

lemma place_eq_mod {cap start k : Nat} (hs : start < cap) (hk : k ≤ cap) :
    place cap start k = (start + k) % cap := by
  rw [place]
  split
  next inside => rw [Nat.mod_eq_of_lt inside]
  next outside =>
    rw [Nat.mod_eq_sub_mod (by omega), Nat.mod_eq_of_lt (by omega)]

def put (i : Nat) (x : T) (slot : Slots T) : Slots T := fun p => if p = i then some x else slot p

/-- Copies `len` slots from `src` to `dst`; the two blocks may overlap. -/
def move (dst src len : Nat) (slot : Slots T) : Slots T :=
  fun p => if dst ≤ p ∧ p < dst + len then slot (src + (p - dst)) else slot p

/-- The ring read from `start` holds the sequence. -/
def Holds (slot : Slots T) (cap start : Nat) (l : List T) : Prop :=
  ∀ k, k < l.length → slot (place cap start k) = l[k]?

variable {slot slot' : Slots T} {cap cap' start start' : Nat} {l : List T}

lemma holds_nil : Holds slot cap start ([] : List T) := by
  intro k hk
  exact absurd hk (Nat.not_lt_zero k)

variable (h : Holds slot cap start l)
include h

lemma Holds.congr (same : ∀ k < l.length, slot' (place cap' start' k) = slot (place cap start k)) :
    Holds slot' cap' start' l := by
  intro k hk
  rw [same k hk, h k hk]

lemma Holds.take (n : Nat) : Holds slot cap start (l.take n) := by
  intro k hk
  rw [length_take] at hk
  rw [h k (by omega), getElem?_take_of_lt (by omega)]

lemma Holds.drop (hs : start < cap) (hl : l.length ≤ cap) {n : Nat}
    (hn : n ≤ l.length) : Holds slot cap (place cap start n) (l.drop n) := by
  intro k hk
  rw [length_drop] at hk
  rw [place_place hs (by omega), h (n + k) (by omega), getElem?_drop]

lemma Holds.push (hl : l.length < cap) (x : T) :
    Holds (put (place cap start l.length) x slot) cap start (l ++ [x]) := by
  intro k hk
  rw [length_append, length_singleton] at hk
  by_cases last : k = l.length
  · subst last
    simp [put]
  · have inside : k < l.length := by omega
    have other : place cap start k ≠ place cap start l.length :=
      fun same => last (place_inj (by omega) hl same)
    rw [put, if_neg other, h k inside, getElem?_append_left inside]

lemma Holds.pushFront (hs : start' < cap) (hl : l.length < cap)
    (hstart : start = place cap start' 1) (x : T) :
    Holds (put start' x slot) cap start' (x :: l) := by
  intro k hk
  rw [length_cons] at hk
  cases k with
  | zero =>
    have first : place cap start' 0 = start' := by
      rw [place]
      split <;> omega
    rw [first, put, if_pos rfl]
    rfl
  | succ k =>
    have behind : place cap start' (k + 1) = place cap start k := by
      rw [hstart, place_place hs (by omega), add_comm]
    have other : place cap start' (k + 1) ≠ start' := by
      rw [place]
      split <;> omega
    rw [put, if_neg other, behind, h k (by omega)]
    rfl

lemma Holds.swap (hl : l.length ≤ cap) {i j : Nat} (hi : i < l.length) (hj : j < l.length) :
    Holds (SliceMemory.swapAt slot (place cap start i) (place cap start j)) cap start
      (SliceMemory.swap l i j) := by
  intro k hk
  rw [SliceMemory.length_swap] at hk
  rw [SliceMemory.getElem?_swap hi hj, SliceMemory.swapAt, SliceMemory.swapAt, h i hi, h j hj,
    h k hk]
  have same {p : Nat} (hp : p < l.length) : place cap start k = place cap start p ↔ k = p :=
    ⟨place_inj (by omega) (by omega), fun e => by rw [e]⟩
  simp only [same hi, same hj]

/-- The elements from `index` on have moved one step on, or those before it one step back. -/
structure Opened (slot slot' : Slots T) (cap start start' index n : Nat) : Prop where
  before : ∀ k, k < index → slot' (place cap start' k) = slot (place cap start k)
  after : ∀ k, index ≤ k → k < n → slot' (place cap start' (k + 1)) = slot (place cap start k)

lemma Holds.insert {index : Nat}
    (opened : Opened slot slot' cap start start' index l.length) (hi : index ≤ l.length)
    (hl : l.length < cap) (x : T) :
    Holds (put (place cap start' index) x slot') cap start' (l.insertIdx index x) := by
  intro k hk
  rw [length_insertIdx_of_le_length hi] at hk
  have same : place cap start' k = place cap start' index ↔ k = index :=
    ⟨place_inj (by omega) (by omega), fun e => by rw [e]⟩
  rw [put, getElem?_insertIdx]
  rcases Nat.lt_trichotomy k index with less | rfl | greater
  · rw [if_neg (by omega), if_pos less, opened.before k less, h k (by omega)]
  · simp [hi]
  · obtain ⟨m, rfl⟩ : ∃ m, k = m + 1 := ⟨k - 1, by omega⟩
    rw [if_neg (by omega), if_neg (by omega), if_neg (by omega),
      opened.after m (by omega) (by omega), h m (by omega)]
    rfl

/-- The elements behind `index` have moved one step back, or those before it one step on. -/
structure Closed (slot slot' : Slots T) (cap start start' index n : Nat) : Prop where
  before : ∀ k, k < index → slot' (place cap start' k) = slot (place cap start k)
  after : ∀ k, index ≤ k → k + 1 < n → slot' (place cap start' k) = slot (place cap start (k + 1))

lemma Holds.erase {index : Nat}
    (closed : Closed slot slot' cap start start' index l.length) (hi : index < l.length) :
    Holds slot' cap start' (l.eraseIdx index) := by
  intro k hk
  rw [length_eraseIdx_of_lt hi] at hk
  rw [getElem?_eraseIdx]
  split
  next less => rw [closed.before k less, h k (by omega)]
  next greater => rw [closed.after k (by omega) (by omega), h (k + 1) (by omega)]

/-- A block that may wrap around has been copied, and nothing else has changed. -/
structure Copied (slot slot' : Slots T) (cap dst src len : Nat) : Prop where
  inside : ∀ i, i < len → slot' (place cap dst i) = slot (place cap src i)
  outside : ∀ i, len ≤ i → i < cap → slot' (place cap dst i) = slot (place cap dst i)

/-- The first `m` elements have gone behind the others. -/
lemma Holds.rotate {m : Nat} (hm : m ≤ l.length)
    (front : ∀ k < l.length - m, slot' (place cap start' k) = slot (place cap start (m + k)))
    (back : ∀ k < m, slot' (place cap start' (l.length - m + k)) = slot (place cap start k)) :
    Holds slot' cap start' (l.rotate m) := by
  intro k hk
  rw [length_rotate] at hk
  rw [rotate_eq_drop_append_take hm]
  by_cases first : k < l.length - m
  · rw [getElem?_append_left (by rw [length_drop]; exact first), getElem?_drop,
      front k first, h (m + k) (by omega)]
  · obtain ⟨j, rfl⟩ : ∃ j, k = l.length - m + j := ⟨k - (l.length - m), by omega⟩
    have length : (l.drop m).length = l.length - m := length_drop
    rw [getElem?_append_right (by omega), length, Nat.add_sub_cancel_left,
      getElem?_take_of_lt (by omega), back j (by omega), h j (by omega)]

/-- The elements from `first` to `last` are gone, and the others have closed the hole. -/
lemma Holds.cut {first last : Nat} (hfirst : first ≤ last) (hlast : last ≤ l.length)
    (front : ∀ k < first, slot' (place cap start' k) = slot (place cap start k))
    (back : ∀ k < l.length - last,
      slot' (place cap start' (first + k)) = slot (place cap start (last + k))) :
    Holds slot' cap start' (l.take first ++ l.drop last) := by
  have length : (l.take first).length = first := length_take_of_le (by omega)
  intro k hk
  rw [length_append, length_drop] at hk
  by_cases low : k < first
  · rw [getElem?_append_left (by omega), getElem?_take_of_lt low, front k low, h k (by omega)]
  · obtain ⟨j, rfl⟩ : ∃ j, k = first + j := ⟨k - first, by omega⟩
    rw [getElem?_append_right (by omega), length, Nat.add_sub_cancel_left,
      getElem?_drop, back j (by omega), h (last + j) (by omega)]

end RingMemory
