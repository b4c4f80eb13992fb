import BpfSysroot.VecDequeSpecs

/-!
# The operations of `VecDeque` on many elements

Specifications in terms of `Rep` for the operations that read the ring as two
slices (`truncate`, `split_off`), for the loops (`extend`, `retain`) and for
draining a range.
-/

namespace VecDeque

open Allocating Allocating.Outcome RingMemory List

variable {T S : Type} {d : VecDeque T} {l : List T}

lemma Rep.swapRemoveFront (h : Rep d l) (index : Nat) :
    (d.swapRemoveFront index).Ends maxCapacity (fun r => r.1 = l[index]? ∧
      Rep r.2 (if index < l.length then (SliceMemory.swap l index 0).tail else l)) := by
  rw [VecDeque.swapRemoveFront, h.len_eq]
  by_cases inside : index < l.length
  · rw [if_pos inside]
    have head_swap : (SliceMemory.swap l index 0).head? = l[index]? := by
      rw [head?_eq_getElem?, SliceMemory.getElem?_swap inside (by omega), SliceMemory.swapAt_right]
    by_cases first : index = 0
    · rw [if_neg (by omega), if_neg (by omega)]
      apply h.popFront.mono
      rintro r ⟨hr, hrep⟩
      subst first
      rw [SliceMemory.swap_self]
      exact ⟨hr.trans head?_eq_getElem?, hrep⟩
    · rw [if_pos ⟨by omega, inside, first⟩]
      apply (h.swap inside (by omega)).bind
      intro d' hrep
      apply hrep.popFront.mono
      rintro r ⟨hr, hrep⟩
      exact ⟨hr.trans head_swap, hrep⟩
  · rw [if_neg (by omega), if_pos (by omega), if_neg inside]
    exact ends_ok ⟨(getElem?_eq_none (by omega)).symm, h⟩

lemma Rep.swapRemoveBack (h : Rep d l) (index : Nat) :
    (d.swapRemoveBack index).Ends maxCapacity (fun r => r.1 = l[index]? ∧
      Rep r.2 (if index < l.length then (SliceMemory.swap l index (l.length - 1)).dropLast
        else l)) := by
  rw [VecDeque.swapRemoveBack, h.len_eq]
  by_cases inside : index < l.length
  · rw [if_pos inside]
    have last_swap : (SliceMemory.swap l index (l.length - 1)).getLast? = l[index]? := by
      rw [getLast?_eq_getElem?, SliceMemory.length_swap,
        SliceMemory.getElem?_swap inside (by omega), SliceMemory.swapAt_right]
    by_cases last : index = l.length - 1
    · rw [if_neg (by omega), if_neg (by omega)]
      apply h.popBack.mono
      rintro r ⟨hr, hrep⟩
      rw [last, SliceMemory.swap_self]
      exact ⟨hr.trans getLast?_eq_getElem?, hrep⟩
    · rw [if_pos ⟨by omega, by omega⟩]
      apply (h.swap inside (by omega)).bind
      intro d' hrep
      apply hrep.popBack.mono
      rintro r ⟨hr, hrep⟩
      exact ⟨hr.trans last_swap, hrep⟩
  · rw [if_neg (by omega), if_pos (by omega), if_neg inside]
    exact ends_ok ⟨(getElem?_eq_none (by omega)).symm, h⟩

lemma takeBlock_eq {off : Nat} {xs : List T} (hoff : off + xs.length ≤ d.cap)
    (hxs : ∀ i < xs.length, d.slot (off + i) = xs[i]?) : d.takeBlock off xs.length = .ok xs := by
  induction xs generalizing off with
  | nil => rfl
  | cons x xs ih =>
    rw [length_cons] at hoff
    have first : d.slot off = some x := hxs 0 (Nat.succ_pos _)
    have rest := ih (by omega) (show ∀ i < xs.length, d.slot (off + 1 + i) = xs[i]? by
      intro i hi
      have := hxs (i + 1) (Nat.succ_lt_succ hi)
      rwa [← add_assoc, add_right_comm] at this)
    rw [length_cons, takeBlock, bufferRead, check, if_pos (by omega), first, rest]
    rfl

/-- Where the two slices are: `a` elements from the tail on and `b` at the start of the buffer. -/
lemma Rep.asSlices (h : Rep d l) :
    ∃ a b, d.asSlices = .ok ((d.tail, a), (0, b)) ∧ a + b = l.length ∧ d.tail + a ≤ d.cap ∧
      (∀ i < a, place d.cap d.tail i = d.tail + i) ∧
      (∀ i < b, place d.cap d.tail (a + i) = i) := by
  have htail := h.tail_lt
  have hheadlt := h.head_lt
  rw [VecDeque.asSlices]
  cases shape : d.isContiguous with
  | true =>
    have hhead := h.isContiguous_iff.mp shape
    refine ⟨l.length, 0, ?_, rfl, by omega, ?_, ?_⟩
    · rw [assert, if_pos hheadlt.le, ← hhead, Nat.add_sub_cancel_left]
      rfl
    · intro i hi
      exact if_pos (by omega)
    · intro i hi
      exact absurd hi (Nat.not_lt_zero i)
  | false =>
    have around := h.wraps shape
    refine ⟨d.cap - d.tail, d.head, ?_, by omega, by omega, ?_, ?_⟩
    · rw [if_neg (by decide), assert, if_pos htail.le]
      rfl
    · intro i hi
      exact if_pos (by omega)
    · intro i hi
      rw [place, if_neg (by omega)]
      omega

/-- Reading `n` elements from index `s` on that lie in one block. -/
lemma Rep.takeBlock (h : Rep d l) {off s n : Nat} (hn : s + n ≤ l.length)
    (block : ∀ i < n, place d.cap d.tail (s + i) = off + i) (hoff : off + n ≤ d.cap) :
    d.takeBlock off n = .ok ((l.drop s).take n) := by
  have length : ((l.drop s).take n).length = n := by
    rw [length_take, length_drop]
    omega
  have read : d.takeBlock off ((l.drop s).take n).length = .ok ((l.drop s).take n) := by
    apply takeBlock_eq (by omega)
    intro i hi
    rw [length] at hi
    rw [getElem?_take_of_lt hi, getElem?_drop, ← block i hi, h.holds (s + i) (by omega)]
  rwa [length] at read

lemma Rep.truncate (h : Rep d l) (len : Nat) :
    (d.truncate len).Ends maxCapacity (fun r => r.1 = l.drop len ∧ Rep r.2 (l.take len)) := by
  rw [VecDeque.truncate, h.len_eq]
  by_cases longer : l.length < len
  · rw [if_pos longer]
    refine ends_ok ⟨(drop_of_length_le (by omega)).symm, ?_⟩
    rw [take_of_length_le (by omega)]
    exact h
  · rw [if_neg longer]
    have hlen : len ≤ l.length := Nat.le_of_not_lt longer
    have hfree := h.free
    have shorter := h.takeFront hlen
    obtain ⟨a, b, slices, sum, fits, front, back⟩ := h.asSlices
    apply ends_sub hlen
    rw [slices, h.wrapSub_head hlen]
    apply ends_ok rfl |>.bind
    rintro _ rfl
    dsimp only
    by_cases second : a < len
    · rw [if_pos second]
      apply ends_sub second.le
      apply ends_sub (by omega)
      rw [h.takeBlock (s := len) (by omega) (by
        intro i hi
        have := back (len - a + i) (by omega)
        rwa [← add_assoc, Nat.add_sub_cancel' second.le, ← zero_add (len - a)] at this)
        (by omega)]
      refine ends_ok ⟨?_, shorter⟩
      rw [take_of_length_le]
      rw [length_drop]
      omega
    · rw [if_neg second]
      apply ends_sub (by omega)
      rw [h.takeBlock (s := len) (by omega) (by
        intro i hi
        rw [front (len + i) (by omega), add_assoc]) (by omega),
        h.takeBlock (s := a) (by omega) (by
          intro i hi
          rw [back i hi, zero_add]) (by omega)]
      refine ends_ok ⟨?_, shorter⟩
      have rest : (l.drop a).take b = (l.drop len).drop (a - len) := by
        rw [drop_drop, Nat.add_sub_cancel' (by omega)]
        exact take_of_length_le (by rw [length_drop]; omega)
      rw [rest, take_append_drop]

lemma ends_copyInto {B : Type} {k : VecDeque T → Outcome B} {R : B → Prop} {other : VecDeque T}
    {dst src len : Nat} (hdst : dst + len ≤ other.cap) (hsrc : src + len ≤ d.cap)
    (hk : (k { other with
      slot := fun p => if dst ≤ p ∧ p < dst + len then d.slot (src + (p - dst)) else other.slot p
      }).Ends maxCapacity R) : (d.copyInto other dst src len >>= k).Ends maxCapacity R := by
  rw [copyInto, check, if_pos hdst, check, if_pos hsrc]
  exact hk

lemma rep_of_start {other : VecDeque T} (hcap : Cap other.cap) (htail : other.tail = 0)
    (hlen : l.length < other.cap) (holds : ∀ k < l.length, other.slot k = l[k]?) :
    Rep { other with head := wrapIndex l.length other.cap } l := by
  have start {k : Nat} (hk : k < other.cap) : place other.cap 0 k = k := by
    rw [place, zero_add, if_pos hk]
  refine ⟨hcap.power, hcap.bound, ?_, ?_, hlen, ?_⟩
  · rw [htail]
    exact hcap.pos
  · rw [htail, start hlen, hcap.wrapIndex_eq, Nat.mod_eq_of_lt hlen]
  · intro k hk
    rw [htail, start (by omega)]
    exact holds k hk

lemma Rep.splitOff (h : Rep d l) {at_ : Nat} (hat : at_ ≤ l.length) :
    (d.splitOff at_).Ends maxCapacity
      (fun r => Rep r.1 (l.drop at_) ∧ Rep r.2 (l.take at_)) := by
  have hfree := h.free
  have shorter := h.takeFront hat
  have length : (l.drop at_).length = l.length - at_ := length_drop
  obtain ⟨a, b, slices, sum, fits, front, back⟩ := h.asSlices
  rw [VecDeque.splitOff, h.len_eq]
  apply ends_assert hat
  apply ends_sub hat
  apply (withCapacity_spec (l.length - at_)).bind
  rintro other ⟨hother, room, htail, -⟩
  rw [slices]
  apply (ends_ok rfl).bind
  rintro _ rfl
  dsimp only
  rw [h.wrapSub_head hat, ← length]
  by_cases first : at_ < a
  · rw [if_pos first]
    apply ends_sub first.le
    apply ends_copyInto (by omega) (by omega)
    apply ends_copyInto (by dsimp only; omega) (by omega)
    refine ends_ok ⟨?_, shorter⟩
    refine rep_of_start ?_ ?_ ?_ ?_
    · exact hother.cap
    · exact htail
    · dsimp only
      omega
    intro k hk
    dsimp only
    rw [getElem?_drop, ← h.holds (at_ + k) (by omega)]
    by_cases low : at_ + k < a
    · rw [front (at_ + k) low, if_neg (by omega), if_pos (by omega)]
      congr 1
      omega
    · have position := back (at_ + k - a) (by omega)
      rw [Nat.add_sub_cancel' (by omega)] at position
      rw [if_pos (by omega)]
      congr 1
      omega
  · rw [if_neg first]
    apply ends_sub (by omega)
    apply ends_sub (by omega)
    apply ends_copyInto (by omega) (by omega)
    refine ends_ok ⟨?_, shorter⟩
    refine rep_of_start ?_ ?_ ?_ ?_
    · exact hother.cap
    · exact htail
    · dsimp only
      omega
    intro k hk
    dsimp only
    rw [getElem?_drop, ← h.holds (at_ + k) (by omega)]
    have position := back (at_ + k - a) (by omega)
    rw [Nat.add_sub_cancel' (by omega)] at position
    rw [if_pos (by omega)]
    congr 1
    omega

lemma Rep.reserveFor (h : Rep d l) (lower : Nat) :
    (d.reserveFor lower).Ends maxCapacity (fun d' => Rep d' l ∧ l.length + 1 < d'.cap) := by
  have hfree := h.free
  rw [VecDeque.reserveFor, capacity, h.len_eq]
  split
  next full =>
    apply (h.reserve (saturatingAdd lower 1)).mono
    rintro d' ⟨hrep, room⟩
    refine ⟨hrep, ?_⟩
    have : 1 ≤ saturatingAdd lower 1 := by
      rw [saturatingAdd, usizeValues]
      omega
    omega
  next notFull => exact ends_ok ⟨h, by omega⟩

lemma Rep.extend (h : Rep d l) (items : List (T × Nat)) :
    (extend items d).Ends maxCapacity (fun d' => Rep d' (l ++ items.map Prod.fst)) := by
  induction items generalizing d l with
  | nil =>
    rw [map_nil, append_nil]
    exact ends_ok h
  | cons item rest ih =>
    obtain ⟨element, lower⟩ := item
    apply (h.reserveFor lower).bind
    rintro d' ⟨hrep, room⟩
    rw [map_cons, append_cons]
    apply Ends.bind _ (fun e he => ih he)
    apply ends_bufferWrite
    · exact hrep.head_lt
    · exact hrep.append_one room element

lemma fromIter_spec (lower : Nat) (items : List (T × Nat)) :
    (fromIter lower items).Ends maxCapacity (fun d => Rep d (items.map Prod.fst)) := by
  apply (withCapacity_spec lower).bind
  rintro d ⟨hrep, -⟩
  exact hrep.extend items

/-- The elements that a predicate with a state keeps, and its last state. -/
def kept (f : S → T → Bool × S) : S → List T → S × List T
  | s, [] => (s, [])
  | s, x :: rest =>
    let (keep, s) := f s x
    let (s, others) := kept f s rest
    (s, if keep then x :: others else others)

lemma swap_around (front junk rest : List T) (x y : T) :
    SliceMemory.swap (front ++ x :: junk ++ y :: rest) front.length
      (front.length + (junk.length + 1)) = front ++ y :: junk ++ x :: rest := by
  simp [SliceMemory.swap]

/-- The deque starts with the elements kept so far; those not kept stand behind them, before the
elements that have not been looked at. -/
lemma Rep.retainLoop {f : S → T → Bool × S} (front junk rest : List T) (s : S)
    (h : Rep d (front ++ junk ++ rest)) :
    (retainLoop f rest.length (front.length + junk.length) junk.length s d).Ends maxCapacity
      (fun r => r.2.1 = (kept f s rest).1 ∧
        ∃ junk', r.1 = junk'.length ∧
          (kept f s rest).2.length + junk'.length = junk.length + rest.length ∧
          Rep r.2.2 (front ++ (kept f s rest).2 ++ junk')) := by
  induction rest generalizing front junk s d with
  | nil => exact ends_ok ⟨rfl, junk, rfl, by simp [kept], by simpa [kept] using h⟩
  | cons x rest ih =>
    rw [length_cons, VecDeque.retainLoop, h.index (x := x) (by simp), kept]
    apply (ends_ok (Q := fun y => y = x) rfl).bind
    intro y hy
    rw [hy]
    obtain ⟨keep, s'⟩ := f s x
    dsimp only
    cases keep with
    | false =>
      have next := ih front (junk ++ [x]) s' (by simpa using h)
      simpa [add_assoc, add_comm 1] using next
    | true =>
      rw [if_pos rfl, append_cons, length_cons]
      cases junk with
      | nil =>
        have next := ih (front ++ [x]) [] s' (by simpa using h)
        simpa [add_right_comm _ 1] using next
      | cons j junk =>
        apply ends_sub (by omega)
        rw [Nat.add_sub_cancel]
        apply (h.swap (by simp) (by simp)).bind
        intro d' hrep
        rw [length_cons, swap_around] at hrep
        have next := ih (front ++ [x]) (junk ++ [j]) s' (by simpa using hrep)
        rw [length_append, length_append, length_singleton, length_singleton,
          add_right_comm] at next
        apply next.mono
        rintro r ⟨same, junk', count, length, hrep'⟩
        exact ⟨same, junk', count, by rw [length_cons]; omega, hrep'⟩

lemma Rep.retain (h : Rep d l) (f : S → T → Bool × S) (s : S) :
    (d.retain f s).Ends maxCapacity
      (fun r => r.1 = (kept f s l).1 ∧ Rep r.2 (kept f s l).2) := by
  rw [VecDeque.retain, h.len_eq]
  apply Ends.bind (h.retainLoop [] [] l s)
  rintro ⟨del, s', d'⟩ ⟨same, junk, count, length, hrep⟩
  rw [nil_append] at hrep
  rw [length_nil, zero_add] at length
  dsimp only at *
  subst count
  split
  next some =>
    apply ends_sub (by omega)
    rw [← length, Nat.add_sub_cancel]
    apply (hrep.truncate _).bind
    rintro ⟨dropped, d''⟩ ⟨-, hrep'⟩
    rw [take_left] at hrep'
    exact ends_ok ⟨same, hrep'⟩
  next none =>
    rw [eq_nil_of_length_eq_zero (Nat.eq_zero_of_not_pos none), append_nil] at hrep
    exact ends_ok ⟨same, hrep⟩

/-- What a generator with a state returns in `n` calls, and its last state. -/
def generated (generator : S → T × S) : Nat → S → S × List T
  | 0, s => (s, [])
  | n + 1, s =>
    let (x, s) := generator s
    let (s, rest) := generated generator n s
    (s, x :: rest)

lemma generate_eq (generator : S → T × S) (n : Nat) (s : S) :
    ((generate generator n s).2, (generate generator n s).1.map Prod.fst) =
      generated generator n s := by
  induction n generalizing s with
  | zero => rfl
  | succ n ih =>
    rw [generate, generated]
    dsimp only
    rw [← ih, map_cons]

/-- The list after `resize_with`, and the generator's last state. -/
def resized (newLen : Nat) (generator : S → T × S) (s : S) (l : List T) : S × List T :=
  if l.length < newLen then
    let (s, new) := generated generator (newLen - l.length) s
    (s, l ++ new)
  else (s, l.take newLen)

lemma Rep.resizeWith (h : Rep d l) (newLen : Nat) (generator : S → T × S) (s : S) :
    (d.resizeWith newLen generator s).Ends maxCapacity
      (fun r => r.1 = (resized newLen generator s l).1 ∧
        Rep r.2 (resized newLen generator s l).2) := by
  rw [VecDeque.resizeWith, resized, h.len_eq]
  split
  next grows =>
    rw [← generate_eq]
    exact (h.extend _).bind (fun d' hrep => ends_ok ⟨rfl, hrep⟩)
  next shrinks => exact (h.truncate newLen).bind (fun r hrep => ends_ok ⟨rfl, hrep.2⟩)

end VecDeque
