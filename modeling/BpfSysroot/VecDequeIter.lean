import BpfSysroot.DoubleEnded
import BpfSysroot.VecDequeBulk

/-!
# The traversals of a `VecDeque` iterator

An iterator is a ring that is only read. `fold`, `try_fold`, `nth`, `rfold` and `try_rfold` go
through the two slices of the ring and compute the place where they stopped; they are compared with
loops over `next` and `next_back`. The accumulator of a function stands for what its closure
remembers as well, so that equal results mean equal calls.
-/

namespace VecDeque

open Allocating Allocating.Outcome RingMemory List
open DoubleEnded (ofEnd replies)

variable {T β ε : Type}

/-- An iterator has a tail, a head and the whole buffer as its ring, as the deque has. -/
abbrev Iter (T : Type) := VecDeque T

def iter (d : VecDeque T) : Iter T := d

/-- `try_fold` on a slice: the result and what is left of the slice. -/
def tryFold (f : β → T → Except ε β) : List T → β → Except ε β × List T
  | [], b => (.ok b, [])
  | x :: xs, b =>
    match f b x with
    | .ok b => tryFold f xs b
    | .error e => (.error e, xs)

/-- `try_rfold` on a slice, which it goes through from the back. -/
def tryRfold (f : β → T → Except ε β) (xs : List T) (b : β) : Except ε β × List T :=
  ((tryFold f xs.reverse b).1, (tryFold f xs.reverse b).2.reverse)

namespace Iter

variable (it : Iter T)

def next : Outcome (Option T × Iter T) := do
  if it.tail = it.head then
    return (none, it)
  else
    let x ← it.bufferRead it.tail
    return (some x, { it with tail := wrapIndex (wrappingAdd it.tail 1) it.cap })

def nextBack : Outcome (Option T × Iter T) := do
  if it.tail = it.head then
    return (none, it)
  else
    let head := wrapIndex (wrappingSub it.head 1) it.cap
    let x ← it.bufferRead head
    return (some x, { it with head := head })

/-- The slice of the ring between two indices. -/
def slice (start stop : Nat) : Outcome (List T) := do
  assert (start ≤ stop)
  assert (stop ≤ it.cap)
  it.takeBlock start (stop - start)

def ringSlices : Outcome (List T × List T) := do
  if it.tail ≤ it.head then
    return (← it.slice it.tail it.head, [])
  else
    assert (it.head ≤ it.tail)
    return (← it.slice it.tail it.cap, ← it.slice 0 it.head)

def fold (f : β → T → β) (accum : β) : Outcome β := do
  let (front, back) ← it.ringSlices
  return back.foldl f (front.foldl f accum)

def rfold (f : β → T → β) (accum : β) : Outcome β := do
  let (front, back) ← it.ringSlices
  return front.reverse.foldl f (back.reverse.foldl f accum)

def tryFold (f : β → T → Except ε β) (init : β) : Outcome (Except ε β × Iter T) := do
  if it.tail ≤ it.head then
    let (res, left) := VecDeque.tryFold f (← it.slice it.tail it.head) init
    return (res, { it with tail := ← sub it.head left.length })
  else
    let (res, left) := VecDeque.tryFold f (← it.slice it.tail it.cap) init
    let it := { it with tail := (it.cap - left.length) &&& (it.cap - 1) }
    match res with
    | .error e => return (.error e, it)
    | .ok b =>
      let (res, left) := VecDeque.tryFold f (← it.slice 0 it.head) b
      return (res, { it with tail := ← sub it.head left.length })

def tryRfold (f : β → T → Except ε β) (init : β) : Outcome (Except ε β × Iter T) := do
  if it.tail ≤ it.head then
    let (res, left) := VecDeque.tryRfold f (← it.slice it.tail it.head) init
    return (res, { it with head := it.tail + left.length })
  else
    let back ← it.slice it.tail it.cap
    let (res, left) := VecDeque.tryRfold f (← it.slice 0 it.head) init
    let it := { it with head := left.length }
    match res with
    | .error e => return (.error e, it)
    | .ok b =>
      let (res, left) := VecDeque.tryRfold f back b
      return (res, { it with head := it.tail + left.length })

def nth (n : Nat) : Outcome (Option T × Iter T) := do
  if count it.tail it.head it.cap ≤ n then
    return (none, { it with tail := it.head })
  else
    next { it with tail := wrapIndex (wrappingAdd it.tail n) it.cap }

def call (front : Bool) : Outcome (Option T × Iter T) := if front then it.next else it.nextBack

def calls : List Bool → Iter T → Outcome (List (Option T) × Iter T)
  | [], it => return ([], it)
  | front :: script, it => do
    let (x, it) ← it.call front
    let (rest, it) ← calls script it
    return (x :: rest, it)

/-- A loop over `next` or `next_back`; a ring has less than `len` elements. -/
def loop (step : Iter T → Outcome (Option T × Iter T)) (f : β → T → Except ε β) :
    Nat → β → Iter T → Outcome (Except ε β × Iter T)
  | 0, _, _ => .fault
  | fuel + 1, b, it => do
    match ← step it with
    | (none, it) => return (.ok b, it)
    | (some x, it) =>
      match f b x with
      | .ok b => loop step f fuel b it
      | .error e => return (.error e, it)

def nthByNext : Nat → Iter T → Outcome (Option T × Iter T)
  | 0, it => it.next
  | n + 1, it => do
    match ← it.next with
    | (none, it) => return (none, it)
    | (some _, it) => nthByNext n it

end Iter

section
variable (f : β → T → Except ε β)

/-- Some elements are visited, at least one if there is one. -/
lemma tryFold_left (xs : List T) (b : β) :
    ∃ n ≤ xs.length, (xs ≠ [] → 0 < n) ∧ (tryFold f xs b).2 = xs.drop n := by
  induction xs generalizing b with
  | nil => exact ⟨0, le_rfl, absurd rfl, rfl⟩
  | cons x xs ih =>
    rw [tryFold]
    cases f b x with
    | ok b =>
      obtain ⟨n, le, -, left⟩ := ih b
      exact ⟨n + 1, Nat.succ_le_succ le, fun _ => Nat.succ_pos n, left⟩
    | error e => exact ⟨1, Nat.le_add_left _ _, fun _ => Nat.one_pos, rfl⟩

lemma tryFold_append (xs ys : List T) (b : β) :
    tryFold f (xs ++ ys) b =
      match tryFold f xs b with
      | (.ok b, _) => tryFold f ys b
      | (.error e, left) => (.error e, left ++ ys) := by
  induction xs generalizing b with
  | nil => rfl
  | cons x xs ih =>
    rw [cons_append, tryFold, tryFold]
    cases f b x with
    | ok b => exact ih b
    | error e => rfl

end

namespace Iter

variable {it : Iter T} {l : List T} {x : T}

/-- The iterator without its first elements. -/
def skip (it : Iter T) (n : Nat) : Iter T := { it with tail := place it.cap it.tail n }

/-- The iterator with its first elements only. -/
def keep (it : Iter T) (n : Nat) : Iter T := { it with head := place it.cap it.tail n }

section
variable (rep : Rep it l)
include rep

lemma rep_skip {n : Nat} (le : n ≤ l.length) : Rep (it.skip n) (l.drop n) := rep.dropFront le

lemma rep_keep {n : Nat} (le : n ≤ l.length) : Rep (it.keep n) (l.take n) := rep.takeFront le

lemma skip_skip {m n : Nat} (le : m + n ≤ l.length) : (it.skip m).skip n = it.skip (m + n) := by
  have free := rep.free
  dsimp only [skip]
  rw [place_place rep.tail_lt (by omega)]

lemma skip_zero : it.skip 0 = it := by
  rw [skip, show place it.cap it.tail 0 = it.tail from if_pos rep.tail_lt]

lemma done_iff : it.tail = it.head ↔ l = [] := by
  have free := rep.free
  have inside := rep.tail_lt
  rw [rep.head_eq, ← length_eq_zero_iff]
  grind [place]

end

lemma next_nil (rep : Rep it []) : it.next = .ok (none, it) := by
  rw [next, if_pos ((done_iff rep).mpr rfl)]
  rfl

lemma bufferRead_eq {k : Nat} (rep : Rep it l) (there : l[k]? = some x) :
    it.bufferRead (place it.cap it.tail k) = .ok x := by
  obtain ⟨inside, rfl⟩ := List.getElem?_eq_some_iff.mp there
  have free := rep.free
  rw [bufferRead, check, if_pos (place_lt rep.tail_lt (by omega)), rep.read inside]
  rfl

lemma next_cons (rep : Rep it (x :: l)) : it.next = .ok (some x, it.skip 1) := by
  have free := rep.free
  have read := bufferRead_eq rep (show (x :: l)[0]? = some x from rfl)
  rw [show place it.cap it.tail 0 = it.tail from if_pos rep.tail_lt] at read
  rw [next, if_neg ((done_iff rep).not.mpr (cons_ne_nil _ _)), read,
    rep.cap.wrapIndex_add rep.tail_lt (by omega)]
  rfl

lemma nextBack_nil (rep : Rep it []) : it.nextBack = .ok (none, it) := by
  rw [nextBack, if_pos ((done_iff rep).mpr rfl)]
  rfl

lemma nextBack_concat (rep : Rep it (l ++ [x])) : it.nextBack = .ok (some x, it.keep l.length) := by
  have free := rep.free
  have inside := rep.tail_lt
  have head := rep.head_eq
  have back : wrapIndex (wrappingSub it.head 1) it.cap = place it.cap it.tail l.length := by
    rw [head, rep.cap.wrapIndex_sub (place_lt inside (by omega)) (by omega)]
    grind [place]
  rw [nextBack, if_neg ((done_iff rep).not.mpr (by simp)), back]
  dsimp only
  rw [bufferRead_eq rep getElem?_concat_length]
  rfl

section
variable (f : β → T → Except ε β)
include f

lemma loop_next (fuel : Nat) (b : β) (rep : Rep it l) (enough : l.length < fuel) :
    loop next f fuel b it =
      .ok ((VecDeque.tryFold f l b).1, it.skip (l.length - (VecDeque.tryFold f l b).2.length)) := by
  induction fuel generalizing it l b with
  | zero => exact absurd enough (Nat.not_lt_zero _)
  | succ fuel ih =>
    rw [loop]
    cases l with
    | nil =>
      rw [next_nil rep, VecDeque.tryFold, length_nil, skip_zero rep]
      rfl
    | cons x l =>
      rw [next_cons rep, VecDeque.tryFold]
      change (match f b x with | .ok b => loop next f fuel b (it.skip 1) | .error e => _) = _
      cases f b x with
      | ok b =>
        obtain ⟨n, le, -, left⟩ := tryFold_left f l b
        have later : Rep (it.skip 1) l := rep_skip rep (Nat.le_add_left 1 _)
        refine (ih b later (Nat.lt_of_succ_lt_succ enough)).trans ?_
        rw [left, length_drop, length_cons, skip_skip rep (by rw [length_cons]; omega)]
        congr 3
        omega
      | error e =>
        rw [length_cons, Nat.add_sub_cancel_left]
        rfl

lemma tryRfold_concat (xs : List T) (x : T) (b : β) : VecDeque.tryRfold f (xs ++ [x]) b =
      match f b x with
      | .ok b => VecDeque.tryRfold f xs b
      | .error e => (.error e, xs) := by
  rw [VecDeque.tryRfold, reverse_concat, VecDeque.tryFold]
  cases f b x with
  | ok b => rfl
  | error e => exact congrArg (Prod.mk _) (reverse_reverse xs)

lemma loop_nextBack (fuel : Nat) (b : β) (rep : Rep it l) (enough : l.length < fuel) :
    loop nextBack f fuel b it =
      .ok ((VecDeque.tryRfold f l b).1, it.keep (VecDeque.tryRfold f l b).2.length) := by
  induction fuel generalizing it l b with
  | zero => exact absurd enough (Nat.not_lt_zero _)
  | succ fuel ih =>
    rw [loop]
    rcases eq_nil_or_concat' l with rfl | ⟨l, x, rfl⟩
    · rw [nextBack_nil rep]
      have same : it.keep 0 = it := by
        rw [keep, show place it.cap it.tail 0 = it.head from rep.head_eq.symm]
      change ok (Except.ok b, it) = ok (Except.ok b, it.keep 0)
      rw [same]
    · rw [nextBack_concat rep, tryRfold_concat]
      change (match f b x with | .ok b => loop nextBack f fuel b (it.keep _) | .error e => _) = _
      cases f b x with
      | ok b =>
        have later : Rep (it.keep l.length) l := by
          have shorter := rep_keep rep (show l.length ≤ (l ++ [x]).length by simp)
          rwa [take_left] at shorter
        rw [length_append] at enough
        exact ih b later (Nat.lt_of_succ_lt_succ enough)
      | error e => rfl

end

lemma slice_eq {start : Nat} {xs : List T} (it : Iter T) (le : start + xs.length ≤ it.cap)
    (holds : ∀ i < xs.length, it.slot (start + i) = xs[i]?) :
    it.slice start (start + xs.length) = .ok xs := by
  rw [slice, assert, if_pos (Nat.le_add_right _ _), assert, if_pos le, Nat.add_sub_cancel_left]
  exact takeBlock_eq le holds

lemma slice_straight (rep : Rep it l) (straight : it.tail ≤ it.head) :
    it.tail + l.length = it.head ∧ it.slice it.tail it.head = .ok l := by
  have inside := rep.head_lt
  have head := rep.isContiguous_iff.mp (decide_eq_true straight)
  refine ⟨head, ?_⟩
  rw [← head]
  apply slice_eq it (by omega)
  intro i before
  rw [← rep.holds i before, place, if_pos (by omega)]

/-- A ring that wraps around, as the block at the end of the buffer and the one at its start. -/
lemma slices_around (rep : Rep it l) (around : ¬ it.tail ≤ it.head) :
    ∃ a b, l = a ++ b ∧ it.tail + a.length = it.cap ∧ b.length = it.head ∧
      it.slice it.tail it.cap = .ok a ∧
      ∀ tail, slice { it with tail := tail } 0 it.head = .ok b := by
  have inside := rep.tail_lt
  have wraps := rep.wraps (decide_eq_false around)
  have first : (l.take (it.cap - it.tail)).length = it.cap - it.tail := length_take_of_le (by omega)
  have second : (l.drop (it.cap - it.tail)).length = it.head := by
    rw [length_drop]
    omega
  refine ⟨_, _, (take_append_drop (it.cap - it.tail) l).symm, by omega, second, ?_, ?_⟩
  · have holds : ∀ i < (l.take (it.cap - it.tail)).length,
        it.slot (it.tail + i) = (l.take (it.cap - it.tail))[i]? := by
      intro i before
      rw [getElem?_take_of_lt (by omega), ← rep.holds i (by omega), place, if_pos (by omega)]
    have block := slice_eq it (by omega) holds
    rwa [first, show it.tail + (it.cap - it.tail) = it.cap by omega] at block
  · intro tail
    have holds : ∀ i < (l.drop (it.cap - it.tail)).length,
        it.slot (0 + i) = (l.drop (it.cap - it.tail))[i]? := by
      intro i before
      rw [getElem?_drop, ← rep.holds _ (by omega), place, if_neg (by omega)]
      exact congrArg it.slot (by omega)
    have block := slice_eq { it with tail := tail } (by dsimp only; omega) holds
    rwa [zero_add, second] at block

lemma ringSlices_eq (rep : Rep it l) :
    ∃ front back, it.ringSlices = .ok (front, back) ∧ front ++ back = l := by
  rw [ringSlices]
  by_cases straight : it.tail ≤ it.head
  · rw [if_pos straight, (slice_straight rep straight).2]
    exact ⟨l, [], rfl, append_nil l⟩
  · obtain ⟨a, b, rfl, -, -, back, front⟩ := slices_around rep straight
    rw [if_neg straight, assert, if_pos (by omega), back,
      show it.slice 0 it.head = .ok b from front it.tail]
    exact ⟨a, b, rfl, rfl⟩

lemma fold_eq (f : β → T → β) (b : β) (rep : Rep it l) : it.fold f b = .ok (l.foldl f b) := by
  obtain ⟨front, back, slices, rfl⟩ := ringSlices_eq rep
  rw [fold, slices, foldl_append]
  rfl

lemma rfold_eq (f : β → T → β) (b : β) (rep : Rep it l) :
    it.rfold f b = .ok (l.reverse.foldl f b) := by
  obtain ⟨front, back, slices, rfl⟩ := ringSlices_eq rep
  rw [rfold, slices, reverse_append, foldl_append]
  rfl

section
variable (f : β → T → Except ε β)
include f

lemma tryFold_eq (b : β) (rep : Rep it l) : it.tryFold f b =
      .ok ((VecDeque.tryFold f l b).1, it.skip (l.length - (VecDeque.tryFold f l b).2.length)) := by
  have inside := rep.tail_lt
  have below := rep.head_lt
  rw [Iter.tryFold]
  by_cases straight : it.tail ≤ it.head
  · obtain ⟨head, slice⟩ := slice_straight rep straight
    obtain ⟨n, le, -, left⟩ := tryFold_left f l b
    rw [if_pos straight, slice]
    change (sub it.head (VecDeque.tryFold f l b).2.length >>= _) = _
    rw [left, length_drop, sub, if_pos (by omega), skip, place, if_pos (by omega),
      show it.head - (l.length - n) = it.tail + (l.length - (l.length - n)) by omega]
    rfl
  · obtain ⟨back, front, rfl, stop, head, slice, slice'⟩ := slices_around rep straight
    rw [if_neg straight, slice, tryFold_append]
    obtain ⟨n, le, -, left⟩ := tryFold_left f back b
    change (match (VecDeque.tryFold f back b).1 with | .error e => _ | .ok b => _) = _
    cases visited : VecDeque.tryFold f back b with
    | mk res rest =>
      rw [visited] at left
      obtain rfl : rest = back.drop n := left
      cases res with
      | error e =>
        have mask : (it.cap - (back.drop n).length) &&& (it.cap - 1) =
            place it.cap it.tail ((back ++ front).length - (back.drop n ++ front).length) := by
          change wrapIndex _ _ = _
          rw [rep.cap.wrapIndex_eq, length_append, length_append, length_drop,
            place_eq_mod inside (by omega)]
          congr 1
          omega
        rw [mask]
        rfl
      | ok b =>
        obtain ⟨m, le', -, left'⟩ := tryFold_left f front b
        rw [slice']
        change (sub it.head (VecDeque.tryFold f front b).2.length >>= _) = _
        rw [left', length_drop, sub, if_pos (by omega), skip, length_append, place,
          if_neg (by omega), show it.head - (front.length - m) =
            it.tail + (back.length + front.length - (front.length - m)) - it.cap by omega]
        rfl

lemma tryRfold_left (xs : List T) (b : β) :
    ∃ n ≤ xs.length, (xs ≠ [] → n < xs.length) ∧ (VecDeque.tryRfold f xs b).2 = xs.take n := by
  obtain ⟨n, le, some, left⟩ := tryFold_left f xs.reverse b
  rw [ne_nil_iff_length_pos, length_reverse] at some
  refine ⟨xs.length - n, Nat.sub_le _ _, ?_, ?_⟩
  · rw [ne_nil_iff_length_pos]
    omega
  · rw [VecDeque.tryRfold, left, reverse_drop, reverse_reverse, length_reverse]

lemma tryRfold_append (xs ys : List T) (b : β) : VecDeque.tryRfold f (xs ++ ys) b =
      match VecDeque.tryRfold f ys b with
      | (.ok b, _) => VecDeque.tryRfold f xs b
      | (.error e, left) => (.error e, xs ++ left) := by
  rw [VecDeque.tryRfold, VecDeque.tryRfold, reverse_append, tryFold_append]
  cases VecDeque.tryFold f ys.reverse b with
  | mk res left =>
    cases res with
    | ok b => rfl
    | error e =>
      rw [reverse_append, reverse_reverse]

lemma tryRfold_eq (b : β) (rep : Rep it l) : it.tryRfold f b =
      .ok ((VecDeque.tryRfold f l b).1, it.keep (VecDeque.tryRfold f l b).2.length) := by
  have inside := rep.tail_lt
  have below := rep.head_lt
  rw [Iter.tryRfold]
  by_cases straight : it.tail ≤ it.head
  · obtain ⟨head, slice⟩ := slice_straight rep straight
    obtain ⟨n, le, -, left⟩ := tryRfold_left f l b
    have length : (l.take n).length = n := length_take_of_le le
    rw [← left] at length
    rw [if_pos straight, slice, keep, place, if_pos (by omega)]
    rfl
  · obtain ⟨back, front, rfl, stop, head, slice, slice'⟩ := slices_around rep straight
    obtain ⟨n, le, -, left⟩ := tryRfold_left f front b
    rw [if_neg straight, slice, tryRfold_append, ok_bind,
      show it.slice 0 it.head = .ok front from slice' it.tail, ok_bind]
    cases visited : VecDeque.tryRfold f front b with
    | mk res rest =>
      obtain rfl : rest = front.take n := (congrArg Prod.snd visited).symm.trans left
      have length : (front.take n).length = n := length_take_of_le le
      cases res with
      | error e =>
        dsimp only
        rw [keep, length_append, length, place, if_neg (by omega),
          show it.tail + (back.length + n) - it.cap = n by omega]
        rfl
      | ok b =>
        obtain ⟨m, le', some, left'⟩ := tryRfold_left f back b
        rw [ne_nil_iff_length_pos] at some
        have length' : (VecDeque.tryRfold f back b).2.length = m := by
          rw [left', length_take_of_le le']
        dsimp only
        rw [keep, place, if_pos (by omega)]
        rfl

end

lemma nth_eq (n : Nat) (rep : Rep it l) :
    it.nth n = .ok (l[n]?, it.skip (min (n + 1) l.length)) := by
  have free := rep.free
  have length : count it.tail it.head it.cap = l.length := rep.len_eq
  rw [nth, length]
  by_cases behind : l.length ≤ n
  · rw [if_pos behind, getElem?_eq_none behind, min_eq_right (by omega), skip, ← rep.head_eq]
    rfl
  · rw [if_neg behind, rep.cap.wrapIndex_add rep.tail_lt (by omega)]
    have later := rep_skip rep (show n ≤ l.length by omega)
    rw [drop_eq_getElem_cons (by omega)] at later
    refine (next_cons later).trans ?_
    rw [skip_skip rep (by omega), getElem?_eq_getElem (by omega), min_eq_left (by omega)]

lemma nthByNext_eq (n : Nat) (rep : Rep it l) :
    nthByNext n it = .ok (l[n]?, it.skip (min (n + 1) l.length)) := by
  induction n generalizing it l with
  | zero =>
    rw [nthByNext]
    cases l with
    | nil => rw [next_nil rep, length_nil, Nat.min_zero, skip_zero rep, getElem?_nil]
    | cons x l =>
      rw [next_cons rep]
      rfl
  | succ n ih =>
    rw [nthByNext]
    cases l with
    | nil =>
      rw [next_nil rep, length_nil, Nat.min_zero, skip_zero rep]
      rfl
    | cons x l =>
      rw [next_cons rep]
      refine (ih (rep_skip rep (Nat.le_add_left 1 _))).trans ?_
      rw [skip_skip rep (by simp; omega), getElem?_cons_succ]
      congr 3
      simp
      omega

end Iter

lemma Iter.call_eq {it : Iter T} {l : List T} (front : Bool) (rep : Rep it l) :
    ∃ it', it.call front = .ok ((DoubleEnded.ask (ofEnd front) l).1, it') ∧
      Rep it' (DoubleEnded.ask (ofEnd front) l).2 := by
  cases front with
  | true =>
    rw [call, if_pos rfl, ofEnd, if_pos rfl, DoubleEnded.ask]
    cases l with
    | nil => exact ⟨it, next_nil rep, rep⟩
    | cons x l => exact ⟨it.skip 1, next_cons rep, rep_skip rep (Nat.le_add_left 1 _)⟩
  | false =>
    rw [call, if_neg Bool.false_ne_true, ofEnd, if_neg Bool.false_ne_true, DoubleEnded.ask]
    rcases eq_nil_or_concat' l with rfl | ⟨l, x, rfl⟩
    · exact ⟨it, nextBack_nil rep, rep⟩
    · have shorter := rep_keep rep (show l.length ≤ (l ++ [x]).length by simp)
      rw [take_left] at shorter
      rw [getLast?_concat, dropLast_concat]
      exact ⟨it.keep l.length, nextBack_concat rep, shorter⟩

/-- The iterator reached by a script of calls has the elements that the script leaves. -/
lemma Iter.calls_eq {it : Iter T} {l : List T} (script : List Bool) (rep : Rep it l) :
    ∃ it', it.calls script = .ok (replies (script.map ofEnd) l, it') ∧
      Rep it' (DoubleEnded.rest (script.map ofEnd) l) := by
  induction script generalizing it l with
  | nil => exact ⟨it, rfl, rep⟩
  | cons front script ih =>
    obtain ⟨it', answered, rep'⟩ := call_eq front rep
    obtain ⟨it'', later, rep''⟩ := ih rep'
    refine ⟨it'', ?_, rep''⟩
    rw [calls, answered, ok_bind]
    dsimp only
    rw [later]
    rfl

lemma tryFold_total (f : β → T → β) (l : List T) (b : β) :
    tryFold (fun b x => (.ok (f b x) : Except Empty β)) l b = (.ok (l.foldl f b), []) := by
  induction l generalizing b with
  | nil => rfl
  | cons x l ih => exact ih (f b x)

/-- After any calls at the two ends, the traversals through the slices do what the loops over `next`
and `next_back` do, and leave the same iterator. -/
theorem iter_traversals_agree {d : VecDeque T} {l : List T} (rep : Rep d l) (script : List Bool) :
    ∃ it left, left = DoubleEnded.rest (script.map ofEnd) l ∧
      d.iter.calls script = .ok (replies (script.map ofEnd) l, it) ∧
      (∀ n, ∃ it', it.nth n = .ok (left[n]?, it') ∧ Iter.nthByNext n it = .ok (left[n]?, it') ∧
        Rep it' (left.drop (n + 1))) ∧
      (∀ (β : Type) (f : β → T → β) (b : β),
        it.fold f b = .ok (left.foldl f b) ∧ it.rfold f b = .ok (left.reverse.foldl f b) ∧
        (∃ it', Iter.loop Iter.next (fun b x => (.ok (f b x) : Except Empty β)) it.cap b it =
          .ok (.ok (left.foldl f b), it')) ∧
        ∃ it', Iter.loop Iter.nextBack (fun b x => (.ok (f b x) : Except Empty β)) it.cap b it =
          .ok (.ok (left.reverse.foldl f b), it')) ∧
      ∀ (β ε : Type) (f : β → T → Except ε β) (b : β),
        (∃ it', it.tryFold f b = .ok ((tryFold f left b).1, it') ∧
          Iter.loop Iter.next f it.cap b it = .ok ((tryFold f left b).1, it') ∧
          Rep it' (tryFold f left b).2) ∧
        ∃ it', it.tryRfold f b = .ok ((tryRfold f left b).1, it') ∧
          Iter.loop Iter.nextBack f it.cap b it = .ok ((tryRfold f left b).1, it') ∧
          Rep it' (tryRfold f left b).2 := by
  obtain ⟨it, called, rep'⟩ := Iter.calls_eq script (show Rep d.iter l from rep)
  refine ⟨it, _, rfl, called, ?_, ?_, ?_⟩
  all_goals generalize DoubleEnded.rest (script.map ofEnd) l = left at rep' ⊢
  · intro n
    refine ⟨_, Iter.nth_eq n rep', Iter.nthByNext_eq n rep', ?_⟩
    have later := Iter.rep_skip rep' (min_le_right (n + 1) left.length)
    rwa [← drop_eq_drop_min] at later
  · intro β f b
    have front := Iter.loop_next (fun b x => (.ok (f b x) : Except Empty β)) it.cap b rep' rep'.free
    have back := Iter.loop_nextBack (fun b x => (.ok (f b x) : Except Empty β)) it.cap b rep'
      rep'.free
    rw [tryRfold] at back
    rw [tryFold_total] at front back
    exact ⟨Iter.fold_eq f b rep', Iter.rfold_eq f b rep', ⟨_, front⟩, ⟨_, back⟩⟩
  · intro β ε f b
    constructor
    · refine ⟨_, Iter.tryFold_eq f b rep', Iter.loop_next f it.cap b rep' rep'.free, ?_⟩
      obtain ⟨n, le, -, rest⟩ := tryFold_left f left b
      rw [rest, length_drop, Nat.sub_sub_self le]
      exact Iter.rep_skip rep' le
    · refine ⟨_, Iter.tryRfold_eq f b rep', Iter.loop_nextBack f it.cap b rep' rep'.free, ?_⟩
      obtain ⟨n, le, -, rest⟩ := Iter.tryRfold_left f left b
      rw [rest, length_take_of_le le]
      exact Iter.rep_keep rep' le

theorem iter_traversals_across :
    ∃ it, across.iter.calls [true, false] = .ok ([some 6, some 2], it) ∧
      it.fold (· + ·) 0 = .ok 8 := by
  obtain ⟨it, left, rfl, called, -, folds, -⟩ := iter_traversals_agree rep_across [true, false]
  exact ⟨it, called, (folds Nat (· + ·) 0).1⟩

end VecDeque
