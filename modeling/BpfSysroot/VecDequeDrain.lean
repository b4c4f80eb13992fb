import BpfSysroot.DoubleEnded
import BpfSysroot.VecDequeBulk

/-!
# Draining a range of a `VecDeque`

A draining iterator has shortened its deque to the elements before the range and
remembers where the elements behind it stand. `Draining` says so of the whole
sequence that the buffer still holds. The iterator returns the range from both
ends, and however far it got, dropping it leaves the sequence without the range.
-/

namespace VecDeque

open Allocating Allocating.Outcome RingMemory List
open DoubleEnded (handed ofEnd replies)

variable {T : Type} {d : VecDeque T} {l : List T} {limit first last i j : Nat}

section
variable {e : VecDeque T}

/-- A hole is closed by moving the elements before it on. -/
lemma closeFromFront (h : Rep d l) (hfirst : first ≤ last) (hlast : last ≤ l.length)
    (tail_eq : e.tail = place d.cap d.tail (last - first)) (head_eq : e.head = d.head)
    (cap_eq : e.cap = d.cap) (slot_eq : e.slot = d.slot) :
    (e.wrapCopy e.tail d.tail first).Ends limit
      (fun d' => Rep d' (l.take first ++ l.drop last)) := by
  have hfree := h.free
  have htail := h.tail_lt
  have length : (l.take first ++ l.drop last).length = first + (l.length - last) := by
    rw [length_append, length_take_of_le (by omega), length_drop]
  have hnew : e.tail < d.cap := tail_eq ▸ place_lt htail (by omega)
  apply (wrapCopy_spec _ _ _ _).mono
  · rintro d' ⟨etail, ehead, ecap, inside, outside⟩
    rw [cap_eq] at ecap
    rw [cap_eq, slot_eq] at inside outside
    refine ⟨ecap ▸ h.power, ecap ▸ h.bound, ?_, ?_, ?_, ?_⟩
    all_goals rw [ecap]
    · rw [etail]
      exact hnew
    · rw [etail, ehead, head_eq, tail_eq, h.head_eq, place_place htail (by omega)]
      congr 1
      omega
    · omega
    · rw [etail]
      apply h.holds.cut hfirst hlast inside
      intro k hk
      rw [outside (first + k) (by omega) (by omega), tail_eq, place_place htail (by omega)]
      congr 2
      omega
  · exact cap_eq ▸ h.cap
  · exact cap_eq ▸ hnew
  · exact cap_eq ▸ htail
  · grind [diff, place]

/-- A hole is closed by moving the elements behind it back. -/
lemma closeFromBack (h : Rep d l) (hfirst : first ≤ last) (hlast : last ≤ l.length)
    (tail_eq : e.tail = d.tail) (head_eq : e.head = place d.cap d.tail (first + (l.length - last)))
    (cap_eq : e.cap = d.cap) (slot_eq : e.slot = d.slot) :
    (e.wrapCopy (place d.cap d.tail first) (place d.cap d.tail last) (l.length - last)).Ends
      limit (fun d' => Rep d' (l.take first ++ l.drop last)) := by
  have hfree := h.free
  have htail := h.tail_lt
  have length : (l.take first ++ l.drop last).length = first + (l.length - last) := by
    rw [length_append, length_take_of_le (by omega), length_drop]
  apply (wrapCopy_spec _ _ _ _).mono
  · rintro d' ⟨etail, ehead, ecap, inside, outside⟩
    rw [cap_eq] at ecap
    rw [cap_eq, slot_eq] at inside outside
    refine ⟨ecap ▸ h.power, ecap ▸ h.bound, ?_, ?_, ?_, ?_⟩
    all_goals rw [ecap]
    · rw [etail, tail_eq]
      exact htail
    · rw [etail, ehead, tail_eq, head_eq, length]
    · omega
    · rw [etail, tail_eq]
      apply h.holds.cut hfirst hlast
      · intro k hk
        have same := outside (d.cap - first + k) (by omega) (by omega)
        rw [place_around htail (by omega) (by omega) (by omega),
          show first + (d.cap - first + k) - d.cap = k by omega] at same
        exact same
      · intro k hk
        have moved := inside k hk
        rw [place_place htail (by omega), place_place htail (by omega)] at moved
        exact moved
  · exact cap_eq ▸ h.cap
  · rw [cap_eq]
    exact place_lt htail (by omega)
  · rw [cap_eq]
    exact place_lt htail (by omega)
  · grind [diff, place]

end

/-- The iterator drains the elements of `l` from `first` to `last`, and those from `i` to `j` are
still to come. -/
structure Draining (r : Drain T) (l : List T) (first last i j : Nat) : Prop where
  whole : Rep { r.deque with head := r.afterHead } l
  first_le : first ≤ i
  le : i ≤ j
  le_last : j ≤ last
  last_le : last ≤ l.length
  head_eq : r.deque.head = place r.deque.cap r.deque.tail first
  afterTail_eq : r.afterTail = place r.deque.cap r.deque.tail last
  iterTail_eq : r.iterTail = place r.deque.cap r.deque.tail i
  iterHead_eq : r.iterHead = place r.deque.cap r.deque.tail j

namespace Draining
variable {r : Drain T}

section
variable (h : Draining r l first last i j)
include h

lemma lt_cap : last < r.deque.cap := by
  have := h.whole.free
  have := h.last_le
  dsimp only at *
  omega

lemma tail_lt : r.deque.tail < r.deque.cap := h.whole.tail_lt

lemma cap : Cap r.deque.cap := h.whole.cap

lemma done_iff : r.iterTail = r.iterHead ↔ i = j := by
  have := h.lt_cap
  have := h.le
  have := h.le_last
  rw [h.iterTail_eq, h.iterHead_eq]
  constructor
  · intro same
    exact place_inj (by omega) (by omega) same
  · intro same
    rw [same]

lemma next : r.next.Ends limit (fun out =>
      out.1 = ((l.take j).drop i).head? ∧
        ∃ i', Draining out.2 l first last i' j ∧
          (l.take j).drop i' = ((l.take j).drop i).tail) := by
  have hcap := h.lt_cap
  have hle := h.le
  have hlast := h.le_last
  have hlength := h.last_le
  rw [Drain.next]
  by_cases done : i = j
  · subst done
    rw [if_pos (h.done_iff.mpr rfl)]
    refine ends_ok ⟨?_, i, h, ?_⟩ <;> simp
  · rw [if_neg (h.done_iff.not.mpr done), h.iterTail_eq]
    have inside : i < l.length := by omega
    apply ends_bufferRead (place_lt h.tail_lt (by omega)) (h.whole.read inside)
    rw [h.cap.wrapIndex_add (place_lt h.tail_lt (by omega)) (by omega),
      place_place h.tail_lt (by omega)]
    have first_left : (l.take j).drop i = l[i] :: (l.take j).drop (i + 1) := by
      rw [drop_eq_getElem_cons (by rw [length_take]; omega), getElem_take]
    refine ends_ok ⟨?_, i + 1, ?_, ?_⟩
    · rw [first_left]
      rfl
    · exact ⟨h.whole, by have := h.first_le; omega, by omega, hlast, hlength, h.head_eq,
        h.afterTail_eq, rfl, h.iterHead_eq⟩
    · rw [first_left]
      rfl

lemma nextBack : r.nextBack.Ends limit (fun out =>
      out.1 = ((l.take j).drop i).getLast? ∧
        ∃ j', Draining out.2 l first last i j' ∧
          (l.take j').drop i = ((l.take j).drop i).dropLast) := by
  have hcap := h.lt_cap
  have hle := h.le
  have hlast := h.le_last
  have hlength := h.last_le
  have htail := h.tail_lt
  rw [Drain.nextBack]
  by_cases done : i = j
  · subst done
    rw [if_pos (h.done_iff.mpr rfl)]
    refine ends_ok ⟨?_, i, h, ?_⟩ <;> simp
  · obtain ⟨j, rfl⟩ : ∃ k, j = k + 1 := ⟨j - 1, by omega⟩
    have back : wrapIndex (wrappingSub r.iterHead 1) r.deque.cap
        = place r.deque.cap r.deque.tail j := by
      rw [h.iterHead_eq, h.cap.wrapIndex_sub (place_lt htail (by omega)) (by omega)]
      grind [place]
    rw [if_neg (h.done_iff.not.mpr done), back]
    have inside : j < l.length := by omega
    apply ends_bufferRead (place_lt htail (by omega)) (h.whole.read inside)
    have last_left : (l.take (j + 1)).drop i = (l.take j).drop i ++ [l[j]] := by
      rw [take_succ_eq_append_getElem inside, drop_append_of_le_length]
      rw [length_take]
      omega
    refine ends_ok ⟨?_, j, ?_, ?_⟩
    · rw [last_left, getLast?_concat]
    · exact ⟨h.whole, h.first_le, by omega, by omega, hlength, h.head_eq, h.afterTail_eq,
        h.iterTail_eq, rfl⟩
    · rw [last_left, dropLast_concat]

end

/-- What a script of calls from the front (`true`) and from the back returns. -/
def taken : List Bool → List T → List (Option T)
  | [], _ => []
  | true :: script, l => l.head? :: taken script l.tail
  | false :: script, l => l.getLast? :: taken script l.dropLast

lemma taken_eq (script : List Bool) (l : List T) :
    taken script l = replies (script.map ofEnd) l := by
  induction script generalizing l with
  | nil => rfl
  | cons front script ih => cases front <;> exact congrArg (List.cons _) (ih _)

section
variable (h : Draining r l first last i j)
include h

lemma calls (script : List Bool) : (Drain.calls script r).Ends limit (fun out =>
      out.1 = taken script ((l.take j).drop i) ∧ ∃ i' j', Draining out.2 l first last i' j' ∧
        (l.take j').drop i' =
          DoubleEnded.rest (script.map ofEnd) ((l.take j).drop i)) := by
  induction script generalizing r i j with
  | nil => exact ends_ok ⟨rfl, i, j, h, rfl⟩
  | cons front script ih =>
    cases front with
    | true =>
      apply h.next.bind
      rintro ⟨x, r'⟩ ⟨hx, i', h', rest⟩
      apply (ih h').bind
      rintro ⟨xs, r''⟩ ⟨hxs, left⟩
      rw [rest] at hxs left
      exact ends_ok ⟨congrArg₂ List.cons hx hxs, left⟩
    | false =>
      apply h.nextBack.bind
      rintro ⟨x, r'⟩ ⟨hx, j', h', rest⟩
      apply (ih h').bind
      rintro ⟨xs, r''⟩ ⟨hxs, left⟩
      rw [rest] at hxs left
      exact ends_ok ⟨congrArg₂ List.cons hx hxs, left⟩

lemma exhaust {fuel : Nat} (enough : ((l.take j).drop i).length < fuel) :
    (Drain.exhaust fuel r).Ends limit (fun out =>
      out.1.map Prod.fst = (l.take j).drop i ∧
        ∃ i', Draining out.2 l first last i' j ∧ (l.take j).drop i' = []) := by
  induction fuel generalizing r i with
  | zero => exact absurd enough (Nat.not_lt_zero _)
  | succ fuel ih =>
    apply h.next.bind
    rintro ⟨x, r'⟩ ⟨hx, i', h', rest⟩
    cases left : (l.take j).drop i with
    | nil =>
      rw [left] at hx
      rw [left] at rest
      subst hx
      exact ends_ok ⟨rfl, i', h', rest⟩
    | cons y ys =>
      rw [left] at hx
      rw [left, tail_cons] at rest
      rw [left, length_cons] at enough
      subst hx
      apply (ih h' (by rw [rest]; omega)).bind
      rintro ⟨items, r''⟩ ⟨hitems, left'⟩
      rw [rest] at hitems
      exact ends_ok ⟨congrArg (List.cons y) hitems, left'⟩

lemma length_lt_cap : ((l.take j).drop i).length < r.deque.cap := by
  have := h.lt_cap
  have := h.le_last
  rw [length_drop, length_take]
  omega

lemma restore : r.restore.Ends limit (fun d => Rep d (l.take first ++ l.drop last)) := by
  have hcap := h.lt_cap
  have hlast := h.last_le
  have htail := h.tail_lt
  have hfree : l.length < r.deque.cap := h.whole.free
  have hfirst : first ≤ last := h.first_le.trans (h.le.trans h.le_last)
  have hafter : r.afterTail < r.deque.cap := h.afterTail_eq ▸ place_lt htail hcap.le
  have hhead : r.afterHead = place r.deque.cap r.afterTail (l.length - last) := by
    rw [h.afterTail_eq, place_place htail (by omega), Nat.add_sub_cancel' hlast]
    exact h.whole.head_eq
  have before : count r.deque.tail r.deque.head r.deque.cap = first := by
    rw [h.head_eq]
    exact h.cap.count_place htail (by omega)
  have behind : count r.afterTail r.afterHead r.deque.cap = l.length - last := by
    rw [hhead]
    exact h.cap.count_place hafter (by omega)
  rw [Drain.restore, before, behind]
  split
  next nothing =>
    have none : l.take 0 ++ l.drop last = [] := by
      rw [take_zero, nil_append, drop_eq_nil_iff]
      omega
    rw [none]
    refine ends_ok ⟨h.cap.power, h.cap.bound, h.cap.pos, ?_, h.cap.pos, holds_nil⟩
    rw [length_nil, place, if_pos h.cap.pos]
  next =>
    rw [h.afterTail_eq]
    exact h.whole.dropFront hlast
  next nothing =>
    rw [drop_eq_nil_of_le (by omega), append_nil]
    rw [h.head_eq]
    exact h.whole.takeFront (by omega)
  next =>
    split
    · apply closeFromFront h.whole hfirst hlast
      · dsimp only [wrapSub]
        rw [h.cap.wrapIndex_sub hafter (by omega), h.afterTail_eq]
        grind [place]
      all_goals rfl
    · rw [h.head_eq, h.afterTail_eq]
      apply closeFromBack h.whole hfirst hlast
      · rfl
      · dsimp only [wrapAdd]
        rw [h.cap.wrapIndex_add (place_lt htail (by omega)) (by omega),
          place_place htail (by omega)]
      all_goals rfl

/-- Both loops of the drop: the second one finds nothing. -/
lemma dropAll : r.dropAll.Ends limit (fun out =>
      out.1 = (l.take j).drop i ∧ Rep out.2 (l.take first ++ l.drop last)) := by
  apply (h.exhaust h.length_lt_cap).bind
  rintro ⟨items, r'⟩ ⟨dropped, i', h', none_left⟩
  apply (h'.exhaust h'.length_lt_cap).bind
  rintro ⟨more, r''⟩ ⟨nothing, i'', h'', -⟩
  apply h''.restore.bind
  intro d rep
  refine ends_ok ⟨?_, rep⟩
  rw [map_append, dropped, nothing, none_left, append_nil]

end

lemma drop_eq (r : Drain T) : r.drop = r.dropAll >>= fun out => pure out.2 := by
  unfold Drain.drop Drain.dropAll
  rw [bind_assoc]
  refine congrArg _ (funext fun ⟨items, r⟩ => ?_)
  dsimp only
  rw [bind_assoc]
  refine congrArg _ (funext fun ⟨more, r⟩ => ?_)
  rw [bind_assoc]
  exact (bind_pure _).symm

lemma drop (h : Draining r l first last i j) :
    r.drop.Ends limit (fun d => Rep d (l.take first ++ l.drop last)) := by
  rw [drop_eq]
  exact h.dropAll.bind fun _ out => ends_ok out.2

/-- If the iterator is leaked, the deque has the elements before the range. -/
lemma leaked (h : Draining r l first last i j) : Rep r.deque (l.take first) := by
  have shorter := h.whole.takeFront (h.first_le.trans (h.le.trans (h.le_last.trans h.last_le)))
  rwa [← h.head_eq] at shorter

end Draining

/-- The first index of a range that begins with this bound. -/
def Bound.start : Bound → Nat
  | .included i => i
  | .excluded i => i + 1
  | .unbounded => 0

/-- The index behind a range that ends with this bound. -/
def Bound.stop (len : Nat) : Bound → Nat
  | .included i => i + 1
  | .excluded i => i
  | .unbounded => len

/-- The ranges that `drain` accepts. -/
def accepts (first last : Bound) (len : Nat) : Prop :=
  first.start ≤ last.stop len ∧ last.stop len ≤ len

instance (first last : Bound) (len : Nat) : Decidable (accepts first last len) :=
  inferInstanceAs (Decidable (_ ∧ _))

lemma assertLen_eq (first last : Bound) (len : Nat) :
    assertLen first last len =
      if accepts first last len then .ok (first.start, last.stop len) else .panic := by
  have unfolded : assertLen first last len = (do
      assert (first.start ≤ last.stop len)
      assert (last.stop len ≤ len)
      return (first.start, last.stop len)) := by
    cases first <;> cases last <;> rfl
  rw [unfolded, assert, assert]
  split
  next order =>
    split
    next inside => exact (if_pos ⟨order, inside⟩).symm
    next outside => exact (if_neg (fun h : accepts first last len => outside h.2)).symm
  next order => exact (if_neg (fun h : accepts first last len => order h.1)).symm

lemma Rep.drain (h : Rep d l) {first last : Bound} (ok : accepts first last l.length) :
    (d.drain first last).Ends limit (fun r =>
      Draining r l first.start (last.stop l.length) first.start (last.stop l.length)) := by
  have hfree := h.free
  obtain ⟨order, inside⟩ := ok
  rw [VecDeque.drain, h.len_eq, assertLen_eq, if_pos ⟨order, inside⟩]
  refine ends_ok ⟨h, le_rfl, order, le_rfl, inside, ?_, ?_, ?_, ?_⟩
  all_goals exact h.wrapAdd_eq h.tail_lt (by omega)

lemma Rep.drain_panics (h : Rep d l) {first last : Bound} (bad : ¬ accepts first last l.length) :
    d.drain first last = .panic := by
  rw [VecDeque.drain, h.len_eq, assertLen_eq, if_neg bad]
  rfl

/-- The calls on the iterator are answered with the range from its two ends, the drop gives up what
is left of it and closes the hole; a leak leaves the elements before the range. -/
theorem drain_exact (rep : Rep d l) {first last : Bound} (accepted : accepts first last l.length)
    (script : List Bool) :
    ∃ given r dropped d', (do let r ← d.drain first last; r.calls script) = .ok (given, r) ∧
      r.dropAll = .ok (dropped, d') ∧ r.drop = .ok d' ∧
      given = replies (script.map ofEnd)
        ((l.take (last.stop l.length)).drop first.start) ∧
      handed true script given ++ dropped ++
        (handed false script given).reverse =
          (l.take (last.stop l.length)).drop first.start ∧
      Rep d' (l.take first.start ++ l.drop (last.stop l.length)) ∧
      Rep r.deque (l.take first.start) := by
  obtain ⟨⟨given, r⟩, called, answers, i, j, draining, left⟩ :=
    ok_of_ends fun _ => (rep.drain accepted).bind fun _ draining => draining.calls script
  obtain ⟨⟨dropped, d'⟩, drops, items, rep'⟩ := ok_of_ends fun _ => draining.dropAll
  dsimp only at answers items left
  rw [Draining.taken_eq] at answers
  refine ⟨given, r, dropped, d', called, drops, ?_, answers, ?_, rep', draining.leaked⟩
  · rw [Draining.drop_eq, drops]
    rfl
  · rw [items, left, answers, DoubleEnded.handed_replies]

theorem drain_exact_across :
    ∃ given r dropped d',
      (do let r ← across.drain (.included 1) (.excluded 4); r.calls [false, true]) =
        .ok (given, r) ∧ r.dropAll = .ok (dropped, d') ∧
      given = [some 1, some 7] ∧ dropped = [0] ∧ Rep d' [6, 2] ∧ Rep r.deque [6] := by
  have accepted : accepts (.included 1) (.excluded 4) 5 := by decide
  obtain ⟨given, r, dropped, d', called, drops, -, answers, whole, rep, leak⟩ :=
    drain_exact rep_across accepted [false, true]
  change given = [some 1, some 7] at answers
  subst answers
  refine ⟨_, r, dropped, d', called, drops, rfl, ?_, rep, leak⟩
  have joined : dropped ++ [1] = [0] ++ [1] := by
    simpa [handed, Bound.start, Bound.stop] using whole
  exact append_cancel_right joined

lemma Rep.append {other : VecDeque T} {m : List T} (h : Rep d l) (hother : Rep other m) :
    (d.append other).Ends maxCapacity (fun r => Rep r.1 (l ++ m) ∧ Rep r.2 []) := by
  have whole : accepts .unbounded .unbounded m.length := ⟨Nat.zero_le _, le_rfl⟩
  apply (hother.drain whole).bind
  intro r draining
  apply (draining.exhaust draining.length_lt_cap).bind
  rintro ⟨items, r'⟩ ⟨hitems, i', draining', -⟩
  apply (h.extend items).bind
  intro d' hd'
  apply draining'.drop.bind
  intro other' hother'
  refine ends_ok ⟨?_, ?_⟩
  · rw [hitems] at hd'
    simpa [Bound.start, Bound.stop] using hd'
  · simpa [Bound.start, Bound.stop] using hother'

end VecDeque
