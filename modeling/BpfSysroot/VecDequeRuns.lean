import BpfSysroot.VecDequeDrain

/-!
# Runs of `VecDeque` operations against sequences

Several deques may be in play, since `split_off` makes a new one and `append`
empties one into another. The list machine says what each call is for; it has no
result for an index that the call does not accept. Every run of the deque model
returns what the list machine returns, or panics where that has no result.
-/

namespace VecDequeRuns

open Allocating Allocating.Outcome VecDeque List

variable {T S : Type}

/-- Calls on one deque. A drain comes with the calls made on it before it is dropped, and the
elements to extend by come with the iterator's size hints. -/
inductive Call (T S : Type)
  | pushFront (value : T)
  | pushBack (value : T)
  | popFront
  | popBack
  | insert (index : Nat) (value : T)
  | remove (index : Nat)
  | swap (i j : Nat)
  | swapRemoveFront (index : Nat)
  | swapRemoveBack (index : Nat)
  | truncate (len : Nat)
  | retain (f : S → T → Bool × S) (s : S)
  | resizeWith (newLen : Nat) (generator : S → T × S) (s : S)
  | extend (items : List (T × Nat))
  | rotateLeft (mid : Nat)
  | rotateRight (k : Nat)
  | reserve (additional : Nat)
  | drain (first last : Bound) (script : List Bool)

/-- Calls that create, split or join deques. -/
inductive Op (T S : Type)
  | new
  | withCapacity (capacity : Nat)
  | fromIter (lower : Nat) (items : List (T × Nat))
  | on (i : Nat) (call : Call T S)
  | splitOff (i at_ : Nat)
  | append (i j : Nat)

/-- What a call returns; for closures with a state, also the state they end in. -/
inductive Out (T S : Type)
  | unit
  | item (x : Option T)
  | items (xs : List (Option T))
  | state (s : S)

def call (d : VecDeque T) : Call T S → Outcome (Out T S × VecDeque T)
  | .pushFront value => do return (.unit, ← d.pushFront value)
  | .pushBack value => do return (.unit, ← d.pushBack value)
  | .popFront => do
    let (x, d) ← d.popFront
    return (.item x, d)
  | .popBack => do
    let (x, d) ← d.popBack
    return (.item x, d)
  | .insert index value => do return (.unit, ← d.insert index value)
  | .remove index => do
    let (x, d) ← d.remove index
    return (.item x, d)
  | .swap i j => do return (.unit, ← d.swap i j)
  | .swapRemoveFront index => do
    let (x, d) ← d.swapRemoveFront index
    return (.item x, d)
  | .swapRemoveBack index => do
    let (x, d) ← d.swapRemoveBack index
    return (.item x, d)
  | .truncate len => do
    let (_, d) ← d.truncate len
    return (.unit, d)
  | .retain f s => do
    let (s, d) ← d.retain f s
    return (.state s, d)
  | .resizeWith newLen generator s => do
    let (s, d) ← d.resizeWith newLen generator s
    return (.state s, d)
  | .extend items => do return (.unit, ← VecDeque.extend items d)
  | .rotateLeft mid => do return (.unit, ← d.rotateLeft mid)
  | .rotateRight k => do return (.unit, ← d.rotateRight k)
  | .reserve additional => do return (.unit, ← d.reserve additional)
  | .drain first last script => do
    let r ← d.drain first last
    let (xs, r) ← r.calls script
    let d ← r.drop
    return (.items xs, d)

/-- A call on a deque that is not there cannot be written; it does nothing here. -/
def step (pool : List (VecDeque T)) : Op T S → Outcome (Out T S × List (VecDeque T))
  | .new => do return (.unit, pool ++ [← VecDeque.new])
  | .withCapacity capacity => do return (.unit, pool ++ [← VecDeque.withCapacity capacity])
  | .fromIter lower items => do return (.unit, pool ++ [← VecDeque.fromIter lower items])
  | .on i c =>
    match pool[i]? with
    | none => return (.unit, pool)
    | some d => do
      let (out, d) ← call d c
      return (out, pool.set i d)
  | .splitOff i at_ =>
    match pool[i]? with
    | none => return (.unit, pool)
    | some d => do
      let (other, d) ← d.splitOff at_
      return (.unit, pool.set i d ++ [other])
  | .append i j =>
    match pool[i]?, pool[j]? with
    | some d, some other =>
      if i = j then
        return (.unit, pool)
      else do
        let (d, other) ← d.append other
        return (.unit, (pool.set i d).set j other)
    | _, _ => return (.unit, pool)

def run : List (VecDeque T) → List (Op T S) → Outcome (List (Out T S) × List (VecDeque T))
  | pool, [] => return ([], pool)
  | pool, op :: ops => do
    let (out, pool) ← step pool op
    let (outs, pool) ← run pool ops
    return (out :: outs, pool)

def listCall (l : List T) : Call T S → Option (Out T S × List T)
  | .pushFront value => some (.unit, value :: l)
  | .pushBack value => some (.unit, l ++ [value])
  | .popFront => some (.item l.head?, l.tail)
  | .popBack => some (.item l.getLast?, l.dropLast)
  | .insert index value => if index ≤ l.length then some (.unit, l.insertIdx index value) else none
  | .remove index => some (.item l[index]?, l.eraseIdx index)
  | .swap i j =>
    if i < l.length ∧ j < l.length then some (.unit, SliceMemory.swap l i j) else none
  | .swapRemoveFront index => some (.item l[index]?,
      if index < l.length then (SliceMemory.swap l index 0).tail else l)
  | .swapRemoveBack index => some (.item l[index]?,
      if index < l.length then (SliceMemory.swap l index (l.length - 1)).dropLast else l)
  | .truncate len => some (.unit, l.take len)
  | .retain f s => some (.state (kept f s l).1, (kept f s l).2)
  | .resizeWith newLen generator s =>
    some (.state (resized newLen generator s l).1, (resized newLen generator s l).2)
  | .extend items => some (.unit, l ++ items.map Prod.fst)
  | .rotateLeft mid => if mid ≤ l.length then some (.unit, l.rotate mid) else none
  | .rotateRight k => if k ≤ l.length then some (.unit, l.rotate (l.length - k)) else none
  | .reserve _ => some (.unit, l)
  | .drain first last script =>
    if accepts first last l.length then
      some (.items (Draining.taken script ((l.take (last.stop l.length)).drop first.start)),
        l.take first.start ++ l.drop (last.stop l.length))
    else none

def listStep (lists : List (List T)) : Op T S → Option (Out T S × List (List T))
  | .new => some (.unit, lists ++ [[]])
  | .withCapacity _ => some (.unit, lists ++ [[]])
  | .fromIter _ items => some (.unit, lists ++ [items.map Prod.fst])
  | .on i c =>
    match lists[i]? with
    | none => some (.unit, lists)
    | some l => do
      let (out, l) ← listCall l c
      some (out, lists.set i l)
  | .splitOff i at_ =>
    match lists[i]? with
    | none => some (.unit, lists)
    | some l =>
      if at_ ≤ l.length then some (.unit, lists.set i (l.take at_) ++ [l.drop at_]) else none
  | .append i j =>
    match lists[i]?, lists[j]? with
    | some l, some m =>
      if i = j then some (.unit, lists) else some (.unit, (lists.set i (l ++ m)).set j [])
    | _, _ => some (.unit, lists)

section
variable {d : VecDeque T} {l : List T}
variable {l' : List T} {pool : List (VecDeque T)} {lists : List (List T)}

/-- The same result, and a deque that represents the list. -/
def Same (r : Out T S × VecDeque T) (s : Out T S × List T) : Prop := r.1 = s.1 ∧ Rep r.2 s.2

lemma ends_unit {x : Outcome (VecDeque T)} (h : x.Ends maxCapacity (fun d' => Rep d' l')) :
    (do return ((.unit : Out T S), ← x)).Ends maxCapacity (fun r => Same r (.unit, l')) :=
  h.bind (fun _ hrep => ends_ok ⟨rfl, hrep⟩)

lemma ends_item {x : Outcome (Option T × VecDeque T)} {y : Option T}
    (h : x.Ends maxCapacity (fun r => r.1 = y ∧ Rep r.2 l')) :
    (do let (x, d) ← x
        return ((.item x : Out T S), d)).Ends maxCapacity (fun r => Same r (.item y, l')) :=
  h.bind (fun _ hrep => ends_ok ⟨congrArg Out.item hrep.1, hrep.2⟩)

lemma ends_state {x : Outcome (S × VecDeque T)} {s : S}
    (h : x.Ends maxCapacity (fun r => r.1 = s ∧ Rep r.2 l')) :
    (do let (s, d) ← x
        return ((.state s : Out T S), d)).Ends maxCapacity (fun r => Same r (.state s, l')) :=
  h.bind (fun _ hrep => ends_ok ⟨congrArg Out.state hrep.1, hrep.2⟩)

lemma call_refines (h : Rep d l) (c : Call T S) :
    (call d c).Refines maxCapacity (listCall l c) Same := by
  cases c with
  | pushFront value => exact ends_unit (h.pushFront value)
  | pushBack value => exact ends_unit (h.pushBack value)
  | popFront => exact ends_item h.popFront
  | popBack => exact ends_item h.popBack
  | insert index value =>
    apply refines_if
    · intro accepted
      exact ends_unit (h.insert accepted value)
    · intro rejected
      rw [call, VecDeque.insert, h.len_eq, assert_panic rejected]
      rfl
  | remove index => exact ends_item (h.remove index)
  | swap i j =>
    apply refines_if
    · rintro ⟨hi, hj⟩
      exact ends_unit (h.swap hi hj)
    · intro rejected
      rw [call, VecDeque.swap, h.len_eq]
      by_cases hi : i < l.length
      · rw [assert, if_pos hi, assert_panic (fun hj => rejected ⟨hi, hj⟩)]
        rfl
      · rw [assert_panic hi]
        rfl
  | swapRemoveFront index => exact ends_item (h.swapRemoveFront index)
  | swapRemoveBack index => exact ends_item (h.swapRemoveBack index)
  | truncate len => exact (h.truncate len).bind (fun _ hrep => ends_ok ⟨rfl, hrep.2⟩)
  | retain f s => exact ends_state (h.retain f s)
  | resizeWith newLen generator s => exact ends_state (h.resizeWith newLen generator s)
  | extend items => exact ends_unit (h.extend items)
  | rotateLeft mid =>
    apply refines_if
    · intro accepted
      exact ends_unit (h.rotateLeft accepted)
    · intro rejected
      rw [call, VecDeque.rotateLeft, h.len_eq, assert_panic rejected]
      rfl
  | rotateRight k =>
    apply refines_if
    · intro accepted
      exact ends_unit (h.rotateRight accepted)
    · intro rejected
      rw [call, VecDeque.rotateRight, h.len_eq, assert_panic rejected]
      rfl
  | reserve additional => exact ends_unit ((h.reserve additional).mono (fun _ hrep => hrep.1))
  | drain first last script =>
    apply refines_if
    · intro accepted
      apply (h.drain accepted).bind
      intro r draining
      apply (draining.calls script).bind
      rintro ⟨xs, r'⟩ ⟨hxs, i', j', draining', -⟩
      exact draining'.drop.bind (fun d' hrep => ends_ok ⟨congrArg Out.items hxs, hrep⟩)
    · intro rejected
      rw [call, h.drain_panics rejected]
      rfl

/-- The pools of a deque run and of a list run. -/
abbrev Pools : List (VecDeque T) → List (List T) → Prop := List.Forall₂ Rep

def SamePools (r : Out T S × List (VecDeque T)) (s : Out T S × List (List T)) : Prop :=
  r.1 = s.1 ∧ Pools r.2 s.2

variable (h : Pools pool lists)
include h

lemma Pools.set (i : Nat) (hd : Rep d l) : Pools (pool.set i d) (lists.set i l) := by
  induction h generalizing i with
  | nil => exact .nil
  | cons first rest ih =>
    cases i with
    | zero => exact .cons hd rest
    | succ i => exact .cons first (ih i)

lemma Pools.append_one (hd : Rep d l) : Pools (pool ++ [d]) (lists ++ [l]) :=
  rel_append h (.cons hd .nil)

lemma Pools.lookup (i : Nat) : (pool[i]? = none ∧ lists[i]? = none) ∨
      ∃ d l, pool[i]? = some d ∧ lists[i]? = some l ∧ Rep d l := by
  induction h generalizing i with
  | nil => exact .inl ⟨rfl, rfl⟩
  | cons first rest ih =>
    cases i with
    | zero => exact .inr ⟨_, _, rfl, rfl, first⟩
    | succ i => exact ih i

lemma step_refines (op : Op T S) :
    (step pool op).Refines maxCapacity (listStep lists op) SamePools := by
  cases op with
  | new =>
    have empty : (VecDeque.new : Outcome (VecDeque T)).Ends maxCapacity (fun d => Rep d []) :=
      (withCapacity_spec initialCapacity).mono (fun d hrep => hrep.1)
    apply Ends.refines
    apply empty.bind
    intro d hrep
    exact ends_ok ⟨rfl, h.append_one hrep⟩
  | withCapacity capacity =>
    exact (withCapacity_spec _).bind (fun d hrep => ends_ok ⟨rfl, h.append_one hrep.1⟩)
  | fromIter lower items =>
    exact (fromIter_spec lower items).bind (fun d hrep => ends_ok ⟨rfl, h.append_one hrep⟩)
  | on i c =>
    rw [step, listStep]
    rcases h.lookup i with ⟨hi, hi'⟩ | ⟨d, l, hi, hi', hrep⟩
    · rw [hi, hi']
      exact refines_ok ⟨rfl, h⟩
    · rw [hi, hi']
      exact (call_refines hrep c).bind (fun r s same => refines_ok ⟨same.1, h.set i same.2⟩)
  | splitOff i at_ =>
    rw [step, listStep]
    rcases h.lookup i with ⟨hi, hi'⟩ | ⟨d, l, hi, hi', hrep⟩
    · rw [hi, hi']
      exact refines_ok ⟨rfl, h⟩
    · rw [hi, hi']
      apply refines_if
      · intro accepted
        exact (hrep.splitOff accepted).bind
          (fun r both => ends_ok ⟨rfl, (h.set i both.2).append_one both.1⟩)
      · intro rejected
        dsimp only
        rw [VecDeque.splitOff, hrep.len_eq, assert_panic rejected]
        rfl
  | append i j =>
    rw [step, listStep]
    rcases h.lookup i with ⟨hi, hi'⟩ | ⟨d, l, hi, hi', hrep⟩
    · rw [hi, hi']
      exact refines_ok ⟨rfl, h⟩
    rcases h.lookup j with ⟨hj, hj'⟩ | ⟨other, m, hj, hj', hother⟩
    · rw [hi, hi', hj, hj']
      exact refines_ok ⟨rfl, h⟩
    · rw [hi, hi', hj, hj']
      dsimp only
      split
      · exact refines_ok ⟨rfl, h⟩
      · exact (hrep.append hother).bind
          (fun r both => ends_ok ⟨rfl, (h.set i both.1).set j both.2⟩)

end

end VecDequeRuns
