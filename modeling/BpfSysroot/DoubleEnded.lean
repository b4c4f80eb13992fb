import Mathlib

/-!
# Iterators that are called at both ends

An iterator is compared with the list of what it has still to give. A step
function that answers each call as the list does, and moves on to what the list
leaves, answers whole runs of calls as the list does. The answers determine the
list.
-/

namespace DoubleEnded

open List

universe u

variable {σ α : Type u}

inductive Call
  | next
  | nextBack
  | nth (n : Nat)
  | nthBack (n : Nat)
  deriving DecidableEq

/-- The answer of a list, and what is left of it. -/
def ask : Call → List α → Option α × List α
  | .next, l => (l.head?, l.tail)
  | .nextBack, l => (l.getLast?, l.dropLast)
  | .nth n, l => (l[n]?, l.drop (n + 1))
  | .nthBack n, l => (l.reverse[n]?, l.take (l.length - (n + 1)))

def Call.index : Call → Nat
  | .nth n | .nthBack n => n
  | _ => 0

def replies : List Call → List α → List (Option α)
  | [], _ => []
  | call :: calls, l => (ask call l).1 :: replies calls (ask call l).2

/-- What a run of calls leaves of a list. -/
def rest : List Call → List α → List α
  | [], l => l
  | call :: calls, l => rest calls (ask call l).2

/-- A call at the front for `true`, at the back for `false`. -/
def ofEnd (front : Bool) : Call := if front then .next else .nextBack

/-- What the calls at one end have handed out, in the order of the calls. -/
def handed (front : Bool) (script : List Bool) (given : List (Option α)) : List α :=
  (script.zip given).filterMap (fun x => if x.1 = front then x.2 else none)

lemma handed_cons (front called : Bool) (script : List Bool) (x : Option α)
    (given : List (Option α)) :
    handed front (called :: script) (x :: given) =
      (if called = front then x.toList else []) ++ handed front script given := by
  unfold handed
  by_cases same : called = front
  · cases x <;> simp [same]
  · simp [same]

/-- What is handed out at the front, what is left, and what is handed out at the back from the last
to the first: the whole list. -/
lemma handed_replies (script : List Bool) (l : List α) :
    handed true script (replies (script.map ofEnd) l) ++
        rest (script.map ofEnd) l ++
        (handed false script (replies (script.map ofEnd) l)).reverse = l := by
  induction script generalizing l with
  | nil => exact append_nil _
  | cons front script ih =>
    rw [map_cons, replies, rest, handed_cons, handed_cons]
    cases front with
    | true =>
      have split : l.head?.toList ++ l.tail = l := by cases l <;> rfl
      have later := congrArg (l.head?.toList ++ ·) (ih l.tail)
      rw [split] at later
      simpa [ofEnd, ask] using later
    | false =>
      have split : l.dropLast ++ l.getLast?.toList = l := by
        rcases eq_nil_or_concat l with rfl | ⟨l, x, rfl⟩ <;> simp
      have later := congrArg (· ++ l.getLast?.toList) (ih l.dropLast)
      rw [split] at later
      have single : l.getLast?.toList.reverse = l.getLast?.toList := by
        cases l.getLast? <;> rfl
      simpa [ofEnd, ask, single] using later

/-- The answers of an iterator whose steps may fail. -/
def run (step : σ → Call → Option (Option α × σ)) : List Call → σ → Option (List (Option α))
  | [], _ => some []
  | call :: calls, s => do
    let (x, s') ← step s call
    return x :: (← run step calls s')

def stateAfter (step : σ → Call → Option (Option α × σ)) : List Call → σ → Option σ
  | [], s => some s
  | call :: calls, s => do
    let (_, s') ← step s call
    stateAfter step calls s'

lemma stateAfter_append (step : σ → Call → Option (Option α × σ)) (calls later : List Call)
    (s : σ) : stateAfter step (calls ++ later) s =
      (stateAfter step calls s).bind (stateAfter step later) := by
  induction calls generalizing s with
  | nil => rfl
  | cons call calls ih => simp [stateAfter, ih, Option.bind_assoc]

section
variable (step : σ → Call → Option (Option α × σ)) (R : σ → List α → Prop)

/-- A call is answered as the list answers it, and keeps the relation to the list. -/
def Answers (call : Call) : Prop :=
  ∀ {s l}, R s l → ∃ s', step s call = some ((ask call l).1, s') ∧ R s' (ask call l).2

def Follows : Prop := ∀ call, Answers step R call

variable {step R}

lemma run_answers (calls : List Call) (answers : ∀ call ∈ calls, Answers step R call) :
    ∀ {s l}, R s l → run step calls s = some (replies calls l) ∧
      ∃ s', stateAfter step calls s = some s' ∧ R s' (rest calls l) := by
  induction calls with
  | nil => exact fun related => ⟨rfl, _, rfl, related⟩
  | cons call calls ih =>
    intro s l related
    obtain ⟨first, later⟩ := forall_mem_cons.mp answers
    obtain ⟨s', stepped, still⟩ := first related
    obtain ⟨ran, s'', reached, final⟩ := ih later still
    refine ⟨?_, s'', ?_, final⟩
    · simp [run, stepped, ran, replies]
    · simp [stateAfter, stepped, reached]

variable (follows : Follows step R) (calls : List Call) {s : σ} {l : List α} (related : R s l)
include follows related

lemma Follows.run : run step calls s = some (replies calls l) :=
  (run_answers calls (fun call _ => follows call) related).1

lemma Follows.stateAfter : ∃ s', stateAfter step calls s = some s' ∧ R s' (rest calls l) :=
  (run_answers calls (fun call _ => follows call) related).2

end

/-- The element at a place, by a loop over `next`. -/
def nthByNext (next : σ → Option (Option α × σ)) : Nat → σ → Option (Option α × σ)
  | 0, s => next s
  | n + 1, s => do
    match ← next s with
    | (none, s) => return (none, s)
    | (some _, s) => nthByNext next n s

lemma nthByNext_eq (next : σ → Option (Option α × σ)) (R : σ → List α → Prop)
    (reads : ∀ {s l}, R s l → ∃ s', next s = some (l.head?, s') ∧ R s' l.tail) (n : Nat) :
    ∀ {s l}, R s l → ∃ s', nthByNext next n s = some (l[n]?, s') ∧ R s' (l.drop (n + 1)) := by
  induction n with
  | zero =>
    intro s l related
    obtain ⟨s', called, related'⟩ := reads related
    exact ⟨s', by simp [nthByNext, called, head?_eq_getElem?], by simpa using related'⟩
  | succ n ih =>
    intro s l related
    obtain ⟨s', called, related'⟩ := reads related
    cases l with
    | nil => exact ⟨s', by simp [nthByNext, called], related'⟩
    | cons x l =>
      obtain ⟨s'', found, related''⟩ := ih related'
      refine ⟨s'', ?_, by simpa using related''⟩
      rw [nthByNext]
      simpa [called] using found

/-- The same loop over `next_back`. -/
lemma nthByNext_back (back : σ → Option (Option α × σ)) (R : σ → List α → Prop)
    (reads : ∀ {s l}, R s l → ∃ s', back s = some (l.getLast?, s') ∧ R s' l.dropLast) (n : Nat)
    {s : σ} {l : List α} (related : R s l) : ∃ s', nthByNext back n s = some (l.reverse[n]?, s') ∧
      R s' (l.take (l.length - (n + 1))) := by
  have reversed {s : σ} {l : List α} (related : R s l.reverse) :
      ∃ s', back s = some (l.head?, s') ∧ R s' l.tail.reverse := by simpa using reads related
  obtain ⟨s', found, left⟩ := nthByNext_eq back (fun s l => R s l.reverse) reversed n
    (l := l.reverse) (by simpa)
  exact ⟨s', found, by simpa [reverse_drop] using left⟩

/-- The loop keeps what each call of `next` keeps. -/
lemma nthByNext_keeps {next : σ → Option (Option α × σ)} {P : σ → Prop}
    (keeps : ∀ {s}, P s → ∃ x s', next s = some (x, s') ∧ P s') (n : Nat) :
    ∀ {s}, P s → ∃ x s', nthByNext next n s = some (x, s') ∧ P s' := by
  induction n with
  | zero => exact keeps
  | succ n ih =>
    intro s holds
    obtain ⟨x, s', called, holds'⟩ := keeps holds
    cases x with
    | none => exact ⟨none, s', by simp [nthByNext, called], holds'⟩
    | some x =>
      obtain ⟨y, s'', rest, holds''⟩ := ih holds'
      exact ⟨y, s'', by simpa [nthByNext, called] using rest, holds''⟩

/-- The elements that repeated calls of `next` give before they give none. -/
def Yields (next : σ → Option (Option α × σ)) : List α → σ → Prop
  | [], s => ∃ s', next s = some (none, s')
  | x :: l, s => ∃ s', next s = some (some x, s') ∧ Yields next l s'

/-- The state after this many calls of `next`. -/
def advance (next : σ → Option (Option α × σ)) : Nat → σ → Option σ
  | 0, s => some s
  | n + 1, s => do
    let (_, s) ← next s
    advance next n s

section
variable {next : σ → Option (Option α × σ)} {R : σ → List α → Prop}
  (reads : ∀ {s l}, R s l → ∃ s', next s = some (l.head?, s') ∧ R s' l.tail)
include reads

lemma yields_of_reads (l : List α) : ∀ {s}, R s l → Yields next l s := by
  induction l with
  | nil => exact fun related => (reads related).imp fun _ => And.left
  | cons x l ih => exact fun related => (reads related).imp fun _ h => ⟨h.1, ih h.2⟩

lemma advance_of_reads (n : Nat) : ∀ {s l}, R s l →
    ∃ s', advance next n s = some s' ∧ R s' (l.drop n) := by
  induction n with
  | zero => exact fun related => ⟨_, rfl, related⟩
  | succ n ih =>
    intro s l related
    obtain ⟨s₁, called, related₁⟩ := reads related
    obtain ⟨s₂, later, related₂⟩ := ih related₁
    exact ⟨s₂, by simp [advance, called, later], by simpa using related₂⟩

end

/-- Asking often enough for the next element reads the whole list. -/
lemma replies_injective {l l' : List α} (same : ∀ calls, replies calls l = replies calls l') :
    l = l' := by
  induction l generalizing l' with
  | nil =>
    cases l' with
    | nil => rfl
    | cons x' l' =>
      have first := same [.next]
      simp [replies, ask] at first
  | cons x l ih =>
    cases l' with
    | nil =>
      have first := same [.next]
      simp [replies, ask] at first
    | cons x' l' =>
      have first : x = x' := by
        have first := same [.next]
        simpa [replies, ask] using first
      have rest : l = l' := by
        apply ih
        intro calls
        have later := same (.next :: calls)
        simp only [replies, ask, List.cons.injEq] at later
        exact later.2
      rw [first, rest]

end DoubleEnded
