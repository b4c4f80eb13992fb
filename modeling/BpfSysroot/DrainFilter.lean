import BpfSysroot.Unwinding

/-!
# Draining what a predicate selects

`DrainFilter` tests the elements of a vector in order, gives out those the predicate
selects and shifts the others down over the gap, while the vector pretends to be
empty. The predicate keeps state, may change the element it tests, and may panic. The
drop tests the rest unless the predicate has panicked, and in every case moves what
was not tested down over the gap.
-/

namespace DrainFilter

open Unwinding SliceMemory List

variable {S T : Type}

/-- The closure: the answer, or `none` for a panic, with the element as it leaves it. -/
abbrev Predicate (S T : Type) := S → T → Option Bool × T × S

/-- The iterator; `vec` are the slots of the elements that the vector had. -/
structure State (T : Type) where
  vec : List T
  idx : Nat
  del : Nat
  oldLen : Nat
  panicFlag : Bool

def drainFilter (v : List T) : State T := ⟨v, 0, 0, v.length, false⟩

/-- How a call of `next` ends. -/
inductive Answer (T : Type) where
  | item (x : T)
  | done
  | panic
  deriving DecidableEq

/-- Shifts a kept element down over the gap, if there is one. -/
def shiftDown (vec : List T) (idx del : Nat) (x : T) : Option (List T) :=
  if del > 0 then write vec (idx - del) x else some vec

def nextLoop (pred : Predicate S T) : Nat → State T → S → Option (Answer T × State T × S)
  | 0, _, _ => none
  | fuel + 1, d, s =>
    if d.idx < d.oldLen then do
      let x ← d.vec[d.idx]?
      match pred s x with
      | (none, x, s) =>
        let vec ← write d.vec d.idx x
        return (.panic, { d with vec, panicFlag := true }, s)
      | (some drained, x, s) =>
        let vec ← write d.vec d.idx x
        if drained then
          let d := { d with vec, idx := d.idx + 1, del := d.del + 1, panicFlag := false }
          return (.item x, d, s)
        else
          let vec ← shiftDown vec d.idx d.del x
          nextLoop pred fuel { d with vec, idx := d.idx + 1, panicFlag := false } s
    else return (.done, d, s)

section
variable (pred : Predicate S T) (d : State T) (s : S)

def next : Option (Answer T × State T × S) :=
  nextLoop pred (d.oldLen - d.idx + 1) d s

/-- Any number of calls of `next`; a panic is caught by the caller. -/
def nexts (pred : Predicate S T) : Nat → State T → S → Option (List (Answer T) × State T × S)
  | 0, d, s => some ([], d, s)
  | n + 1, d, s => do
    let (answer, d, s) ← next pred d s
    let (answers, d, s) ← nexts pred n d s
    return (answer :: answers, d, s)

/-- `for_each(drop)`, with the elements that it drops; `true` for a panic. -/
def dropRest (pred : Predicate S T) : Nat → State T → S → Option (List T × Bool × State T × S)
  | 0, _, _ => none
  | fuel + 1, d, s => do
    match ← next pred d s with
    | (.item x, d, s) =>
      let (dropped, panicked, d, s) ← dropRest pred fuel d s
      return (x :: dropped, panicked, d, s)
    | (.done, d, s) => return ([], false, d, s)
    | (.panic, d, s) => return ([], true, d, s)

/-- `BackshiftOnDrop::drop`. -/
def backshift (d : State T) : Option (List T) :=
  (if d.idx < d.oldLen ∧ d.del > 0 then copy d.vec d.idx (d.idx - d.del) (d.oldLen - d.idx)
    else some d.vec).map fun vec => vec.take (d.oldLen - d.del)

/-- Attempts to consume the rest if the predicate has not panicked. -/
def consume : Option (List T × Bool × State T × S) :=
  if d.panicFlag then some ([], false, d, s) else dropRest pred (d.oldLen - d.idx + 1) d s

/-- `Drop for DrainFilter`: the elements dropped, whether it panicked, and the vector. -/
def drop : Option (List T × Bool × List T × S) := do
  let (dropped, panicked, d, s) ← consume pred d s
  let v ← backshift d
  return (dropped, panicked, v, s)

end

/-- The predicate tests elements from the front of a list: what it left of each of them and
answered, how often it panicked, and what is not tested at the end. -/
inductive Tests (pred : Predicate S T) : S → List T → List (T × Bool) → Nat → S → List T → Prop
  | stop (s : S) (l : List T) : Tests pred s l [] 0 s l
  | answered {s s₁ s₂ : S} {x y : T} {b : Bool} {l m : List T} {marks : List (T × Bool)} {n : Nat}
      (call : pred s x = (some b, y, s₁)) (rest : Tests pred s₁ l marks n s₂ m) :
      Tests pred s (x :: l) ((y, b) :: marks) n s₂ m
  | panicked {s s₁ s₂ : S} {x y : T} {l m : List T} {marks : List (T × Bool)} {n : Nat}
      (call : pred s x = (none, y, s₁)) (rest : Tests pred s₁ (y :: l) marks n s₂ m) :
      Tests pred s (x :: l) marks (n + 1) s₂ m

variable {pred : Predicate S T} {d : State T} {kept rest : List T}

lemma Tests.trans {s s₁ s₂ : S} {l m r : List T} {marks later : List (T × Bool)} {n k : Nat}
    (h : Tests pred s l marks n s₁ m) (h' : Tests pred s₁ m later k s₂ r) :
    Tests pred s l (marks ++ later) (n + k) s₂ r := by
  induction h with
  | stop s l => rwa [zero_add]
  | answered call _ ih => exact .answered call (ih h')
  | panicked call _ ih =>
    rw [add_right_comm]
    exact .panicked call (ih h')

/-- Every element has been tested with an answer, or is left. -/
lemma Tests.length_eq {s s' : S} {l left : List T} {marks : List (T × Bool)} {n : Nat}
    (h : Tests pred s l marks n s' left) : marks.length + left.length = l.length := by
  induction h with
  | stop s l => simp
  | answered _ _ ih =>
    simp only [length_cons]
    omega
  | panicked _ _ ih => exact ih

/-- What the predicate selected, or not. -/
def picked (b : Bool) (marks : List (T × Bool)) : List T :=
  (marks.filter fun mark => mark.2 = b).map Prod.fst

@[simp] theorem picked_append (b : Bool) (marks later : List (T × Bool)) :
    picked b (marks ++ later) = picked b marks ++ picked b later := by
  simp [picked]

def Answer.given : Answer T → List T
  | .item x => [x]
  | .done => []
  | .panic => []

def Answer.panics : Answer T → Nat
  | .item _ => 0
  | .done => 0
  | .panic => 1

/-- The slots hold the kept elements, a gap as long as what was drained, and the rest. -/
structure Shifted (d : State T) (kept rest : List T) : Prop where
  slots : ∃ gap, d.vec = kept ++ gap ++ rest ∧ gap.length = d.del
  idx : d.idx = kept.length + d.del
  oldLen : d.oldLen = kept.length + d.del + rest.length

lemma Shifted.slot {x : T} (h : Shifted d kept (x :: rest)) :
    d.idx < d.oldLen ∧ d.vec[d.idx]? = some x ∧
      ∀ y, ∃ vec, write d.vec d.idx y = some vec ∧
        ∀ flag, Shifted { d with vec, panicFlag := flag } kept (y :: rest) := by
  obtain ⟨⟨gap, vec, length⟩, idx, oldLen⟩ := h
  have place : d.idx = (kept ++ gap).length := by rw [length_append, idx, length]
  refine ⟨by rw [oldLen, length_cons]; omega, by rw [vec, place]; simp, fun y => ?_⟩
  refine ⟨kept ++ gap ++ y :: rest, by rw [vec, place, write_middle], fun flag => ?_⟩
  exact ⟨⟨gap, rfl, length⟩, idx, oldLen⟩

lemma Shifted.give {y : T} (h : Shifted d kept (y :: rest)) :
    Shifted { d with idx := d.idx + 1, del := d.del + 1, panicFlag := false } kept rest := by
  obtain ⟨⟨gap, vec, length⟩, idx, oldLen⟩ := h
  refine ⟨⟨gap ++ [y], by simp [vec], by simp [length]⟩, congrArg (· + 1) idx, ?_⟩
  rw [length_cons] at oldLen
  dsimp only
  omega

/-- An element that is kept closes up with those before it. -/
lemma Shifted.keep {y : T} (h : Shifted d kept (y :: rest)) :
    ∃ vec, shiftDown d.vec d.idx d.del y = some vec ∧
      Shifted { d with vec, idx := d.idx + 1, panicFlag := false } (kept ++ [y]) rest := by
  obtain ⟨⟨gap, vec, length⟩, idx, oldLen⟩ := h
  obtain ⟨gap', vec', wrote, cut, same⟩ : ∃ gap' vec', shiftDown d.vec d.idx d.del y = some vec' ∧
        vec' = kept ++ [y] ++ gap' ++ rest ∧ gap'.length = d.del := by
    rw [shiftDown]
    cases gap with
    | nil => exact ⟨[], d.vec, by rw [← length]; rfl, by simpa using vec, length⟩
    | cons g gap =>
      have shifted := write_middle kept (gap ++ y :: rest) g y
      rw [if_pos (by rw [← length]; simp), vec, idx, Nat.add_sub_cancel]
      rw [append_assoc]
      exact ⟨gap ++ [y], _, shifted, by simp, by simpa using length⟩
  refine ⟨vec', wrote, ⟨gap', cut, same⟩, ?_, ?_⟩
  all_goals simp at *
  all_goals omega

variable (pred)

lemma nextLoop_spec (fuel : Nat) : ∀ {d : State T} {kept rest : List T}, Shifted d kept rest →
    rest.length < fuel → ∀ s, ∃ answer d' s' marks left,
      nextLoop pred fuel d s = some (answer, d', s') ∧
      Tests pred s rest marks answer.panics s' left ∧
      Shifted d' (kept ++ picked false marks) left ∧ answer.given = picked true marks ∧
      (answer = .done → left = []) ∧
      (d'.panicFlag → d.panicFlag ∨ answer = .panic) := by
  induction fuel with
  | zero =>
    omega
  | succ fuel ih =>
    intro d kept rest shifted enough s
    rw [nextLoop]
    cases rest with
    | nil =>
      have := shifted.idx
      rw [if_neg (by have := shifted.oldLen; rw [length_nil] at this; omega)]
      exact ⟨.done, d, s, [], [], rfl, .stop s [], by simpa [picked] using shifted, rfl,
        fun _ => rfl, .inl⟩
    | cons x rest =>
      obtain ⟨inside, read, writes⟩ := shifted.slot
      rw [if_pos inside, read]
      rcases call : pred s x with ⟨_ | drained, y, s₁⟩
      all_goals
        obtain ⟨vec, wrote, stored⟩ := writes y
        simp only [Option.bind_eq_bind, Option.bind_some, call, wrote]
      · exact ⟨.panic, _, s₁, [], y :: rest, rfl, .panicked call (.stop _ _),
          by simpa [picked] using stored true, rfl, nofun, fun _ => .inr rfl⟩
      cases drained with
      | true =>
        exact ⟨.item y, _, s₁, [(y, true)], rest, rfl, .answered call (.stop _ _),
          by simpa [picked] using (stored true).give, rfl, nofun, nofun⟩
      | false =>
        obtain ⟨vec', closed, kept'⟩ := (stored true).keep
        obtain ⟨answer, d', s', marks, left, run, tests, shifted', given, done, flag⟩ :=
          ih kept' (by simpa using enough) s₁
        refine ⟨answer, d', s', (y, false) :: marks, left, ?_, .answered call tests,
          by simpa [picked] using shifted', by simpa [picked] using given, done,
          fun set_ => .inr ((flag set_).resolve_left nofun)⟩
        simp only [Bool.false_eq_true, if_false, closed, Option.bind_some]
        exact run

lemma next_spec (shifted : Shifted d kept rest) (s : S) : ∃ answer d' s' marks left,
    next pred d s = some (answer, d', s') ∧ Tests pred s rest marks answer.panics s' left ∧
    Shifted d' (kept ++ picked false marks) left ∧ answer.given = picked true marks ∧
    (answer = .done → left = []) ∧ (d'.panicFlag → d.panicFlag ∨ answer = .panic) :=
  nextLoop_spec pred _ shifted (by have := shifted.idx; have := shifted.oldLen; omega) s

lemma nexts_spec (n : Nat) : ∀ {d : State T} {kept rest : List T}, Shifted d kept rest → ∀ s,
    ∃ answers d' s' marks left, nexts pred n d s = some (answers, d', s') ∧
      Tests pred s rest marks (answers.map Answer.panics).sum s' left ∧
      Shifted d' (kept ++ picked false marks) left ∧
      answers.flatMap Answer.given = picked true marks ∧
      (d'.panicFlag → d.panicFlag ∨ 0 < (answers.map Answer.panics).sum) := by
  induction n with
  | zero =>
    intro d kept rest shifted s
    exact ⟨[], d, s, [], rest, rfl, .stop s rest, by simpa [picked] using shifted, rfl, .inl⟩
  | succ n ih =>
    intro d kept rest shifted s
    obtain ⟨answer, d₁, s₁, marks, left, run, tests, shifted₁, given, -, flag⟩ :=
      next_spec pred shifted s
    obtain ⟨answers, d₂, s₂, later, left₂, runs, tests₂, shifted₂, given₂, flag₂⟩ := ih shifted₁ s₁
    refine ⟨answer :: answers, d₂, s₂, marks ++ later, left₂, ?_, ?_, ?_, ?_, ?_⟩
    · rw [nexts, run]
      simp [runs]
    · exact tests.trans tests₂
    · rwa [picked_append, ← append_assoc]
    · rw [flatMap_cons, given, given₂, picked_append]
    · intro set_
      rw [map_cons, sum_cons]
      rcases flag₂ set_ with set_ | later
      · rcases flag set_ with set_ | rfl
        · exact .inl set_
        · exact .inr (by rw [Answer.panics]; omega)
      · exact .inr (by omega)

lemma dropRest_spec (fuel : Nat) : ∀ {d : State T} {kept rest : List T}, Shifted d kept rest →
    rest.length < fuel → ∀ s, ∃ dropped panicked d' s' marks left,
      dropRest pred fuel d s = some (dropped, panicked, d', s') ∧
      Tests pred s rest marks panicked.toNat s' left ∧
      Shifted d' (kept ++ picked false marks) left ∧ dropped = picked true marks ∧
      (panicked = false → left = []) := by
  induction fuel with
  | zero =>
    omega
  | succ fuel ih =>
    intro d kept rest shifted enough s
    obtain ⟨answer, d₁, s₁, marks, left, run, tests, shifted₁, given, done, -⟩ :=
      next_spec pred shifted s
    rw [dropRest, run]
    cases answer with
    | done => exact ⟨_, _, d₁, s₁, marks, left, rfl, tests, shifted₁, given, fun _ => done rfl⟩
    | panic => exact ⟨_, _, d₁, s₁, marks, left, rfl, tests, shifted₁, given, nofun⟩
    | item x =>
      have shorter : left.length < fuel := by
        have := tests.length_eq
        have : marks ≠ [] := by
          rintro rfl
          simp [Answer.given, picked] at given
        have := length_pos_iff.mpr this
        omega
      obtain ⟨dropped, panicked, d₂, s₂, later, left₂, runs, tests₂, shifted₂, given₂, done₂⟩ :=
        ih shifted₁ shorter s₁
      refine ⟨x :: dropped, panicked, d₂, s₂, marks ++ later, left₂, ?_, ?_, ?_, ?_, done₂⟩
      · simp [runs]
      · simpa [Answer.panics] using tests.trans tests₂
      · rwa [picked_append, ← append_assoc]
      · rw [picked_append, ← given, ← given₂]
        rfl

lemma Shifted.backshift (h : Shifted d kept rest) :
    DrainFilter.backshift d = some (kept ++ rest) := by
  obtain ⟨⟨gap, vec, length⟩, idx, oldLen⟩ := h
  have total : d.oldLen - d.del = (kept ++ rest).length := by
    rw [length_append]
    omega
  rw [DrainFilter.backshift, total]
  split
  · obtain ⟨place, after_, cut, hplace⟩ : ∃ place after_, gap ++ rest = place ++ after_ ∧
        place.length = rest.length :=
      ⟨_, _, (take_append_drop rest.length _).symm, by simp⟩
    have reads : d.vec = kept ++ gap ++ rest ++ [] := by rw [vec, append_nil]
    have writes : d.vec = kept ++ place ++ after_ := by
      rw [vec, append_assoc, cut, append_assoc]
    have copied := copy_eq reads writes hplace.symm
    have count : d.oldLen - d.idx = rest.length := by omega
    have target : d.idx - d.del = kept.length := by omega
    rw [length_append, length, ← idx] at copied
    rw [count, target, copied, Option.map_some, take_left]
  · have closed : gap = [] ∨ rest = [] := by
      by_contra both
      rw [not_or] at both
      have := length_pos_iff.mpr both.1
      have := length_pos_iff.mpr both.2
      omega
    rw [vec]
    rcases closed with rfl | rfl <;> simp

lemma drop_spec (shifted : Shifted d kept rest) (s : S) :
    ∃ dropped panicked s' marks left,
      drop pred d s = some (dropped, panicked, kept ++ picked false marks ++ left, s') ∧
      Tests pred s rest marks panicked.toNat s' left ∧ dropped = picked true marks ∧
      (d.panicFlag = false → panicked = false → left = []) := by
  have room : rest.length < d.oldLen - d.idx + 1 := by
    have := shifted.idx
    have := shifted.oldLen
    omega
  obtain ⟨dropped, panicked, d', s', marks, left, run, tests, shifted', given, done⟩ :
      ∃ dropped panicked d' s' marks left, consume pred d s = some (dropped, panicked, d', s') ∧
        Tests pred s rest marks panicked.toNat s' left ∧
        Shifted d' (kept ++ picked false marks) left ∧ dropped = picked true marks ∧
        (d.panicFlag = false → panicked = false → left = []) := by
    rw [consume]
    by_cases flag : d.panicFlag
    · rw [if_pos flag]
      exact ⟨[], false, d, s, [], rest, rfl, .stop s rest, by simpa [picked] using shifted, rfl,
        fun clear => absurd clear (by simp [flag])⟩
    · rw [if_neg flag]
      obtain ⟨dropped, panicked, d', s', marks, left, run, tests, shifted', given, done⟩ :=
        dropRest_spec pred _ shifted room s
      exact ⟨dropped, panicked, d', s', marks, left, run, tests, shifted', given, fun _ => done⟩
  refine ⟨dropped, panicked, s', marks, left, ?_, tests, given, done⟩
  rw [drop, run]
  simp [shifted'.backshift]

/-- Whatever the predicate does, at every number of calls before the drop: what it selected was
given out or dropped, once and in order, and the vector keeps what it did not select followed by
what it has not answered for. Without a panic it answered for every element. -/
theorem drain_filter_accounts (v : List T) (n : Nat) (s : S) :
    ∃ answers d s₁ dropped panicked v' s₂ marks left,
      nexts pred n (drainFilter v) s = some (answers, d, s₁) ∧
      drop pred d s₁ = some (dropped, panicked, v', s₂) ∧
      Tests pred s v marks ((answers.map Answer.panics).sum + panicked.toNat) s₂ left ∧
      answers.flatMap Answer.given ++ dropped = picked true marks ∧
      v' = picked false marks ++ left ∧
      ((answers.map Answer.panics).sum + panicked.toNat = 0 →
        left = [] ∧ marks.length = v.length) := by
  have begun : Shifted (drainFilter v) [] v := ⟨⟨[], rfl, rfl⟩, rfl, by simp [drainFilter]⟩
  obtain ⟨answers, d, s₁, marks, left, run, tests, shifted, given, flag⟩ :=
    nexts_spec pred n begun s
  obtain ⟨dropped, panicked, s₂, later, left₂, last, tests₂, given₂, done⟩ :=
    drop_spec pred shifted s₁
  have whole := tests.trans tests₂
  refine ⟨answers, d, s₁, dropped, panicked, _, s₂, marks ++ later, left₂, run, last, whole, ?_, ?_,
    ?_⟩
  · rw [given, given₂, picked_append]
  · simp
  · intro calm
    have clear : d.panicFlag = false := by
      by_contra set_
      rcases flag (by simpa using set_) with initial | panics
      · simp [drainFilter] at initial
      · omega
    have finished : left₂ = [] := done clear (by cases panicked <;> simp_all)
    have counted := whole.length_eq
    rw [finished] at counted
    exact ⟨finished, counted⟩

end DrainFilter
