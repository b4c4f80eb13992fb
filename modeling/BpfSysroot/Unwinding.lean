import BpfSysroot.SliceMemory

/-!
# Computations that may unwind

A computation over a memory `V` that asks an outside procedure with state `S`
ends in one of three ways: it returns, it unwinds because the procedure
panicked, or it makes an access that it has no right to make (`fault`; running
out of fuel counts as one). `Ends` states what holds on each way out and is
false of `fault`, so every specification written with it also says that all
accesses are in bounds and that the computation terminates.
-/

namespace Unwinding

open List

inductive Exec (V S A : Type) where
  | ok (v : V) (s : S) (a : A)
  | panic (v : V) (s : S)
  | fault
  deriving DecidableEq

variable {V W S A B : Type}

namespace Exec

variable {C : Type} {a : A} {Q : V → S → A → Prop} {U : V → S → Prop} {e : Exec V S A}
  {R : V → S → B → Prop}

section
variable (e : Exec V S A)

def bind (k : V → S → A → Exec V S B) : Exec V S B :=
  match e with
  | ok v s a => k v s a
  | panic v s => panic v s
  | fault => fault

lemma bind_assoc (k : V → S → A → Exec V S B) (l : V → S → B → Exec V S C) :
    (e.bind k).bind l = e.bind fun v s a => (k v s a).bind l := by
  cases e <;> rfl

/-- Leaves a scope: the drop glue `g` runs whether the scope returned or unwinds. -/
def leave (g : V → Option W) : Exec W S A :=
  match e with
  | ok v s a => match g v with
    | some w => ok w s a
    | none => fault
  | panic v s => match g v with
    | some w => panic w s
    | none => fault
  | fault => fault

/-- A read or a write that must succeed. -/
def require (o : Option A) (k : A → Exec V S B) : Exec V S B :=
  match o with
  | some a => k a
  | none => fault

lemma require_bind (o : Option A) (k : A → Exec V S B) (l : V → S → B → Exec V S C) :
    (require o k).bind l = require o fun a => (k a).bind l := by
  cases o <;> rfl

/-- `Q` on return, `U` when unwinding, and no fault. -/
def Ends (Q : V → S → A → Prop) (U : V → S → Prop) : Prop :=
  match e with
  | ok v s a => Q v s a
  | panic v s => U v s
  | fault => False

end

lemma ends_ok {v : V} {s : S} (h : Q v s a) : (ok v s a).Ends Q U := h

lemma Ends.mono {Q' : V → S → A → Prop} {U' : V → S → Prop} (h : e.Ends Q U)
    (hq : ∀ v s a, Q v s a → Q' v s a) (hu : ∀ v s, U v s → U' v s) : e.Ends Q' U' := by
  cases e with
  | ok v s a => exact hq v s a h
  | panic v s => exact hu v s h
  | fault => exact h

lemma Ends.imp {Q' : V → S → A → Prop} (h : e.Ends Q U)
    (hq : ∀ v s a, Q v s a → Q' v s a) : e.Ends Q' U :=
  h.mono hq fun _ _ hu => hu

lemma Ends.bind {k : V → S → A → Exec V S B} (h : e.Ends Q U)
    (hk : ∀ v s a, Q v s a → (k v s a).Ends R U) : (e.bind k).Ends R U := by
  cases e with
  | ok v s a => exact hk v s a h
  | panic v s => exact h
  | fault => exact h

lemma Ends.leave {g : V → Option W} {R : W → S → A → Prop} {U' : W → S → Prop} (h : e.Ends Q U)
    (hq : ∀ v s a, Q v s a → ∃ w, g v = some w ∧ R w s a)
    (hu : ∀ v s, U v s → ∃ w, g v = some w ∧ U' w s) : (e.leave g).Ends R U' := by
  cases e with
  | ok v s a =>
    obtain ⟨w, hw, hr⟩ := hq v s a h
    simp only [Exec.leave, hw]
    exact hr
  | panic v s =>
    obtain ⟨w, hw, hr⟩ := hu v s h
    simp only [Exec.leave, hw]
    exact hr
  | fault => exact h

lemma ends_require {o : Option A} {k : A → Exec V S B} (ho : o = some a) (h : (k a).Ends R U) :
    (require o k).Ends R U := by
  subst ho
  exact h

/-- A computation that cannot unwind returns. -/
lemma Ends.returns (h : e.Ends Q U) (calm : ∀ v s, ¬ U v s) :
    ∃ v s a, e = ok v s a ∧ Q v s a := by
  cases e with
  | ok v s a => exact ⟨v, s, a, rfl, h⟩
  | panic v s => exact absurd h (calm v s)
  | fault => exact absurd h id

end Exec

section
variable {T : Type}

/-- A comparison supplied from outside: it may keep state, answer anything, or panic. -/
abbrev Comparator (S T : Type) := S → T → T → Option Bool × S

/-- One call of the comparison, with the memory as it stands at the call. -/
def ask (isLess : Comparator S T) (v : V) (s : S) (x y : T) : Exec V S Bool :=
  match isLess s x y with
  | (some b, s') => .ok v s' b
  | (none, s') => .panic v s'

structure StrictWeakOrder (lt : T → T → Bool) : Prop where
  irrefl : ∀ x, lt x x = false
  trans : ∀ x y z, lt x y → lt y z → lt x z
  incomparable : ∀ x y z, lt x y = false → lt y x = false → lt y z = false → lt z y = false →
    lt x z = false ∧ lt z x = false

/-- The comparison always answers, and answers as the strict weak order `lt` does. -/
structure Lawful (isLess : Comparator S T) (lt : T → T → Bool) : Prop where
  order : StrictWeakOrder lt
  answers : ∀ s x y, (isLess s x y).1 = some (lt x y)

namespace StrictWeakOrder
variable {lt : T → T → Bool}
variable {x y z : T}
variable (h : StrictWeakOrder lt)
include h

lemma asymm (hxy : lt x y) : lt y x = false := by
  by_contra hyx
  have := h.trans x y x hxy (by simpa using hyx)
  simp [h.irrefl] at this

lemma not_lt_trans (hyx : lt y x = false) (hzy : lt z y = false) : lt z x = false := by
  by_contra hzx
  have hzx : lt z x := by simpa using hzx
  by_cases hxy : lt x y
  · simp [h.trans z x y hzx hxy] at hzy
  · by_cases hyz : lt y z
    · simp [h.trans y z x hyz hzx] at hyx
    · have := h.incomparable x y z (by simpa using hxy) hyx (by simpa using hyz) hzy
      simp [this.2] at hzx

lemma lt_of_lt_of_not_lt (hxy : lt x y) (hzy : lt z y = false) : lt x z := by
  by_contra hxz
  have := h.not_lt_trans hzy (by simpa using hxz)
  simp [hxy] at this

lemma lt_of_not_lt_of_lt (hyx : lt y x = false) (hyz : lt y z) : lt x z := by
  by_contra hxz
  have := h.not_lt_trans (by simpa using hxz) hyx
  simp [hyz] at this

end StrictWeakOrder

variable {isLess : Comparator S T} {v : V} {s : S} {x y : T} {k : V → S → Bool → Exec V S B}
  {Q : V → S → B → Prop} {U : V → S → Prop}

/-- A call whose answer is known under a condition: without the condition it may also panic. -/
lemma ends_ask_of {law : Prop} {known : Bool} (answers : law → (isLess s x y).1 = some known)
    (unwind : ¬ law → ∀ s', U v s') (answer : ∀ s' b, (law → b = known) → (k v s' b).Ends Q U) :
    ((ask isLess v s x y).bind k).Ends Q U := by
  rw [ask]
  split
  next b s' hans =>
    apply answer s' b
    intro holds
    have := answers holds
    rw [hans] at this
    exact Option.some.inj this
  next s' hans =>
    apply unwind
    intro holds
    have := answers holds
    simp [hans] at this

lemma ends_ask {lt : T → T → Bool} (unwind : ¬ Lawful isLess lt → ∀ s', U v s')
    (answer : ∀ s' b, (Lawful isLess lt → b = lt x y) → (k v s' b).Ends Q U) :
    ((ask isLess v s x y).bind k).Ends Q U :=
  ends_ask_of (fun law => law.answers s x y) unwind answer

end

variable {T : Type}
variable {v w : List T} {lo hi : Nat} {f : List T → Exec (List T) S A} {Q : List T → S → A → Prop}
  {U : List T → S → Prop}

/-- Writes `x` at position `i`, which must be inside. -/
def write (v : List T) (i : Nat) (x : T) : Option (List T) :=
  if i < v.length then some (v.set i x) else none

/-- Exchanges two positions, which must be inside. -/
def trySwap (v : List T) (i j : Nat) : Option (List T) :=
  if i < v.length ∧ j < v.length then some (SliceMemory.swap v i j) else none

/-- Runs `f` on the subslice `v[lo..hi]` in place. -/
def within (v : List T) (lo hi : Nat) (f : List T → Exec (List T) S A) : Exec (List T) S A :=
  if lo ≤ hi ∧ hi ≤ v.length then
    (f ((v.take hi).drop lo)).leave fun w => some (v.take lo ++ w ++ v.drop hi)
  else .fault

@[simp] theorem write_middle (xs ys : List T) (g x : T) :
    write (xs ++ g :: ys) xs.length x = some (xs ++ x :: ys) := by
  simp [write]

lemma trySwap_eq {i j : Nat} (hi : i < v.length) (hj : j < v.length) :
    trySwap v i j = some (SliceMemory.swap v i j) := by
  rw [trySwap, if_pos ⟨hi, hj⟩]

lemma trySwap_adjacent (xs ys : List T) (x y : T) :
    trySwap (xs ++ x :: y :: ys) xs.length (xs.length + 1) = some (xs ++ y :: x :: ys) := by
  rw [trySwap_eq (by simp) (by simp)]
  simp [SliceMemory.swap]

lemma ends_within_range (hlo : lo ≤ hi) (hhi : hi ≤ v.length)
    (h : (f ((v.take hi).drop lo)).Ends (fun w s a => Q (v.take lo ++ w ++ v.drop hi) s a)
      fun w s => U (v.take lo ++ w ++ v.drop hi) s) : (within v lo hi f).Ends Q U := by
  rw [within, if_pos ⟨hlo, hhi⟩]
  exact h.leave (fun _ _ _ hq => ⟨_, rfl, hq⟩) fun _ _ hu => ⟨_, rfl, hu⟩

lemma ends_within {pre post : List T} (hlo : lo = pre.length) (hhi : hi = pre.length + w.length)
    (h : (f w).Ends (fun w' s a => Q (pre ++ w' ++ post) s a) fun w' s => U (pre ++ w' ++ post) s) :
    (within (pre ++ w ++ post) lo hi f).Ends Q U := by
  subst hlo hhi
  have htake : (pre ++ w ++ post).take (pre.length + w.length) = pre ++ w := take_left' (by simp)
  have hdrop : (pre ++ w ++ post).drop (pre.length + w.length) = post := drop_left' (by simp)
  have hfront : (pre ++ w ++ post).take pre.length = pre := by simp
  refine ends_within_range (by omega) (by simp only [length_append]; omega) ?_
  rw [htake, hdrop, hfront, drop_left]
  exact h

lemma perm_within (hlo : lo ≤ hi) (h : w.Perm ((v.take hi).drop lo)) :
    (v.take lo ++ w ++ v.drop hi).Perm v := by
  have hv : v.take lo ++ (v.take hi).drop lo ++ v.drop hi = v := by
    rw [show v.take lo = (v.take hi).take lo by rw [take_take, min_eq_left hlo],
      take_append_drop, take_append_drop]
  conv_rhs => rw [← hv]
  exact (h.append_left _).append_right _

end Unwinding
