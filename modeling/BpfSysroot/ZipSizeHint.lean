import BpfSysroot.Zip

/-!
# The size hint of the specialised `Zip`

The sources are any sources that keep the contract of random access, with side effects or without.
`next` moves the index past the last pair when the first source has side effects and is longer than
what is left to zip; `size_hint` then subtracts a larger number from a smaller one.
-/

namespace Zip

open List

open DoubleEnded (stateAfter)

universe u

section
variable {S T I F : Type u} {Valid : S → Prop}

/-- The contract of `TrustedRandomAccess` about sizes: reading below the size leaves it as it is,
and `next_back` takes one off. -/
structure Sized (o : Ops S I) (Valid : S → Prop) : Prop where
  get : ∀ {s i}, Valid s → i < o.size s →
    ∃ x s', o.getUnchecked s i = some (x, s') ∧ Valid s' ∧ o.size s' = o.size s
  nextBack : ∀ {s}, Valid s →
    ∃ x s', o.nextBack s = some (x, s') ∧ Valid s' ∧ o.size s' = o.size s - 1

lemma Lawful.sized {o : Ops S I} {items window : S → List I}
    (h : Lawful o Valid items window) : Sized o Valid where
  get {s i} valid below := by
    have inside : i < (window s).length :=
      lt_of_lt_of_le (h.size_eq valid ▸ below) (h.length_le valid)
    exact ⟨_, s, h.get valid (getElem?_eq_getElem inside), valid, rfl⟩
  nextBack {s} valid := by
    obtain ⟨s', called, valid', left⟩ := h.nextBack valid
    refine ⟨_, s', called, valid', ?_⟩
    rw [h.size_eq valid', h.size_eq valid, left, length_dropLast]

/-- `Option::map` with a closure that keeps a state. -/
def mapOption (f : F → T → I × F) (env : F) : Option T → Option I × F
  | none => (none, env)
  | some x => (some (f env x).1, (f env x).2)

/-- `Map` over a source: it declares side effects, since its closure may have some. -/
def Map.ops (o : Ops S T) (f : F → T → I × F) : Ops (S × F) I where
  next s := do
    let (x, iter) ← o.next s.1
    return ((mapOption f s.2 x).1, iter, (mapOption f s.2 x).2)
  nextBack s := do
    let (x, iter) ← o.nextBack s.1
    return ((mapOption f s.2 x).1, iter, (mapOption f s.2 x).2)
  size s := o.size s.1
  getUnchecked s i := do
    let (x, iter) ← o.getUnchecked s.1 i
    return ((f s.2 x).1, iter, (f s.2 x).2)
  mayHaveSideEffect := true

lemma Sized.backTimes {o : Ops S I} (h : Sized o Valid) (n : Nat) :
    ∀ {s}, Valid s → ∃ s', o.backTimes n s = some s' ∧ Valid s' ∧ o.size s' = o.size s - n := by
  induction n with
  | zero => exact fun valid => ⟨_, rfl, valid, rfl⟩
  | succ n ih =>
    intro s valid
    obtain ⟨x, s₁, called, valid₁, less⟩ := h.nextBack valid
    obtain ⟨s₂, rest, valid₂, size⟩ := ih valid₁
    exact ⟨s₂, by simp [Ops.backTimes, called, rest], valid₂, by omega⟩

end

variable {A B I J : Type u} (aOps : Ops A I) (bOps : Ops B J)

/-- Computing the size hint does not wrap around, and it is what repeated calls of `next` give. -/
def Exact (z : Zip A B) : Prop :=
  z.index ≤ z.len ∧ ∃ l, DoubleEnded.Yields (next aOps bOps) l z ∧
    z.sizeHint = (l.length, some l.length)

/-- Both sources can be read below `n`, and the first one not above `m`. -/
structure Backed (aValid : A → Prop) (bValid : B → Prop) (n m : Nat) (a : A) (b : B) : Prop where
  left : aValid a
  right : bValid b
  left_le : n ≤ aOps.size a
  right_le : n ≤ bOps.size b
  le_total : aOps.size a ≤ m

section
variable {aOps bOps} {aValid : A → Prop} {bValid : B → Prop} {n m : Nat} {z : Zip A B}
  (ha : Sized aOps aValid) (hb : Sized bOps bValid)

lemma Backed.mono {k : Nat} {a : A} {b : B} (h : Backed aOps bOps aValid bValid n m a b)
    (le : k ≤ n) : Backed aOps bOps aValid bValid k m a b :=
  ⟨h.left, h.right, le_trans le h.left_le, le_trans le h.right_le, h.le_total⟩

include ha hb

lemma getUnchecked_backed {i : Nat} (h : Backed aOps bOps aValid bValid n m z.a z.b)
    (below : i < n) : ∃ p a b, getUnchecked aOps bOps z i = some (p, { z with a, b }) ∧
      Backed aOps bOps aValid bValid n m a b := by
  obtain ⟨x, a, readLeft, left, sameLeft⟩ := ha.get h.left (lt_of_lt_of_le below h.left_le)
  obtain ⟨y, b, readRight, right, sameRight⟩ := hb.get h.right (lt_of_lt_of_le below h.right_le)
  refine ⟨(x, y), a, b, by simp [getUnchecked, readLeft, readRight], left, right, ?_, ?_, ?_⟩
  · exact sameLeft ▸ h.left_le
  · exact sameRight ▸ h.right_le
  · exact sameLeft ▸ h.le_total

/-- The cut leaves both sources as long as the rest to zip. -/
lemma adjust_backed (h : Backed aOps bOps aValid bValid z.len m z.a z.b) :
    ∃ a b, adjust aOps bOps z = some { z with a, b } ∧
      Backed aOps bOps aValid bValid z.len m a b := by
  obtain ⟨left, right, leftLe, rightLe, total⟩ := h
  unfold adjust
  split
  next =>
    obtain ⟨a, cutLeft, leftCut, leftSize⟩ := ha.backTimes (aOps.size z.a - max z.len z.index) left
    obtain ⟨b, cutRight, rightCut, rightSize⟩ := hb.backTimes (bOps.size z.b - z.len) right
    simp only [cutLeft, cutRight]
    split <;> split
    · exact ⟨a, b, rfl, leftCut, rightCut, by omega, by omega, by omega⟩
    · exact ⟨a, z.b, rfl, leftCut, right, by omega, rightLe, by omega⟩
    · exact ⟨z.a, b, rfl, left, rightCut, leftLe, by omega, total⟩
    · exact ⟨z.a, z.b, rfl, left, right, leftLe, rightLe, total⟩
  next => exact ⟨z.a, z.b, rfl, left, right, leftLe, rightLe, total⟩

lemma nextBack_backed (h : Backed aOps bOps aValid bValid z.len m z.a z.b) :
    ∃ x a b, nextBack aOps bOps z =
        some (x, { z with a, b, len := if z.index < z.len then z.len - 1 else z.len }) ∧
      Backed aOps bOps aValid bValid z.len m a b := by
  obtain ⟨a, b, adjusted, backed⟩ := adjust_backed ha hb h
  by_cases more : z.index < z.len
  · obtain ⟨p, a', b', read, backed'⟩ := getUnchecked_backed ha hb
      (z := { z with a, b, len := z.len - 1 }) (i := z.len - 1) backed (by omega)
    exact ⟨some p, a', b', by simp [nextBack, adjusted, more, read], backed'⟩
  · exact ⟨none, a, b, by simp [nextBack, adjusted, more], backed⟩

lemma skip_backed (k : Nat) : ∀ {z : Zip A B}, z.index + k ≤ z.len →
    Backed aOps bOps aValid bValid z.len m z.a z.b →
    ∃ a b, skip aOps bOps k z = some { z with a, b, index := z.index + k } ∧
      Backed aOps bOps aValid bValid z.len m a b := by
  induction k with
  | zero => exact fun _ h => ⟨_, _, rfl, h⟩
  | succ k ih =>
    intro z room h
    have below : z.index < z.len := by omega
    obtain ⟨x, a, readLeft, left, sameLeft⟩ := ha.get h.left (lt_of_lt_of_le below h.left_le)
    obtain ⟨y, b, readRight, right, sameRight⟩ := hb.get h.right
      (lt_of_lt_of_le below h.right_le)
    have called : ∃ a b, skip aOps bOps (k + 1) z =
          skip aOps bOps k { z with a, b, index := z.index + 1 } ∧
        Backed aOps bOps aValid bValid z.len m a b := by
      obtain ⟨leftBefore, rightBefore, leftLe, rightLe, total⟩ := h
      simp only [skip, readLeft, readRight]
      split <;> split
      · exact ⟨a, b, rfl, left, right, by omega, by omega, by omega⟩
      · exact ⟨a, z.b, rfl, left, rightBefore, by omega, by omega, by omega⟩
      · exact ⟨z.a, b, rfl, leftBefore, right, by omega, by omega, by omega⟩
      · exact ⟨z.a, z.b, rfl, leftBefore, rightBefore, by omega, by omega, by omega⟩
    obtain ⟨a, b, first, backed⟩ := called
    obtain ⟨a', b', rest, backed'⟩ :=
      ih (z := { z with a, b, index := z.index + 1 }) (by dsimp only; omega) backed
    exact ⟨a', b', by rw [first, rest]; simp [add_assoc, add_comm 1], backed'⟩

/-- What every run keeps if the first source has no side effects or is empty. -/
def Ordered (aOps : Ops A I) (bOps : Ops B J) (aValid : A → Prop) (bValid : B → Prop) (m : Nat)
    (z : Zip A B) : Prop :=
  z.index ≤ z.len ∧ Backed aOps bOps aValid bValid z.len m z.a z.b

section
variable (quiet : aOps.mayHaveSideEffect = false ∨ m = 0)
include quiet

lemma next_ordered (h : Ordered aOps bOps aValid bValid m z) :
    (z.index < z.len → ∃ p a b,
      next aOps bOps z = some (some p, { z with a, b, index := z.index + 1 }) ∧
        Ordered aOps bOps aValid bValid m { z with a, b, index := z.index + 1 }) ∧
    (z.index = z.len → next aOps bOps z = some (none, z)) := by
  constructor
  · intro more
    obtain ⟨p, a, b, read, backed⟩ := getUnchecked_backed ha hb
      (z := { z with index := z.index + 1 }) h.2 more
    exact ⟨p, a, b, by simp [next, more, read], more, backed⟩
  · intro ended
    have silent : ¬ (aOps.mayHaveSideEffect ∧ z.index < aOps.size z.a) := by
      rintro ⟨effects, inside⟩
      have := h.2.le_total
      rcases quiet with none | empty
      · rw [none] at effects
        cases effects
      · omega
    simp [next, ended ▸ silent, ended]

lemma next_keeps {z : Zip A B} (h : Ordered aOps bOps aValid bValid m z) :
    ∃ x z', next aOps bOps z = some (x, z') ∧ Ordered aOps bOps aValid bValid m z' := by
  obtain ⟨more, ended⟩ := next_ordered ha hb quiet h
  rcases lt_or_eq_of_le h.1 with less | same
  · obtain ⟨p, a, b, called, kept⟩ := more less
    exact ⟨some p, _, called, kept⟩
  · exact ⟨none, z, ended same, h⟩

omit quiet in
lemma nextBack_keeps {z : Zip A B} (h : Ordered aOps bOps aValid bValid m z) :
    ∃ x z', nextBack aOps bOps z = some (x, z') ∧ Ordered aOps bOps aValid bValid m z' := by
  obtain ⟨x, a, b, called, backed⟩ := nextBack_backed ha hb h.2
  have order := h.1
  refine ⟨x, _, called, ?_, backed.mono ?_⟩ <;> dsimp only <;> split <;> omega

lemma step_keeps (call : DoubleEnded.Call) (h : Ordered aOps bOps aValid bValid m z) :
    ∃ x z', step aOps bOps z call = some (x, z') ∧ Ordered aOps bOps aValid bValid m z' := by
  cases call with
  | next => exact next_keeps ha hb quiet h
  | nextBack => exact nextBack_keeps ha hb h
  | nth k =>
    have order := h.1
    obtain ⟨a, b, skipped, backed⟩ := skip_backed ha hb (min k (z.len - z.index)) (by omega) h.2
    obtain ⟨x, z', found, kept⟩ := DoubleEnded.nthByNext_keeps (next_keeps ha hb quiet)
      (k - min k (z.len - z.index))
      (s := { z with a, b, index := z.index + min k (z.len - z.index) })
      ⟨by dsimp only; omega, backed⟩
    refine ⟨x, z', ?_, kept⟩
    simp [step, nth, wrappingSub, order, skipped, superNth, found]
  | nthBack k => exact DoubleEnded.nthByNext_keeps (nextBack_keeps ha hb) k h

lemma stateAfter_keeps (calls : List DoubleEnded.Call) :
    ∀ {z}, Ordered aOps bOps aValid bValid m z →
      ∃ z', stateAfter (step aOps bOps) calls z = some z' ∧
        Ordered aOps bOps aValid bValid m z' := by
  induction calls with
  | nil => exact fun h => ⟨_, rfl, h⟩
  | cons call calls ih =>
    intro z h
    obtain ⟨x, z₁, called, kept⟩ := step_keeps ha hb quiet call h
    obtain ⟨z₂, rest, kept₂⟩ := ih kept
    exact ⟨z₂, by simp [stateAfter, called, rest], kept₂⟩

lemma Ordered.yields (k : Nat) : ∀ {z}, Ordered aOps bOps aValid bValid m z →
    z.len - z.index = k → ∃ l, DoubleEnded.Yields (next aOps bOps) l z ∧ l.length = k := by
  induction k with
  | zero =>
    intro z h none
    have ended := le_antisymm h.1 (Nat.le_of_sub_eq_zero none)
    exact ⟨[], ⟨z, (next_ordered ha hb quiet h).2 ended⟩, rfl⟩
  | succ k ih =>
    intro z h left
    obtain ⟨p, a, b, called, kept⟩ := (next_ordered ha hb quiet h).1 (by omega)
    obtain ⟨l, rest, count⟩ := ih kept (by dsimp only; omega)
    exact ⟨p :: l, ⟨_, called, rest⟩, congrArg (· + 1) count⟩

end

/-- Taking all pairs from the back leaves something of the first source. -/
lemma stateAfter_nextBack (k : Nat) : ∀ {a b}, Backed aOps bOps aValid bValid k m a b →
    0 < aOps.size a → ∃ a' b', stateAfter (step aOps bOps)
        (replicate k .nextBack) ⟨a, b, 0, k⟩ = some ⟨a', b', 0, 0⟩ ∧
      aValid a' ∧ 0 < aOps.size a' := by
  induction k with
  | zero => exact fun h some => ⟨_, _, rfl, h.left, some⟩
  | succ k ih =>
    intro a b h _
    obtain ⟨x, a', b', called, backed⟩ := nextBack_backed ha hb (z := ⟨a, b, 0, k + 1⟩) h
    obtain ⟨a'', b'', rest, valid, some⟩ := ih (backed.mono k.le_succ)
      (lt_of_lt_of_le k.succ_pos backed.left_le)
    refine ⟨a'', b'', ?_, valid, some⟩
    simpa [replicate_succ, stateAfter, step, called] using rest

/-- The size hint is exact after every run if and only if the first source declares no side effects
or is empty: else the run that takes all pairs from the back and then calls `next` ends with the
index above the length. -/
theorem size_hint_exact_iff {a : A} {b : B} (left : aValid a) (right : bValid b) :
    (∀ calls, ∃ z, stateAfter (step aOps bOps) calls (new aOps bOps a b) = some z ∧
        Exact aOps bOps z) ↔
      aOps.mayHaveSideEffect = false ∨ aOps.size a = 0 := by
  have fresh : Backed aOps bOps aValid bValid (min (aOps.size a) (bOps.size b)) (aOps.size a) a b :=
    ⟨left, right, min_le_left .., min_le_right .., le_refl _⟩
  constructor
  · intro exact
    by_contra noisy
    obtain ⟨effects, some⟩ := not_or.mp noisy
    obtain ⟨a', b', emptied, valid, rest⟩ :=
      stateAfter_nextBack ha hb _ fresh (Nat.pos_of_ne_zero some)
    obtain ⟨x, a'', read, -⟩ := ha.get valid rest
    obtain ⟨z, reached, order, -⟩ :=
      exact (replicate (min (aOps.size a) (bOps.size b)) .nextBack ++ [.next])
    have past : stateAfter (step aOps bOps) [.next] ⟨a', b', 0, 0⟩ =
        Option.some ⟨a'', b', 1, 0⟩ := by
      simp [stateAfter, step, next, effects, rest, read]
    rw [DoubleEnded.stateAfter_append, new, emptied, Option.bind_some, past] at reached
    cases reached
    exact Nat.not_succ_le_zero 0 order
  · intro quiet calls
    obtain ⟨z, reached, kept⟩ :=
      stateAfter_keeps ha hb quiet calls (z := new aOps bOps a b) ⟨Nat.zero_le _, fresh⟩
    obtain ⟨l, given, count⟩ := kept.yields ha hb quiet _ rfl
    refine ⟨z, reached, kept.1, l, given, ?_⟩
    simp [sizeHint, wrappingSub, kept.1, count]

end

theorem size_hint_exact_iff_slices :
    ∃ z, stateAfter (step Slice.ops Slice.ops) [.nextBack, .nth 1, .next]
        (new Slice.ops Slice.ops (Slice.iter [1, 2, 3]) (Slice.iter [4, 5, 6, 7])) = some z ∧
      Exact Slice.ops Slice.ops z :=
  (size_hint_exact_iff Slice.lawful.sized Slice.lawful.sized ⟨Nat.zero_le _, Nat.le_refl _⟩
    ⟨Nat.zero_le _, Nat.le_refl _⟩).mpr (.inl rfl) _

/-- A slice under a closure that counts its calls. -/
def counting : Ops (Slice Nat × Nat) Nat := Map.ops Slice.ops (fun calls x => (x, calls + 1))

/-- The pair is given, the next call only counts, and nothing is left. -/
theorem size_hint_wraps_around :
    ∃ z, stateAfter (step counting Slice.ops) [.next, .next]
        (new counting Slice.ops (Slice.iter [1, 2], 0) (Slice.iter [3])) = some z ∧
      DoubleEnded.Yields (next counting Slice.ops) [] z ∧
      z.sizeHint = (2 ^ 64 - 1, some (2 ^ 64 - 1)) ∧ ¬ Exact counting Slice.ops z := by
  refine ⟨⟨(Slice.iter [1, 2], 2), Slice.iter [3], 2, 1⟩, rfl, ⟨_, rfl⟩, rfl, ?_⟩
  rintro ⟨order, -⟩
  exact absurd order (by decide)

end Zip
