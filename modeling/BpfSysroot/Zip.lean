import BpfSysroot.DoubleEnded

/-!
# `Zip`

`core/src/iter/adapters/zip.rs`: the general implementation, which advances both
sources, and the one for sources with random access, which addresses them by an
index. The traits that they are generic over are records of functions, so that
the specialised `Zip` is again a source. The sources are slice iterators and
`Zip`s of sources. A call with undefined behaviour has no result.
-/

namespace Zip

open List

universe u

/-- `Iterator`, `ExactSizeIterator`, `DoubleEndedIterator` and `TrustedRandomAccess`. -/
structure Ops (S I : Type u) where
  next : S → Option (Option I × S)
  nextBack : S → Option (Option I × S)
  size : S → Nat
  getUnchecked : S → Nat → Option (I × S)
  mayHaveSideEffect : Bool

/-- As many calls of `next_back`, their results dropped. -/
def Ops.backTimes {S I : Type u} (o : Ops S I) : Nat → S → Option S
  | 0, s => some s
  | n + 1, s => do
    let (_, s) ← o.nextBack s
    o.backTimes n s

/-- The `while let` loop over some `next`. -/
def superNth {S I : Type u} (next : S → Option (Option I × S)) (n : Nat) (s : S) :
    Option (Option I × S) :=
  DoubleEnded.nthByNext next n s

/-- A slice iterator; both ends are positions in the memory that holds the slice. -/
structure Slice (T : Type u) where
  buffer : List T
  ptr : Nat
  fin : Nat

namespace Slice
variable {T : Type u}

def iter (l : List T) : Slice T := ⟨l, 0, l.length⟩

def next (s : Slice T) : Option (Option T × Slice T) :=
  if s.ptr = s.fin then
    some (none, s)
  else do
    let x ← s.buffer[s.ptr]?
    return (some x, { s with ptr := s.ptr + 1 })

def nextBack (s : Slice T) : Option (Option T × Slice T) :=
  if s.ptr = s.fin then
    some (none, s)
  else do
    let x ← s.buffer[s.fin - 1]?
    return (some x, { s with fin := s.fin - 1 })

def getUnchecked (s : Slice T) (i : Nat) : Option (T × Slice T) :=
  if i < s.fin - s.ptr then do
    let x ← s.buffer[s.ptr + i]?
    return (x, s)
  else none

def ops : Ops (Slice T) T where
  next := next
  nextBack := nextBack
  size s := s.fin - s.ptr
  getUnchecked := getUnchecked
  mayHaveSideEffect := false

end Slice

/-- The general implementation; the index and the length are not used there. -/
structure General (A B : Type u) where
  a : A
  b : B

namespace General
variable {A B I J : Type u} (aOps : Ops A I) (bOps : Ops B J)

def next (z : General A B) : Option (Option (I × J) × General A B) := do
  match ← aOps.next z.a with
  | (none, a) => return (none, { z with a })
  | (some x, a) =>
    match ← bOps.next z.b with
    | (none, b) => return (none, ⟨a, b⟩)
    | (some y, b) => return (some (x, y), ⟨a, b⟩)

def nth (n : Nat) (z : General A B) : Option (Option (I × J) × General A B) :=
  superNth (next aOps bOps) n z

/-- Cuts the longer source to the length of the other. -/
def adjust (z : General A B) : Option (General A B) :=
  let aSize := aOps.size z.a
  let bSize := bOps.size z.b
  if aSize ≠ bSize then
    if aSize > bSize then do
      return { z with a := ← aOps.backTimes (aSize - bSize) z.a }
    else do
      return { z with b := ← bOps.backTimes (bSize - aSize) z.b }
  else
    some z

def nextBack (z : General A B) : Option (Option (I × J) × General A B) := do
  let z ← adjust aOps bOps z
  match ← aOps.nextBack z.a, ← bOps.nextBack z.b with
  | (some x, a), (some y, b) => return (some (x, y), ⟨a, b⟩)
  | (none, a), (none, b) => return (none, ⟨a, b⟩)
  | _, _ => none

open DoubleEnded in
def step (z : General A B) : Call → Option (Option (I × J) × General A B)
  | .next => next aOps bOps z
  | .nextBack => nextBack aOps bOps z
  | .nth n => nth aOps bOps n z
  | .nthBack n => nthByNext (nextBack aOps bOps) n z

end General
end Zip

/-- The specialised `Zip`. -/
structure Zip (A B : Type u) where
  a : A
  b : B
  index : Nat
  len : Nat

namespace Zip
variable {A B I J : Type u} (aOps : Ops A I) (bOps : Ops B J)

def new (a : A) (b : B) : Zip A B :=
  ⟨a, b, 0, min (aOps.size a) (bOps.size b)⟩

section
variable (z : Zip A B)

def getUnchecked (i : Nat) : Option ((I × J) × Zip A B) := do
  let (x, a) ← aOps.getUnchecked z.a i
  let (y, b) ← bOps.getUnchecked z.b i
  return ((x, y), { z with a, b })

def next : Option (Option (I × J) × Zip A B) := do
  if z.index < z.len then
    let (p, z') ← getUnchecked aOps bOps { z with index := z.index + 1 } z.index
    return (some p, z')
  else if aOps.mayHaveSideEffect && z.index < aOps.size z.a then
    let (_, a) ← aOps.getUnchecked z.a z.index
    return (none, { z with a, index := z.index + 1 })
  else
    return (none, z)

/-- Subtraction on `usize`, which wraps around without the overflow check. -/
def wrappingSub (m n : Nat) : Nat := if n ≤ m then m - n else m + 2 ^ 64 - n

def sizeHint : Nat × Option Nat :=
  let len := wrappingSub z.len z.index
  (len, some len)

/-- The loop of `nth`, which only calls a source for its side effects. -/
def skip : Nat → Zip A B → Option (Zip A B)
  | 0, z => some z
  | n + 1, z => do
    let i := z.index
    let a ← if aOps.mayHaveSideEffect then (·.2) <$> aOps.getUnchecked z.a i else some z.a
    let b ← if bOps.mayHaveSideEffect then (·.2) <$> bOps.getUnchecked z.b i else some z.b
    skip n { z with a, b, index := i + 1 }

def nth (n : Nat) (z : Zip A B) : Option (Option (I × J) × Zip A B) := do
  let delta := min n (wrappingSub z.len z.index)
  let z ← skip aOps bOps delta z
  superNth (next aOps bOps) (n - delta) z

/-- Sources with side effects are first cut to the same length. -/
def adjust : Option (Zip A B) := do
  if (aOps.mayHaveSideEffect || bOps.mayHaveSideEffect) && aOps.size z.a != bOps.size z.b then
    let aSize := aOps.size z.a
    let a ← if aOps.mayHaveSideEffect && aSize > z.len then
      aOps.backTimes (aSize - max z.len z.index) z.a else some z.a
    let bSize := bOps.size z.b
    let b ← if bOps.mayHaveSideEffect && bSize > z.len then
      bOps.backTimes (bSize - z.len) z.b else some z.b
    return { z with a, b }
  else
    return z

def nextBack : Option (Option (I × J) × Zip A B) := do
  let z ← adjust aOps bOps z
  if z.index < z.len then
    let (p, z') ← getUnchecked aOps bOps { z with len := z.len - 1 } (z.len - 1)
    return (some p, z')
  else
    return (none, z)

end

def ops : Ops (Zip A B) (I × J) where
  next := next aOps bOps
  nextBack := nextBack aOps bOps
  size z := z.sizeHint.1
  getUnchecked := getUnchecked aOps bOps
  mayHaveSideEffect := aOps.mayHaveSideEffect || bOps.mayHaveSideEffect

open DoubleEnded in
def step (z : Zip A B) : Call → Option (Option (I × J) × Zip A B)
  | .next => next aOps bOps z
  | .nextBack => nextBack aOps bOps z
  | .nth n => nth aOps bOps n z
  | .nthBack n => nthByNext (nextBack aOps bOps) n z

/-- The sources: slice iterators and `Zip`s of sources. -/
inductive Kind : Type (u + 1)
  | slice (T : Type u)
  | zip (a b : Kind)

namespace Kind

def Item : Kind.{u} → Type u
  | .slice T => T
  | .zip a b => a.Item × b.Item

def State : Kind.{u} → Type u
  | .slice T => Slice T
  | .zip a b => Zip a.State b.State

def ops : (k : Kind.{u}) → Ops k.State k.Item
  | .slice _ => Slice.ops
  | .zip a b => Zip.ops a.ops b.ops

end Kind

/-- What a source can be when it is zipped: it was made and then called at both ends. -/
inductive Advanced : (k : Kind.{u}) → k.State → Prop
  | slice {T : Type u} (l : List T) : Advanced (.slice T) (Slice.iter l)
  | zip {j k : Kind.{u}} {a : j.State} {b : k.State} (ha : Advanced j a) (hb : Advanced k b) :
      Advanced (.zip j k) (Zip.new j.ops k.ops a b)
  | next {k : Kind.{u}} {s s' : k.State} {x : Option k.Item} (before : Advanced k s)
      (made : k.ops.next s = some (x, s')) : Advanced k s'
  | nextBack {k : Kind.{u}} {s s' : k.State} {x : Option k.Item} (before : Advanced k s)
      (made : k.ops.nextBack s = some (x, s')) : Advanced k s'

/-- How a side-effect-free source behaves: `items` is what it gives one by one, and `window` is what
is read at an index. -/
structure Lawful {S I : Type u} (o : Ops S I) (Valid : S → Prop) (items window : S → List I) :
    Prop where
  silent : o.mayHaveSideEffect = false
  size_eq : ∀ {s}, Valid s → o.size s = (items s).length
  length_le : ∀ {s}, Valid s → (items s).length ≤ (window s).length
  get : ∀ {s i x}, Valid s → (window s)[i]? = some x → o.getUnchecked s i = some (x, s)
  next : ∀ {s}, Valid s →
    ∃ s', o.next s = some ((items s).head?, s') ∧ Valid s' ∧ items s' = (items s).tail
  nextBack : ∀ {s}, Valid s →
    ∃ s', o.nextBack s = some ((items s).getLast?, s') ∧ Valid s' ∧ items s' = (items s).dropLast

lemma Lawful.backTimes {S I : Type u} {o : Ops S I} {Valid : S → Prop} {items window : S → List I}
    (h : Lawful o Valid items window) (n : Nat) : ∀ {s}, Valid s →
      ∃ s', o.backTimes n s = some s' ∧ Valid s' ∧
        items s' = (items s).take ((items s).length - n) := by
  induction n with
  | zero =>
    intro s valid
    exact ⟨s, rfl, valid, by simp⟩
  | succ n ih =>
    intro s valid
    obtain ⟨s₁, called, valid₁, left₁⟩ := h.nextBack valid
    obtain ⟨s₂, called₂, valid₂, left₂⟩ := ih valid₁
    refine ⟨s₂, by simp [Ops.backTimes, called, called₂], valid₂, ?_⟩
    rw [left₂, left₁, List.dropLast_eq_take, List.take_take, List.length_take]
    congr 1
    omega

namespace Slice
variable {T : Type u}

def Valid (s : Slice T) : Prop := s.ptr ≤ s.fin ∧ s.fin ≤ s.buffer.length

def items (s : Slice T) : List T := (s.buffer.take s.fin).drop s.ptr

lemma length_items {s : Slice T} (valid : s.Valid) : s.items.length = s.fin - s.ptr := by
  simp [items, valid.2]

lemma getElem?_items (s : Slice T) (i : Nat) :
    s.items[i]? = if s.ptr + i < s.fin then s.buffer[s.ptr + i]? else none := by
  rw [items, List.getElem?_drop, List.getElem?_take]

lemma lawful : Lawful (ops (T := T)) Valid items items where
  silent := rfl
  size_eq valid := (length_items valid).symm
  length_le _ := Nat.le_refl _
  get := by
    intro s i x valid found
    rw [getElem?_items] at found
    have inside : s.ptr + i < s.fin := by
      by_contra outside
      simp [outside] at found
    have below : i < s.fin - s.ptr := by omega
    rw [if_pos inside] at found
    simp [ops, getUnchecked, below, found]
  next := by
    intro s valid
    obtain ⟨order, room⟩ := valid
    by_cases done : s.ptr = s.fin
    · have none_left : s.items = [] := by simp [items, done]
      exact ⟨s, by simp [ops, next, done, none_left], ⟨order, room⟩, by simp [none_left]⟩
    · have inside : s.ptr < s.buffer.length := by omega
      have cons : s.items = s.buffer[s.ptr] :: (s.buffer.take s.fin).drop (s.ptr + 1) := by
        rw [items, List.drop_eq_getElem_cons (by rw [List.length_take]; omega), List.getElem_take]
      refine ⟨{ s with ptr := s.ptr + 1 }, ?_, ?_, ?_⟩
      · simp [ops, next, done, cons, inside]
      · exact ⟨by change s.ptr + 1 ≤ s.fin; omega, room⟩
      · rw [cons]
        rfl
  nextBack := by
    intro s valid
    obtain ⟨order, room⟩ := valid
    by_cases done : s.ptr = s.fin
    · have none_left : s.items = [] := by simp [items, done]
      exact ⟨s, by simp [ops, nextBack, done, none_left], ⟨order, room⟩, by simp [none_left]⟩
    · have inside : s.fin - 1 < s.buffer.length := by omega
      have length : s.items.length = s.fin - s.ptr := length_items ⟨order, room⟩
      have last : s.items.getLast? = some s.buffer[s.fin - 1] := by
        rw [List.getLast?_eq_getElem?, length, getElem?_items,
          show s.ptr + (s.fin - s.ptr - 1) = s.fin - 1 by omega, if_pos (by omega),
          List.getElem?_eq_getElem inside]
      refine ⟨{ s with fin := s.fin - 1 }, ?_, ?_, ?_⟩
      · simp [ops, nextBack, done, last, inside]
      · exact ⟨by change s.ptr ≤ s.fin - 1; omega, Nat.le_trans (Nat.sub_le _ _) room⟩
      · rw [List.dropLast_eq_take, length, items, items, List.take_drop, List.take_take]
        congr 2
        dsimp only
        omega

end Slice

section
variable {A B I J : Type u} {aOps : Ops A I} {bOps : Ops B J} {aValid : A → Prop}
  {bValid : B → Prop}
  {aItems aWindow : A → List I} {bItems bWindow : B → List J}

/-- What is read at an index of both sources. -/
def pairs (aWindow : A → List I) (bWindow : B → List J) (z : Zip A B) : List (I × J) :=
  (aWindow z.a).zip (bWindow z.b)

structure Valid (aValid : A → Prop) (bValid : B → Prop) (aWindow : A → List I)
    (bWindow : B → List J) (z : Zip A B) : Prop where
  left : aValid z.a
  right : bValid z.b
  index_le : z.index ≤ z.len
  len_le : z.len ≤ (pairs aWindow bWindow z).length

def items (aWindow : A → List I) (bWindow : B → List J) (z : Zip A B) : List (I × J) :=
  ((pairs aWindow bWindow z).take z.len).drop z.index

lemma length_items {z : Zip A B} (valid : Valid aValid bValid aWindow bWindow z) :
    (items aWindow bWindow z).length = z.len - z.index := by
  simp [items, valid.len_le]

lemma getElem?_items (z : Zip A B) (i : Nat) :
    (items aWindow bWindow z)[i]? =
      if z.index + i < z.len then (pairs aWindow bWindow z)[z.index + i]? else none := by
  rw [items, List.getElem?_drop, List.getElem?_take]

variable (ha : Lawful aOps aValid aItems aWindow) (hb : Lawful bOps bValid bItems bWindow)
include ha hb

variable {z : Zip A B} {i : Nat}

lemma getUnchecked_eq {p : I × J} (left : aValid z.a) (right : bValid z.b)
    (found : (pairs aWindow bWindow z)[i]? = some p) :
    getUnchecked aOps bOps z i = some (p, z) := by
  obtain ⟨first, second⟩ := List.getElem?_zip_eq_some.mp found
  simp [getUnchecked, ha.get left first, hb.get right second]

lemma adjust_eq (z : Zip A B) : adjust aOps bOps z = some z := by
  simp [adjust, ha.silent, hb.silent]

lemma next_eq (valid : Valid aValid bValid aWindow bWindow z) :
    ∃ z', next aOps bOps z = some ((items aWindow bWindow z).head?, z') ∧
      Valid aValid bValid aWindow bWindow z' ∧
      items aWindow bWindow z' = (items aWindow bWindow z).tail := by
  obtain ⟨left, right, order, room⟩ := valid
  by_cases more : z.index < z.len
  · have inside : z.index < (pairs aWindow bWindow z).length := by omega
    refine ⟨{ z with index := z.index + 1 }, ?_, ⟨left, right, more, room⟩, ?_⟩
    · have found : (pairs aWindow bWindow z)[z.index]? = some (pairs aWindow bWindow z)[z.index] :=
        List.getElem?_eq_getElem inside
      have read : getUnchecked aOps bOps { z with index := z.index + 1 } z.index =
          some ((pairs aWindow bWindow z)[z.index], { z with index := z.index + 1 }) :=
        getUnchecked_eq ha hb left right found
      rw [List.head?_eq_getElem?, getElem?_items]
      simp [next, more, read]
    · rw [items, items, List.tail_drop]
      rfl
  · have none_left : items aWindow bWindow z = [] := by
      rw [items, List.drop_eq_nil_iff, List.length_take]
      omega
    refine ⟨z, ?_, ⟨left, right, order, room⟩, by simp [none_left]⟩
    simp [next, more, ha.silent, none_left]

lemma nextBack_eq (valid : Valid aValid bValid aWindow bWindow z) :
    ∃ z', nextBack aOps bOps z = some ((items aWindow bWindow z).getLast?, z') ∧
      Valid aValid bValid aWindow bWindow z' ∧
      items aWindow bWindow z' = (items aWindow bWindow z).dropLast := by
  have length := length_items valid
  obtain ⟨left, right, order, room⟩ := valid
  by_cases more : z.index < z.len
  · have inside : z.len - 1 < (pairs aWindow bWindow z).length := by omega
    refine ⟨{ z with len := z.len - 1 }, ?_, ⟨left, right, Nat.le_sub_one_of_lt more,
      le_trans (Nat.sub_le _ _) room⟩, ?_⟩
    · have found : (pairs aWindow bWindow z)[z.len - 1]? =
          some (pairs aWindow bWindow z)[z.len - 1] := List.getElem?_eq_getElem inside
      have read : getUnchecked aOps bOps { z with len := z.len - 1 } (z.len - 1) =
          some ((pairs aWindow bWindow z)[z.len - 1], { z with len := z.len - 1 }) :=
        getUnchecked_eq ha hb left right found
      have place : z.index + (z.len - z.index - 1) = z.len - 1 := by omega
      rw [List.getLast?_eq_getElem?, length, getElem?_items, place, if_pos (by omega)]
      simp [nextBack, adjust_eq ha hb, more, read]
    · have place : z.index + (z.len - z.index - 1) = z.len - 1 := by omega
      rw [List.dropLast_eq_take, length, items, items, List.take_drop, List.take_take, place,
        Nat.min_eq_left (Nat.sub_le _ _)]
      rfl
  · have none_left : items aWindow bWindow z = [] := by
      rw [items, List.drop_eq_nil_iff, List.length_take]
      omega
    refine ⟨z, ?_, ⟨left, right, order, room⟩, by simp [none_left]⟩
    simp [nextBack, adjust_eq ha hb, more, none_left]

lemma lawful : Lawful (ops aOps bOps) (Valid aValid bValid aWindow bWindow)
    (items aWindow bWindow) (pairs aWindow bWindow) where
  silent := by simp [ops, ha.silent, hb.silent]
  size_eq valid := (if_pos valid.index_le).trans (length_items valid).symm
  length_le valid := by
    rw [length_items valid]
    exact le_trans (Nat.sub_le _ _) valid.len_le
  get valid found := getUnchecked_eq ha hb valid.left valid.right found
  next := next_eq ha hb
  nextBack := nextBack_eq ha hb

lemma valid_new {a : A} {b : B} (left : aValid a) (right : bValid b) :
    Valid aValid bValid aWindow bWindow (new aOps bOps a b) := by
  refine ⟨left, right, Nat.zero_le _, ?_⟩
  have := ha.length_le left
  have := hb.length_le right
  simp only [new, pairs, List.length_zip, ha.size_eq left, hb.size_eq right]
  omega

lemma map_getUnchecked (valid : Valid aValid bValid aWindow bWindow z)
    (inside : i < (pairs aWindow bWindow z).length) :
    (getUnchecked aOps bOps z i).map Prod.fst = (pairs aWindow bWindow z)[i]? := by
  have found := List.getElem?_eq_getElem inside
  rw [getUnchecked_eq ha hb valid.left valid.right found, found]
  rfl

/-- What is read at the first indices is what the `Zip` gives next, if and only if it also reads
the same after its own index. -/
lemma take_pairs_eq_iff (valid : Valid aValid bValid aWindow bWindow z) {n : Nat}
    (le : n ≤ (items aWindow bWindow z).length) :
    (pairs aWindow bWindow z).take n = (items aWindow bWindow z).take n ↔
      ∀ i < n, (getUnchecked aOps bOps z i).map Prod.fst =
        (getUnchecked aOps bOps z (z.index + i)).map Prod.fst := by
  have room := valid.len_le
  rw [length_items valid] at le
  have compare : ∀ i < n,
      ((pairs aWindow bWindow z)[i]? = (items aWindow bWindow z)[i]? ↔
        (getUnchecked aOps bOps z i).map Prod.fst =
          (getUnchecked aOps bOps z (z.index + i)).map Prod.fst) := by
    intro i below
    rw [map_getUnchecked ha hb valid (by omega),
      map_getUnchecked ha hb valid (by omega), getElem?_items,
      if_pos (by omega)]
  constructor
  · intro same i below
    have at_i := congrArg (·[i]?) same
    simp only [List.getElem?_take, if_pos below] at at_i
    exact (compare i below).mp at_i
  · intro repeats
    apply List.ext_getElem?
    intro i
    simp only [List.getElem?_take]
    split
    next below => exact (compare i below).mpr (repeats i below)
    next => rfl

end

section
variable {A B I J : Type u} {aOps : Ops A I} {bOps : Ops B J} {aValid : A → Prop}
  {bValid : B → Prop}
  {aItems aWindow : A → List I} {bItems bWindow : B → List J}

lemma skip_eq (aSilent : aOps.mayHaveSideEffect = false) (bSilent : bOps.mayHaveSideEffect = false)
    (n : Nat) : ∀ z : Zip A B, skip aOps bOps n z = some { z with index := z.index + n } := by
  induction n with
  | zero => exact fun _ => rfl
  | succ n ih =>
    simp only [skip, aSilent, bSilent, ih]
    simp [add_assoc, add_comm 1]

variable (ha : Lawful aOps aValid aItems aWindow) (hb : Lawful bOps bValid bItems bWindow)
include ha hb

/-- The specialised `Zip` gives the pairs in its index window. -/
lemma step_follows : DoubleEnded.Follows (step aOps bOps)
    (fun z l => Valid aValid bValid aWindow bWindow z ∧ l = items aWindow bWindow z) := by
  have front {z l} : Valid aValid bValid aWindow bWindow z ∧ l = items aWindow bWindow z →
      ∃ z', next aOps bOps z = some (l.head?, z') ∧
        Valid aValid bValid aWindow bWindow z' ∧ l.tail = items aWindow bWindow z' := by
    rintro ⟨valid, rfl⟩
    obtain ⟨z', called, valid', left⟩ := next_eq ha hb valid
    exact ⟨z', called, valid', left.symm⟩
  have back {z l} : Valid aValid bValid aWindow bWindow z ∧ l = items aWindow bWindow z →
      ∃ z', nextBack aOps bOps z = some (l.getLast?, z') ∧
        Valid aValid bValid aWindow bWindow z' ∧ l.dropLast = items aWindow bWindow z' := by
    rintro ⟨valid, rfl⟩
    obtain ⟨z', called, valid', left⟩ := nextBack_eq ha hb valid
    exact ⟨z', called, valid', left.symm⟩
  rintro (_ | _ | n | n) z l holds
  · exact front holds
  · exact back holds
  · obtain ⟨valid, rfl⟩ := holds
    obtain ⟨left, right, order, room⟩ := id valid
    -- The skipped part stays inside the window, and the loop goes on from there.
    have skipped := skip_eq ha.silent hb.silent (min n (z.len - z.index)) z
    have valid' : Valid aValid bValid aWindow bWindow
        { z with index := z.index + min n (z.len - z.index) } :=
      ⟨left, right, by dsimp only; omega, room⟩
    obtain ⟨z', found, valid'', left'⟩ := DoubleEnded.nthByNext_eq (next aOps bOps) _ front
      (n - min n (z.len - z.index)) ⟨valid', rfl⟩
    have rest : items aWindow bWindow { z with index := z.index + min n (z.len - z.index) } =
        (items aWindow bWindow z).drop (min n (z.len - z.index)) := by
      rw [items, items, List.drop_drop]
      rfl
    have together : min n (z.len - z.index) + (n - min n (z.len - z.index)) = n := by omega
    refine ⟨z', ?_, valid'', ?_⟩
    · simp only [step, nth, wrappingSub, if_pos order, superNth, skipped, Option.bind_eq_bind,
        Option.bind_some, found, rest, List.getElem?_drop, together, DoubleEnded.ask]
    · rw [← left', rest, List.drop_drop, ← Nat.add_assoc, together]
      rfl
  · exact DoubleEnded.nthByNext_back (nextBack aOps bOps) _ back n holds

end

namespace General
variable {A B I J : Type u} {aOps : Ops A I} {bOps : Ops B J} {aValid : A → Prop}
  {bValid : B → Prop}
  {aItems aWindow : A → List I} {bItems bWindow : B → List J}

/-- What the general implementation has still to give. -/
def Gives (aValid : A → Prop) (bValid : B → Prop) (aItems : A → List I) (bItems : B → List J)
    (z : General A B) (l : List (I × J)) : Prop :=
  aValid z.a ∧ bValid z.b ∧ l = (aItems z.a).zip (bItems z.b)

variable (ha : Lawful aOps aValid aItems aWindow) (hb : Lawful bOps bValid bItems bWindow)
include ha hb

variable {z : General A B} {l : List (I × J)}

section
variable (gives : Gives aValid bValid aItems bItems z l)
include gives

lemma next_gives :
    ∃ z', next aOps bOps z = some (l.head?, z') ∧ Gives aValid bValid aItems bItems z' l.tail := by
  obtain ⟨left, right, rfl⟩ := gives
  obtain ⟨a, aCalled, aValid', aLeft⟩ := ha.next left
  obtain ⟨b, bCalled, bValid', bLeft⟩ := hb.next right
  cases aFound : aItems z.a with
  | nil =>
    rw [aFound] at aCalled aLeft
    refine ⟨{ z with a }, by simp [next, aCalled], aValid', right, ?_⟩
    simp [aLeft]
  | cons x xs =>
    rw [aFound] at aCalled aLeft
    cases bFound : bItems z.b with
    | nil =>
      rw [bFound] at bCalled bLeft
      refine ⟨⟨a, b⟩, by simp [next, aCalled, bCalled], aValid', bValid', ?_⟩
      simp [bLeft]
    | cons y ys =>
      rw [bFound] at bCalled bLeft
      refine ⟨⟨a, b⟩, by simp [next, aCalled, bCalled], aValid', bValid', ?_⟩
      simp [aLeft, bLeft]

lemma adjust_gives : ∃ z', adjust aOps bOps z = some z' ∧ Gives aValid bValid aItems bItems z' l ∧
      (aItems z'.a).length = (bItems z'.b).length := by
  obtain ⟨left, right, rfl⟩ := gives
  have pairs_cut : (aItems z.a).zip (bItems z.b) = _ := List.zip_eq_zip_take_min
  rw [adjust, ha.size_eq left, hb.size_eq right]
  by_cases same : (aItems z.a).length = (bItems z.b).length
  · exact ⟨z, by simp [same], ⟨left, right, rfl⟩, same⟩
  · by_cases more : (aItems z.a).length > (bItems z.b).length
    · obtain ⟨a, cut, aValid', aLeft⟩ :=
        ha.backTimes ((aItems z.a).length - (bItems z.b).length) left
      rw [Nat.sub_sub_self (Nat.le_of_lt more)] at aLeft
      rw [Nat.min_eq_right (Nat.le_of_lt more), List.take_length] at pairs_cut
      refine ⟨{ z with a }, by simp [same, more, cut], ⟨aValid', right, ?_⟩, ?_⟩
      · rw [pairs_cut, aLeft]
      · simp [aLeft, Nat.le_of_lt more]
    · have less : (aItems z.a).length ≤ (bItems z.b).length := Nat.le_of_not_lt more
      obtain ⟨b, cut, bValid', bLeft⟩ :=
        hb.backTimes ((bItems z.b).length - (aItems z.a).length) right
      rw [Nat.sub_sub_self less] at bLeft
      rw [Nat.min_eq_left less, List.take_length] at pairs_cut
      refine ⟨{ z with b }, by simp [same, more, cut], ⟨left, bValid', ?_⟩, ?_⟩
      · rw [pairs_cut, bLeft]
      · simp [bLeft, less]

lemma nextBack_gives : ∃ z', nextBack aOps bOps z = some (l.getLast?, z') ∧
      Gives aValid bValid aItems bItems z' l.dropLast := by
  obtain ⟨⟨a, b⟩, adjusted, ⟨left, right, rfl⟩, same⟩ := adjust_gives ha hb gives
  obtain ⟨a', aCalled, aValid', aLeft⟩ := ha.nextBack left
  obtain ⟨b', bCalled, bValid', bLeft⟩ := hb.nextBack right
  rcases List.eq_nil_or_concat (aItems a) with aNone | ⟨xs, x, aLast⟩
  · have bNone : bItems b = [] := by simpa [aNone] using same.symm
    rw [bNone] at bCalled
    refine ⟨⟨a', b'⟩, ?_, aValid', bValid', by simp [aNone, aLeft]⟩
    simp [nextBack, adjusted, aCalled, bCalled, aNone]
  · rcases List.eq_nil_or_concat (bItems b) with bNone | ⟨ys, y, bLast⟩
    · simp [aLast, bNone] at same
    · have lengths : xs.length = ys.length := by simpa [aLast, bLast] using same
      have zipped : (xs ++ [x]).zip (ys ++ [y]) = xs.zip ys ++ [(x, y)] := List.zip_append lengths
      refine ⟨⟨a', b'⟩, ?_, aValid', bValid', ?_⟩
      · simp [nextBack, adjusted, aCalled, bCalled, aLast, bLast, zipped]
      · simp [aLast, bLast, zipped, aLeft, bLeft]

end

/-- The general implementation gives the pairs of what its sources give. -/
lemma step_gives : DoubleEnded.Follows (step aOps bOps) (Gives aValid bValid aItems bItems) := by
  rintro (_ | _ | n | n) z l gives
  · exact next_gives ha hb gives
  · exact nextBack_gives ha hb gives
  · exact DoubleEnded.nthByNext_eq (next aOps bOps) _ (next_gives ha hb) n gives
  · exact DoubleEnded.nthByNext_back (nextBack aOps bOps) _ (nextBack_gives ha hb) n gives

end General

namespace Kind

def window : (k : Kind.{u}) → k.State → List k.Item
  | .slice _ => Slice.items
  | .zip a b => pairs a.window b.window

def items : (k : Kind.{u}) → k.State → List k.Item
  | .slice _ => Slice.items
  | .zip a b => Zip.items a.window b.window

def Valid : (k : Kind.{u}) → k.State → Prop
  | .slice _ => Slice.Valid
  | .zip a b => Zip.Valid a.Valid b.Valid a.window b.window

lemma lawful (k : Kind.{u}) : Lawful k.ops k.Valid k.items k.window := by
  induction k with
  | slice T => exact Slice.lawful
  | zip a b iha ihb => exact Zip.lawful iha ihb

/-- A source repeats itself on its first `n` items if what is read at an index below `n` is what it
gives next from there; a `Zip` does not add its own index to the one it is read at. -/
def Repeats : (k : Kind.{u}) → k.State → Nat → Prop
  | .slice _, _, _ => True
  | .zip a b, z, n => ∀ i, i < n →
      (Zip.getUnchecked a.ops b.ops z i).map Prod.fst =
        (Zip.getUnchecked a.ops b.ops z (z.index + i)).map Prod.fst

lemma take_window_eq_iff (k : Kind.{u}) {s : k.State} (valid : k.Valid s) {n : Nat}
    (le : n ≤ (k.items s).length) : (k.window s).take n = (k.items s).take n ↔ k.Repeats s n := by
  cases k with
  | slice T => exact iff_of_true rfl trivial
  | zip a b => exact take_pairs_eq_iff a.lawful b.lawful valid le

end Kind

lemma advanced_valid {k : Kind.{u}} {s : k.State} (h : Advanced k s) : k.Valid s := by
  induction h with
  | slice l => exact ⟨Nat.zero_le _, Nat.le_refl _⟩
  | @zip j k a b ha hb iha ihb => exact valid_new j.lawful k.lawful iha ihb
  | @next k s s' x before made ih =>
    obtain ⟨s'', called, valid, left⟩ := k.lawful.next ih
    rw [made] at called
    cases called
    exact valid
  | @nextBack k s s' x before made ih =>
    obtain ⟨s'', called, valid, left⟩ := k.lawful.nextBack ih
    rw [made] at called
    cases called
    exact valid

lemma zip_eq_zip_iff {I J : Type u} {xs xs' : List I} {ys ys' : List J}
    (length : xs.length = ys.length) (length' : xs'.length = ys'.length) :
    xs.zip ys = xs'.zip ys' ↔ xs = xs' ∧ ys = ys' := by
  constructor
  · intro same
    have firsts := congrArg (List.map Prod.fst) same
    have seconds := congrArg (List.map Prod.snd) same
    rw [List.map_fst_zip (Nat.le_of_eq length), List.map_fst_zip (Nat.le_of_eq length')] at firsts
    rw [List.map_snd_zip (Nat.le_of_eq length.symm),
      List.map_snd_zip (Nat.le_of_eq length'.symm)] at seconds
    exact ⟨firsts, seconds⟩
  · rintro ⟨rfl, rfl⟩
    rfl

/-- The two implementations answer every run of calls alike if and only if both sources repeat
themselves as far as they are zipped. Slice iterators do, and so do `Zip`s that were not advanced
from the front. -/
theorem zip_agrees_iff {j k : Kind.{u}} {a : j.State} {b : k.State} (ha : Advanced j a)
    (hb : Advanced k b) :
    (∀ calls, DoubleEnded.run (step j.ops k.ops) calls (new j.ops k.ops a b) =
        DoubleEnded.run (General.step j.ops k.ops) calls ⟨a, b⟩) ↔
      j.Repeats a (min (j.ops.size a) (k.ops.size b)) ∧
        k.Repeats b (min (j.ops.size a) (k.ops.size b)) := by
  have left := advanced_valid ha
  have right := advanced_valid hb
  have fresh := valid_new j.lawful k.lawful left right
  have special := fun calls => (step_follows j.lawful k.lawful).run calls ⟨fresh, rfl⟩
  have general := fun calls =>
    (General.step_gives j.lawful k.lawful).run calls (s := ⟨a, b⟩) ⟨left, right, rfl⟩
  have sizes : min (j.ops.size a) (k.ops.size b) = min (j.items a).length (k.items b).length := by
    rw [j.lawful.size_eq left, k.lawful.size_eq right]
  rw [sizes]
  generalize count : min (j.items a).length (k.items b).length = n
  have aLength := j.lawful.length_le left
  have bLength := k.lawful.length_le right
  -- Both lists of pairs are cut where the shorter source ends.
  have window : items j.window k.window (new j.ops k.ops a b) =
      ((j.window a).take n).zip ((k.window b).take n) := by
    rw [items, pairs, new, sizes, count, List.zip, List.take_zipWith]
    rfl
  have given : (j.items a).zip (k.items b) = ((j.items a).take n).zip ((k.items b).take n) := by
    rw [← count]
    exact List.zip_eq_zip_take_min
  have parts : items j.window k.window (new j.ops k.ops a b) = (j.items a).zip (k.items b) ↔
      (j.window a).take n = (j.items a).take n ∧ (k.window b).take n = (k.items b).take n := by
    rw [window, given]
    apply zip_eq_zip_iff <;> simp only [List.length_take] <;> omega
  rw [← j.take_window_eq_iff left (by omega), ← k.take_window_eq_iff right (by omega), ← parts]
  simp only [special, general, Option.some.injEq]
  constructor
  · exact DoubleEnded.replies_injective
  · intro same calls
    rw [same]

/-- The slices `[1, 2, 3]` and `[4, 5, 6]`, zipped. -/
def counted : Zip (Slice Nat) (Slice Nat) :=
  new Slice.ops Slice.ops (Slice.iter [1, 2, 3]) (Slice.iter [4, 5, 6])

def countedOps : Ops (Zip (Slice Nat) (Slice Nat)) (Nat × Nat) := ops Slice.ops Slice.ops

theorem zip_agrees_iff_fresh :
    DoubleEnded.run (step countedOps Slice.ops) [.nextBack, .nth 1, .next]
        (new countedOps Slice.ops counted (Slice.iter [7, 8])) =
      DoubleEnded.run (General.step countedOps Slice.ops) [.nextBack, .nth 1, .next]
        ⟨counted, Slice.iter [7, 8]⟩ := by
  have made : Advanced (.zip (.slice Nat) (.slice Nat)) counted := .zip (.slice _) (.slice _)
  have unmoved : (Kind.zip (.slice Nat) (.slice Nat)).Repeats counted 2 := fun i _ =>
    congrArg (fun n => (getUnchecked Slice.ops Slice.ops counted n).map Prod.fst)
      (zero_add i).symm
  exact (zip_agrees_iff made (Advanced.slice [7, 8])).mpr ⟨unmoved, trivial⟩ _

/-- Once the inner `Zip` has given its first pair, the outer one starts over from that pair. -/
theorem zip_advanced_starts_over :
    Advanced (.zip (.slice Nat) (.slice Nat)) { counted with index := 1 } ∧
      DoubleEnded.run (step countedOps Slice.ops) [.next]
          (new countedOps Slice.ops { counted with index := 1 } (Slice.iter [7, 8])) =
        some [some ((1, 4), 7)] ∧
      DoubleEnded.run (General.step countedOps Slice.ops) [.next]
          ⟨{ counted with index := 1 }, Slice.iter [7, 8]⟩ =
        some [some ((2, 5), 7)] := by
  have made : Advanced (.zip (.slice Nat) (.slice Nat)) counted := .zip (.slice _) (.slice _)
  have called : countedOps.next counted = some (some (1, 4), { counted with index := 1 }) := rfl
  exact ⟨made.next called, rfl, rfl⟩

end Zip
