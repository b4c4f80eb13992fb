import Mathlib

/-!
# Alternating sequences

A nonempty sequence of items with a separator between any two neighbours, such as the children and
the keys of a node in a search tree. Sequences are joined at a separator, which is associative, and
taken apart at a separator or at an item. `bind` replaces each item by a sequence.
-/

structure Alternation (C E : Type) where
  head : C
  tail : List (E × C)

namespace Alternation

open List

variable {C D E : Type}

def len (a : Alternation C E) : Nat := a.tail.length

def seps (a : Alternation C E) : List E := a.tail.map Prod.fst

def items (a : Alternation C E) : List C := a.head :: a.tail.map Prod.snd

/-- More separators and items at the end. -/
def extend (a : Alternation C E) (right : List (E × C)) : Alternation C E :=
  ⟨a.head, a.tail ++ right⟩

/-- More items and separators at the front. -/
def lead : List (C × E) → Alternation C E → Alternation C E
  | [], a => a
  | (c, e) :: left, a => ⟨c, (e, (lead left a).head) :: (lead left a).tail⟩

/-- The sequence with a separator before it. -/
def after (e : E) (a : Alternation C E) : List (E × C) := (e, a.head) :: a.tail

/-- The sequence with a separator behind it. -/
def before (a : Alternation C E) (e : E) : List (C × E) := go a.head a.tail
where
  go (c : C) : List (E × C) → List (C × E)
    | [] => [(c, e)]
    | (e', d) :: tail => (c, e') :: go d tail

def join (a : Alternation C E) (e : E) (b : Alternation C E) : Alternation C E :=
  a.extend (b.after e)

/-- Replaces each item by a sequence. -/
def bind (a : Alternation C E) (f : C → Alternation D E) : Alternation D E := go a.head a.tail
where
  go (c : C) : List (E × C) → Alternation D E
    | [] => f c
    | (e, d) :: tail => (f c).join e (go d tail)

def last (a : Alternation C E) : C := go a.head a.tail
where
  go (c : C) : List (E × C) → C
    | [] => c
    | (_, d) :: tail => go d tail

/-- Replaces each item by a list. -/
def weave (f : C → List E) (a : Alternation C E) : List E :=
  f a.head ++ a.tail.flatMap (fun x => x.1 :: f x.2)

/-- Replaces the items by the values of `f` at consecutive numbers. -/
def enumerate (f : Nat → D) (start : Nat) (a : Alternation C E) : Alternation D E :=
  ⟨f start, go (start + 1) a.tail⟩
where
  go (start : Nat) : List (E × C) → List (E × D)
    | [] => []
    | (e, _) :: tail => (e, f start) :: go (start + 1) tail

section
variable (a b c : Alternation C E) (left left' : List (C × E)) (right right' : List (E × C)) (e : E)

@[simp]
lemma seps_mk (item : C) : seps ⟨item, right⟩ = right.map Prod.fst := rfl

@[simp]
lemma items_mk (item : C) : items ⟨item, right⟩ = item :: right.map Prod.snd := rfl

@[simp]
lemma len_mk (item : C) : len ⟨item, right⟩ = right.length := rfl

lemma length_seps : a.seps.length = a.len := length_map _

lemma length_items : a.items.length = a.len + 1 := by simp [items, len]

@[simp]
lemma seps_extend : (a.extend right).seps = a.seps ++ right.map Prod.fst := by
  simp [seps, extend]

@[simp]
lemma items_extend : (a.extend right).items = a.items ++ right.map Prod.snd := by
  simp [items, extend]

@[simp]
lemma extend_nil : a.extend [] = a := by simp [extend]

@[simp]
lemma extend_extend : (a.extend right).extend right' = a.extend (right ++ right') := by
  simp [extend]

@[simp]
lemma lead_nil : lead [] a = a := rfl

@[simp]
lemma seps_lead : (lead left a).seps = left.map Prod.snd ++ a.seps := by
  induction left with
  | nil => rfl
  | cons x left ih => exact congrArg (x.2 :: ·) ih

@[simp]
lemma items_lead : (lead left a).items = left.map Prod.fst ++ a.items := by
  induction left with
  | nil => rfl
  | cons x left ih => exact congrArg (x.1 :: ·) ih

@[simp]
lemma len_lead : (lead left a).len = left.length + a.len := by
  rw [← length_seps, seps_lead, length_append, length_map, length_seps]

@[simp]
lemma lead_lead : lead left (lead left' a) = lead (left ++ left') a := by
  induction left with
  | nil => rfl
  | cons x left ih => simp [lead, ih]

@[simp]
lemma extend_lead : (lead left a).extend right = lead left (a.extend right) := by
  induction left with
  | nil => rfl
  | cons x left ih => exact congrArg (fun a => (⟨x.1, a.after x.2⟩ : Alternation C E)) ih

@[simp]
lemma seps_join : (a.join e b).seps = a.seps ++ e :: b.seps := by simp [join, after, seps, extend]

@[simp]
lemma items_join : (a.join e b).items = a.items ++ b.items := by
  simp [join, after, items, extend]

@[simp]
lemma extend_join : (a.join e b).extend right = a.join e (b.extend right) := by
  simp [join, after, extend]

@[simp]
lemma lead_join : (lead left a).join e b = lead left (a.join e b) := extend_lead _ _ _

lemma join_assoc (e' : E) : (a.join e b).join e' c = a.join e (b.join e' c) := extend_join _ _ _ _

@[simp]
lemma last_lead : (lead left a).last = a.last := by
  induction left with
  | nil => rfl
  | cons x left ih => exact ih

lemma lead_before : lead (a.before e) b = a.join e b := by
  obtain ⟨head, tail⟩ := a
  unfold before
  induction tail generalizing head with
  | nil => rfl
  | cons x tail ih =>
    simp only [before.go, lead, ih]
    rfl

@[simp]
lemma map_snd_before : (a.before e).map Prod.snd = a.seps ++ [e] := by
  obtain ⟨head, tail⟩ := a
  induction tail generalizing head with
  | nil => rfl
  | cons x tail ih => exact congrArg (x.1 :: ·) (ih x.2)

@[simp]
lemma map_fst_before : (a.before e).map Prod.fst = a.items := by
  obtain ⟨head, tail⟩ := a
  induction tail generalizing head with
  | nil => rfl
  | cons x tail ih => exact congrArg (head :: ·) (ih x.2)

end

/-- Every index up to the number of separators is the index of an item. -/
lemma exists_lead (a : Alternation C E) (i : Nat) (bound : i ≤ a.len) :
    ∃ left item right, a = lead left ⟨item, right⟩ ∧ left.length = i := by
  obtain ⟨head, tail⟩ := a
  induction i generalizing head tail with
  | zero => exact ⟨[], head, tail, rfl, rfl⟩
  | succ i ih =>
    cases tail with
    | nil => exact absurd bound (Nat.not_succ_le_zero i)
    | cons x tail =>
      obtain ⟨left, item, right, same, length⟩ := ih x.2 tail (Nat.le_of_succ_le_succ bound)
      refine ⟨(head, x.1) :: left, item, right, ?_, congrArg (· + 1) length⟩
      simp [lead, ← same]

lemma getElem?_items {a : Alternation C E} {i : Nat} {item : C} :
    a.items[i]? = some item ↔ ∃ left right, a = lead left ⟨item, right⟩ ∧ left.length = i := by
  constructor
  · intro found
    have bound : i < a.items.length := (List.getElem?_eq_some_iff.mp found).1
    rw [length_items] at bound
    obtain ⟨left, item', right, rfl, length⟩ := a.exists_lead i (by omega)
    rw [items_lead, getElem?_append_right (by simp [length]), length_map, length,
      Nat.sub_self] at found
    obtain rfl : item' = item := Option.some.inj found
    exact ⟨left, right, rfl, length⟩
  · rintro ⟨left, right, rfl, rfl⟩
    rw [items_lead, getElem?_append_right (by simp), length_map, Nat.sub_self]
    rfl

lemma exists_last (a : Alternation C E) :
    ∃ left, a = lead left ⟨a.last, []⟩ ∧ left.length = a.len := by
  obtain ⟨left, item, right, same, length⟩ := a.exists_lead a.len (le_refl _)
  have none : right.length = 0 := by
    have total : a.len = left.length + right.length := by rw [same, len_lead]; rfl
    omega
  rw [length_eq_zero_iff] at none
  subst none
  have ends : a.last = item := by
    rw [same, last_lead]
    rfl
  exact ⟨left, by rw [ends, ← same], length⟩

lemma exists_snoc (a : Alternation C E) : ∃ left item, a = lead left ⟨item, []⟩ :=
  let ⟨left, same, _⟩ := a.exists_last
  ⟨left, a.last, same⟩

lemma lead_inj {left left' : List (C × E)} {a b : Alternation C E}
    (length : left.length = left'.length) (same : lead left a = lead left' b) :
    left = left' ∧ a = b := by
  induction left generalizing left' with
  | nil =>
    rw [length_nil, eq_comm, length_eq_zero_iff] at length
    subst length
    exact ⟨rfl, same⟩
  | cons x left ih =>
    cases left' with
    | nil => exact absurd length (by simp)
    | cons y left' =>
      simp only [lead, mk.injEq, List.cons.injEq, Prod.mk.injEq] at same
      obtain ⟨items, ⟨seps, heads⟩, tails⟩ := same
      have inner : lead left a = lead left' b := by
        cases hl : lead left a
        simp_all
      obtain ⟨rfl, rfl⟩ := ih (by simpa using length) inner
      exact ⟨by rw [Prod.ext items seps], rfl⟩

/-- An item of a joined sequence is in the first part or in the second. -/
lemma join_eq_lead {a b : Alternation C E} {e : E} {left : List (C × E)} {item : C}
    {right : List (E × C)} (same : a.join e b = lead left ⟨item, right⟩) :
    (∃ right', a = lead left ⟨item, right'⟩ ∧ right = right' ++ b.after e) ∨
      ∃ left', b = lead left' ⟨item, right⟩ ∧ left = a.before e ++ left' := by
  rcases lt_or_ge a.len left.length with far | near
  · right
    have length : (a.before e).length = a.len + 1 := by
      rw [← length_map Prod.snd, map_snd_before, length_append, length_seps]
      rfl
    have cut := take_append_drop (a.len + 1) left
    rw [← lead_before, ← cut, ← lead_lead] at same
    have short : (a.before e).length = (left.take (a.len + 1)).length := by
      rw [length_take]
      omega
    obtain ⟨front, back⟩ := lead_inj short same
    exact ⟨left.drop (a.len + 1), back, by rw [front, cut]⟩
  · left
    obtain ⟨left', item', right', rfl, length⟩ := a.exists_lead left.length near
    rw [lead_join] at same
    obtain ⟨rfl, inner⟩ := lead_inj length same
    obtain ⟨rfl, rfl⟩ := mk.inj inner
    exact ⟨right', rfl, rfl⟩

section
variable (f : C → Alternation D E) (a b : Alternation C E) (e : E)

/-- What the items before an item become. -/
def leads (left : List (C × E)) : List (D × E) := left.flatMap (fun x => (f x.1).before x.2)

/-- What the items behind an item become. -/
def afters (right : List (E × C)) : List (E × D) := right.flatMap (fun x => (f x.2).after x.1)

@[simp]
lemma bind_single (c : C) : bind ⟨c, ([] : List (E × C))⟩ f = f c := rfl

@[simp]
lemma bind_join : (a.join e b).bind f = (a.bind f).join e (b.bind f) := by
  obtain ⟨head, tail⟩ := a
  induction tail generalizing head with
  | nil => rfl
  | cons x tail ih =>
    exact (congrArg ((f head).join x.1) (ih x.2)).trans (join_assoc _ _ _ _ _).symm

lemma head_bind : (a.bind f).head = (f a.head).head := by
  obtain ⟨head, tail⟩ := a
  cases tail with
  | nil => rfl
  | cons x tail => rfl

lemma bind_extend (right : List (E × C)) :
    (a.extend right).bind f = (a.bind f).extend (afters f right) := by
  induction right generalizing a with
  | nil => simp [afters]
  | cons x right ih =>
    have split : a.extend (x :: right) = (a.join x.1 ⟨x.2, []⟩).extend right := by
      simp [join, after, extend]
    rw [split, ih, bind_join, join, extend_extend]
    rfl

lemma bind_lead (left : List (C × E)) : (lead left a).bind f = lead (leads f left) (a.bind f) := by
  induction left with
  | nil => rfl
  | cons x left ih =>
    have split : lead (x :: left) a = join ⟨x.1, []⟩ x.2 (lead left a) := rfl
    rw [split, bind_join, ih, ← lead_before, lead_lead]
    rfl

lemma last_bind : (a.bind f).last = (f a.last).last := by
  obtain ⟨left, same, -⟩ := a.exists_last
  rw [same, bind_lead, last_lead, last_lead]
  rfl

/-- The sequence of an item in the middle, with what the other items become around it. -/
lemma bind_focus (left : List (C × E)) (c : C) (right : List (E × C)) :
    (lead left ⟨c, right⟩).bind f = lead (leads f left) ((f c).extend (afters f right)) := by
  rw [bind_lead]
  exact congrArg _ (bind_extend f ⟨c, []⟩ right)

/-- An item of the result comes from one item. -/
lemma bind_eq_lead {left : List (D × E)} {d : D} {right : List (E × D)}
    (same : a.bind f = lead left ⟨d, right⟩) :
    ∃ left₀ c right₀ left₁ right₁, a = lead left₀ ⟨c, right₀⟩ ∧ f c = lead left₁ ⟨d, right₁⟩ ∧
      left = leads f left₀ ++ left₁ ∧ right = right₁ ++ afters f right₀ := by
  obtain ⟨head, tail⟩ := a
  induction tail generalizing head left with
  | nil => exact ⟨[], head, [], left, right, rfl, same, rfl, (append_nil _).symm⟩
  | cons x tail ih =>
    have split : bind ⟨head, x :: tail⟩ f = (f head).join x.1 (bind ⟨x.2, tail⟩ f) := rfl
    rw [split] at same
    rcases join_eq_lead same with ⟨right', inFront, rfl⟩ | ⟨left', behind, rfl⟩
    · refine ⟨[], head, x :: tail, left, right', rfl, inFront, rfl, ?_⟩
      have rest : bind ⟨x.2, tail⟩ f = (f x.2).extend (afters f tail) :=
        bind_extend f ⟨x.2, []⟩ tail
      rw [rest]
      rfl
    · obtain ⟨left₀, c, right₀, left₁, right₁, hsplit, hitem, rfl, rfl⟩ := ih x.2 behind
      refine ⟨(head, x.1) :: left₀, c, right₀, left₁, right₁, ?_, hitem, ?_, rfl⟩
      · simp [lead, ← hsplit]
      · simp [leads]

end

section
variable (f : C → List E) (a b : Alternation C E) (e : E)

@[simp]
lemma weave_extend (right : List (E × C)) :
    (a.extend right).weave f = a.weave f ++ right.flatMap (fun x => x.1 :: f x.2) := by
  simp [weave, extend]

@[simp]
lemma weave_join : (a.join e b).weave f = a.weave f ++ e :: b.weave f := by
  simp [join, after, extend, weave]

@[simp]
lemma weave_lead (left : List (C × E)) :
    (lead left a).weave f = left.flatMap (fun x => f x.1 ++ [x.2]) ++ a.weave f := by
  induction left with
  | nil => rfl
  | cons x left ih =>
    have split : lead (x :: left) a = join ⟨x.1, []⟩ x.2 (lead left a) := rfl
    rw [split, weave_join, ih]
    simp [weave]

lemma seps_bind (g : C → Alternation D E) : (a.bind g).seps = a.weave (fun c => (g c).seps) := by
  obtain ⟨head, tail⟩ := a
  induction tail generalizing head with
  | nil => simp [weave]
  | cons x tail ih =>
    have split : (⟨head, x :: tail⟩ : Alternation C E) = join ⟨head, []⟩ x.1 ⟨x.2, tail⟩ := rfl
    rw [split, bind_join, seps_join, ih, weave_join]
    simp [weave]

end

section
variable (f : Nat → D) (start : Nat) (a : Alternation C E)

@[simp]
lemma seps_enumerate : (a.enumerate f start).seps = a.seps := by
  obtain ⟨head, tail⟩ := a
  induction tail generalizing start with
  | nil => rfl
  | cons x tail ih => exact congrArg (x.1 :: ·) (ih (start + 1))

@[simp]
lemma len_enumerate : (a.enumerate f start).len = a.len := by
  rw [← length_seps, seps_enumerate, length_seps]

lemma items_enumerate : (a.enumerate f start).items = (range' start (a.len + 1)).map f := by
  obtain ⟨head, tail⟩ := a
  induction tail generalizing start with
  | nil => rfl
  | cons x tail ih => exact congrArg (f start :: ·) (ih (start + 1))

lemma enumerate_eq_lead {left : List (D × E)} {d : D} {right : List (E × D)}
    (same : a.enumerate f start = lead left ⟨d, right⟩) : d = f (start + left.length) := by
  have items := congrArg (·.items[left.length]?) same
  simp only [items_enumerate, items_lead, items_mk] at items
  have bound := congrArg len same
  simp only [len_enumerate, len_lead, len_mk] at bound
  simpa [show left.length < a.len + 1 by omega, eq_comm] using items

end

/-- Items of which there is only one are determined by the separators. -/
lemma ext_seps [Subsingleton C] {a b : Alternation C E} (same : a.seps = b.seps) : a = b := by
  obtain ⟨head, tail⟩ := a
  obtain ⟨head', tail'⟩ := b
  obtain rfl := Subsingleton.elim head head'
  have inj : Function.Injective (Prod.fst : E × C → E) := by
    rintro ⟨e, c⟩ ⟨e', c'⟩ h
    exact Prod.ext h (Subsingleton.elim c c')
  exact congrArg _ (map_injective_iff.mpr inj same)

end Alternation
