import BpfSysroot.BTreeSet

/-!
# What the operations on two `BTreeSet`s give

Each state of an iterator is related to the list of what it has still to give. The ways in which
an iterator can be made all start it at a list with the elements of the mathematical result.
-/

namespace BTreeSet

open AscendingLists Enumeration
open Std.OrientedCmp (gt_iff_lt)
open Std.TransCmp (isLE_trans lt_of_isLE_of_lt lt_of_lt_of_isLE)

variable {T : Type} {cmp : T → T → Ordering}

lemma contains_iff (s : BTreeSet cmp) (x : T) : s.contains x ↔ Has cmp s.elems x := by
  simp [contains, Has]

lemma contains_eq (s : BTreeSet cmp) : s.contains = fun x => decide (Has cmp s.elems x) := by
  funext x
  rw [← Bool.coe_iff_coe, contains_iff, decide_eq_true_iff]

/-- The bounds enclose the number of elements still to come. -/
def Encloses (hint : Nat × Option Nat) (n : Nat) : Prop :=
  hint.1 ≤ n ∧ ∀ upper, hint.2 = some upper → n ≤ upper

/-- An iterator over some elements of two sets, and its hints at every point. -/
def Yields {σ : Type} (a b : BTreeSet cmp) (next : σ → Option T × σ)
    (sizeHint : σ → Nat × Option Nat) (s : σ) (member : T → Prop) : Prop :=
  ∃ xs, Enumerates next s xs ∧ Ascending cmp xs ∧ (∀ x, Has cmp xs x ↔ member x) ∧
    (∀ x ∈ xs, x ∈ a.elems ∨ x ∈ b.elems) ∧
    ∀ n, Encloses (sizeHint (after next s n)) (xs.length - n)

lemma searchLoop_eq (keep : T → Bool) (xs : List T) :
    (searchLoop keep xs).1 = (xs.filter keep).head? ∧ (searchLoop keep xs).2 <:+ xs ∧
      (searchLoop keep xs).2.filter keep = (xs.filter keep).tail := by
  induction xs with
  | nil => exact ⟨rfl, List.suffix_refl _, rfl⟩
  | cons x xs ih =>
    rw [searchLoop]
    by_cases kept : keep x
    · simp [kept]
    · obtain ⟨first, suffix, rest⟩ := ih
      simp only [kept, Bool.false_eq_true, if_false, not_false_eq_true, List.filter_cons_of_neg]
      exact ⟨first, suffix.trans (List.suffix_cons x xs), rest⟩

section
variable [Std.TransCmp cmp]

def Difference.Left : Difference cmp → List T → Prop
  | .stitch selfIter otherIter, xs =>
    Ascending cmp selfIter ∧ Ascending cmp otherIter ∧ xs = minus cmp selfIter otherIter
  | .search selfIter otherSet, xs => Ascending cmp selfIter ∧ xs = minus cmp selfIter otherSet.elems
  | .iterate iter, xs => xs = iter

lemma ne_eq_of_gt {x o : T} {xs : List T} (ascending : Ascending cmp (x :: xs))
    (order : cmp x o = .gt) : ∀ z ∈ x :: xs, cmp z o ≠ .eq := by
  intro z mem
  rcases List.mem_cons.mp mem with rfl | mem
  · rw [order]
    decide
  · rw [ascending.above (by rw [order]; decide) mem]
    decide

lemma differenceLoop_spec {other : List T} (hother : Ascending cmp other) {x : T} {self : List T}
    (hself : Ascending cmp (x :: self)) :
    (differenceLoop cmp x self other).1 = (minus cmp (x :: self) other).head? ∧
      (.stitch (differenceLoop cmp x self other).2.1 (differenceLoop cmp x self other).2.2 :
        Difference cmp).Left (minus cmp (x :: self) other).tail := by
  induction other generalizing x self with
  | nil =>
    have all (ys : List T) : minus cmp ys [] = ys := by
      simp [minus]
    rw [all]
    exact ⟨rfl, hself.tail, hother, (all self).symm⟩
  | cons o other ih =>
    have rest := hself.tail
    cases order : cmp x o with
    | lt =>
      have kept : minus cmp (x :: self) (o :: other) = x :: minus cmp self (o :: other) :=
        List.filter_cons_of_pos (decide_eq_true (hother.not_has order))
      rw [kept]
      simp only [differenceLoop, order]
      exact ⟨rfl, rest, hother, rfl⟩
    | eq =>
      have gone : minus cmp (x :: self) (o :: other) = minus cmp self other := by
        have skip : minus cmp (x :: self) (o :: other) = minus cmp self (o :: other) :=
          List.filter_cons_of_neg (by simp [order])
        rw [skip]
        refine minus_skip fun z mem => ?_
        rw [hself.above (by rw [order]; decide) mem]
        decide
      rw [gone]
      cases self with
      | nil =>
        simp only [differenceLoop, order]
        exact ⟨rfl, rest, hother, rfl⟩
      | cons x' self =>
        simp only [differenceLoop, order]
        exact ih hother.tail rest
    | gt =>
      rw [minus_skip (ne_eq_of_gt hself order)]
      simp only [differenceLoop, order]
      exact ih hother.tail hself

lemma Difference.follows : Follows next (Left : Difference cmp → List T → Prop) := by
  intro s xs left
  cases s with
  | stitch self other =>
    obtain ⟨hself, hother, rfl⟩ := left
    cases self with
    | nil => exact ⟨rfl, hself, hother, rfl⟩
    | cons x self => exact differenceLoop_spec hother hself
  | search self set =>
    obtain ⟨hself, rfl⟩ := left
    have keeps : (fun x => !set.contains x) = fun x => decide (¬ Has cmp set.elems x) := by
      funext x
      rw [contains_eq, decide_not]
    obtain ⟨first, suffix, rest⟩ := searchLoop_eq (fun x => !set.contains x) self
    simp only [Difference.next]
    rw [keeps] at first suffix rest ⊢
    exact ⟨first, hself.sublist suffix.sublist, rest.symm⟩
  | iterate iter =>
    obtain rfl : xs = iter := left
    exact ⟨rfl, rfl⟩

lemma Difference.encloses {s : Difference cmp} {xs : List T} (left : s.Left xs) :
    Encloses s.sizeHint xs.length := by
  have bounds {self other : List T} (hself : Ascending cmp self) :
      Encloses (self.length - other.length, some self.length) (minus cmp self other).length := by
    have whole := length_minus_add_inter cmp self other
    have few := hself.length_inter_le other
    constructor
    · omega
    · rintro _ ⟨⟩
      omega
  cases s with
  | stitch self other =>
    obtain ⟨hself, hother, rfl⟩ := left
    exact bounds hself
  | search self set =>
    obtain ⟨hself, rfl⟩ := left
    exact bounds hself
  | iterate iter =>
    obtain rfl : xs = iter := left
    exact ⟨le_refl _, fun _ same => Option.some.inj same ▸ le_refl _⟩

end

section

lemma first_last (s : BTreeSet cmp) : s.elems = [] ∧ s.first = none ∨
    ∃ least greatest, s.first = some least ∧ s.last = some greatest := by
  cases elems : s.elems with
  | nil =>
    rw [first, elems]
    exact .inl ⟨rfl, rfl⟩
  | cons x xs =>
    refine .inr ⟨x, (x :: xs).getLast nofun, ?_, ?_⟩
    · rw [first, elems]
      rfl
    · rw [last, elems, List.getLast?_eq_some_getLast]

variable {xs ys : List T} {x y z w : T}

lemma minus_of_not_has (apart : ∀ x ∈ xs, ¬ Has cmp ys x) : minus cmp xs ys = xs :=
  List.filter_eq_self.mpr fun x mem => decide_eq_true (apart x mem)

lemma inter_of_not_has (apart : ∀ x ∈ xs, ¬ Has cmp ys x) : inter cmp xs ys = [] :=
  List.filter_eq_nil_iff.mpr fun x mem => by simp [apart x mem]

variable [Std.TransCmp cmp]

/-- The first list starts where the second ends, or later. -/
lemma gt_of_extremes (hx : Ascending cmp (x :: xs)) (hy : Ascending cmp ys)
    (last : ys.getLast? = some y) (order : cmp x y ≠ .lt) (hz : z ∈ xs) (hw : w ∈ ys) :
    cmp z w = .gt :=
  gt_iff_lt.mpr (lt_of_isLE_of_lt (hy.isLE_last last hw)
    (gt_iff_lt.mp (hx.above order hz)))

/-- The first list ends where the second starts, or before. -/
lemma lt_of_extremes (hx : Ascending cmp (xs ++ [x])) (hy : Ascending cmp ys)
    (first : ys.head? = some y) (order : (cmp x y).isLE) (hz : z ∈ xs) (hw : w ∈ ys) :
    cmp z w = .lt :=
  lt_of_lt_of_isLE
    ((List.pairwise_append.mp hx).2.2 z hz x (List.mem_singleton_self x))
    (isLE_trans order (hy.first_isLE first hw))

/-- What the order of the extremes says of the sets. -/
lemma apart_or_touching (a b : BTreeSet cmp) {selfMin selfMax otherMin otherMax : T}
    (first : a.first = some selfMin) (last : a.last = some selfMax)
    (first' : b.first = some otherMin) (last' : b.last = some otherMax) :
    ((cmp selfMin otherMax = .gt ∨ cmp selfMax otherMin = .lt) →
      ∀ x ∈ a.elems, ¬ Has cmp b.elems x) ∧
    (cmp selfMin otherMax = .eq → ∃ rest, a.elems = selfMin :: rest ∧ Has cmp b.elems selfMin ∧
      ∀ x ∈ rest, ¬ Has cmp b.elems x) ∧
    (cmp selfMax otherMin = .eq → ∃ rest, a.elems = rest ++ [selfMax] ∧ Has cmp b.elems selfMax ∧
      ∀ x ∈ rest, ¬ Has cmp b.elems x) := by
  have ha := a.ascending
  have hb := b.ascending
  obtain ⟨later, starts⟩ := List.head?_eq_some_iff.mp first
  obtain ⟨sooner, ends⟩ := List.getLast?_eq_some_iff.mp last
  refine ⟨?_, ?_, ?_⟩
  · rintro (order | order) x hx
    · refine not_has fun y hy => ?_
      have below := lt_of_isLE_of_lt (hb.isLE_last last' hy)
        (gt_iff_lt.mp order)
      rw [gt_iff_lt.mpr
        (lt_of_lt_of_isLE below (ha.first_isLE first hx))]
      decide
    · refine not_has fun y hy => ?_
      have below := lt_of_isLE_of_lt (ha.isLE_last last hx) order
      rw [lt_of_lt_of_isLE below (hb.first_isLE first' hy)]
      decide
  · intro same
    refine ⟨later, starts, ⟨otherMax, List.mem_of_getLast? last', same⟩, fun x hx => ?_⟩
    refine not_has fun y hy => ?_
    rw [gt_of_extremes (starts ▸ ha) hb last' (by rw [same]; decide) hx hy]
    decide
  · intro same
    refine ⟨sooner, ends, ⟨otherMin, List.mem_of_head? first', same⟩, fun x hx => ?_⟩
    refine not_has fun y hy => ?_
    rw [lt_of_extremes (ends ▸ ha) hb first' (by rw [same]; rfl) hx hy]
    decide

lemma left_difference (a b : BTreeSet cmp) : (a.difference b).Left (minus cmp a.elems b.elems) := by
  rcases first_last a with ⟨empty, -⟩ | ⟨selfMin, selfMax, first, last⟩
  · simp [difference, BTreeSet.first, empty, Difference.Left, minus, iter]
  rcases first_last b with ⟨empty, none⟩ | ⟨otherMin, otherMax, first', last'⟩
  · rw [difference, first, last, none, empty]
    exact minus_of_not_has fun _ _ => has_nil
  obtain ⟨apart, front, back⟩ := apart_or_touching a b first last first' last'
  rw [difference, first, last, first', last']
  dsimp only
  split
  next order =>
    exact minus_of_not_has (apart (.inl order))
  next order _ =>
    exact minus_of_not_has (apart (.inr order))
  next order _ =>
    obtain ⟨rest, elems, has, others⟩ := front order
    change minus cmp a.elems b.elems = a.elems.tail
    rw [elems, minus, List.filter_cons_of_neg (by simp [has])]
    exact minus_of_not_has others
  next order _ _ =>
    obtain ⟨rest, elems, has, others⟩ := back order
    change minus cmp a.elems b.elems = a.elems.dropLast
    rw [elems, List.dropLast_concat, minus, List.filter_append,
      List.filter_cons_of_neg (by simp [has]), List.filter_nil, List.append_nil]
    exact minus_of_not_has others
  · split
    · exact ⟨a.ascending, rfl⟩
    · exact ⟨a.ascending, b.ascending, rfl⟩

end

section
variable [Std.TransCmp cmp] {a b : List T} {x y : T}

def Intersection.Left : Intersection cmp → List T → Prop
  | .stitch a b, xs => Ascending cmp a ∧ Ascending cmp b ∧ xs = inter cmp a b
  | .search smallIter largeSet, xs =>
    Ascending cmp smallIter ∧ xs = inter cmp smallIter largeSet.elems
  | .answer held, xs => xs = held.toList

lemma inter_of_lt (hb : Ascending cmp (y :: b))
    (order : cmp x y = .lt) : inter cmp (x :: a) (y :: b) = inter cmp a (y :: b) :=
  List.filter_cons_of_neg (by simpa using hb.not_has order)

lemma inter_of_gt (ha : Ascending cmp (x :: a))
    (order : cmp x y = .gt) : inter cmp (x :: a) (y :: b) = inter cmp (x :: a) b :=
  inter_skip (ne_eq_of_gt ha order)

lemma inter_of_eq (ha : Ascending cmp (x :: a))
    (order : cmp x y = .eq) : inter cmp (x :: a) (y :: b) = x :: inter cmp a b := by
  rw [inter, List.filter_cons_of_pos (by simp [order])]
  congr 1
  refine inter_skip fun z mem => ?_
  rw [ha.above (by rw [order]; decide) mem]
  decide

lemma intersectionLoop_spec (ha : Ascending cmp (x :: a)) (hb : Ascending cmp (y :: b)) :
    (intersectionLoop cmp x y a b).1 = (inter cmp (x :: a) (y :: b)).head? ∧
      (.stitch (intersectionLoop cmp x y a b).2.1 (intersectionLoop cmp x y a b).2.2 :
        Intersection cmp).Left (inter cmp (x :: a) (y :: b)).tail := by
  fun_induction intersectionLoop cmp x y a b with
  | case1 x y b order =>
    rw [inter_of_lt hb order]
    exact ⟨rfl, ha.tail, hb.tail, rfl⟩
  | case2 x y b order x' a ih =>
    rw [inter_of_lt hb order]
    exact ih ha.tail hb
  | case3 x y a order =>
    have none (xs : List T) : inter cmp xs [] = [] := by
      simp [inter]
    rw [inter_of_gt ha order, none]
    exact ⟨rfl, ha.tail, hb.tail, (none a).symm⟩
  | case4 x y a order y' b ih =>
    rw [inter_of_gt ha order]
    exact ih ha hb.tail
  | case5 x y a b order =>
    rw [inter_of_eq ha order]
    exact ⟨rfl, ha.tail, hb.tail, rfl⟩

lemma Intersection.follows : Follows next (Left : Intersection cmp → List T → Prop) := by
  intro s xs left
  cases s with
  | stitch a b =>
    obtain ⟨ha, hb, rfl⟩ := left
    cases a with
    | nil => exact ⟨rfl, ha, hb, rfl⟩
    | cons x a =>
      cases b with
      | nil =>
        have none (xs : List T) : inter cmp xs [] = [] := by
          simp [inter]
        rw [none]
        exact ⟨rfl, ha.tail, hb, (none a).symm⟩
      | cons y b => exact intersectionLoop_spec ha hb
  | search small large =>
    obtain ⟨hsmall, rfl⟩ := left
    obtain ⟨first, suffix, rest⟩ := searchLoop_eq large.contains small
    simp only [Intersection.next]
    rw [contains_eq] at first suffix rest ⊢
    exact ⟨first, hsmall.sublist suffix.sublist, rest.symm⟩
  | answer held =>
    obtain rfl : xs = held.toList := left
    cases held <;> exact ⟨rfl, rfl⟩

lemma Intersection.encloses {s : Intersection cmp} {xs : List T} (left : s.Left xs) :
    Encloses s.sizeHint xs.length := by
  cases s with
  | stitch a b =>
    obtain ⟨ha, hb, rfl⟩ := left
    refine ⟨Nat.zero_le _, ?_⟩
    rintro _ ⟨⟩
    exact Nat.le_min.mpr ⟨List.length_filter_le .., ha.length_inter_le b⟩
  | search small large =>
    obtain ⟨hsmall, rfl⟩ := left
    refine ⟨Nat.zero_le _, ?_⟩
    rintro _ ⟨⟩
    exact List.length_filter_le ..
  | answer held =>
    obtain rfl : xs = held.toList := left
    cases held with
    | none => exact ⟨le_refl _, fun _ same => Option.some.inj same ▸ le_refl _⟩
    | some => exact ⟨le_refl _, fun _ same => Option.some.inj same ▸ le_refl _⟩

/-- The intersection is started with the elements that one of the sets has in common with the
other. -/
lemma left_intersection (a b : BTreeSet cmp) :
    (a.intersection b).Left (inter cmp a.elems b.elems) ∨
      (a.intersection b).Left (inter cmp b.elems a.elems) := by
  rcases first_last a with ⟨empty, -⟩ | ⟨selfMin, selfMax, first, last⟩
  · simp [intersection, BTreeSet.first, empty, Intersection.Left, inter]
  rcases first_last b with ⟨empty, none⟩ | ⟨otherMin, otherMax, first', last'⟩
  · left
    rw [intersection, first, last, none, empty]
    exact inter_of_not_has fun _ _ => has_nil
  obtain ⟨apart, front, back⟩ := apart_or_touching a b first last first' last'
  rw [intersection, first, last, first', last']
  dsimp only
  split
  next order =>
    exact .inl (inter_of_not_has (apart (.inl order)))
  next order _ =>
    exact .inl (inter_of_not_has (apart (.inr order)))
  next order _ =>
    left
    obtain ⟨rest, elems, has, others⟩ := front order
    rw [elems, inter, List.filter_cons_of_pos (by simp [has])]
    exact congrArg _ (inter_of_not_has others)
  next order _ _ =>
    left
    obtain ⟨rest, elems, has, others⟩ := back order
    rw [elems, inter, List.filter_append, List.filter_cons_of_pos (by simp [has])]
    exact congrArg (· ++ [selfMax]) (inter_of_not_has others)
  · split
    · exact .inl ⟨a.ascending, rfl⟩
    · split
      · exact .inr ⟨b.ascending, rfl⟩
      · exact .inl ⟨a.ascending, b.ascending, rfl⟩

end

section

namespace MergeIterInner

/-- What the sources have still to give, with the element that was peeked at. -/
def sources (m : MergeIterInner T) : List T × List T :=
  match m.peeked with
  | some (.a x) => (x :: m.a, m.b)
  | some (.b x) => (m.a, x :: m.b)
  | none => (m.a, m.b)

lemma lens_eq (m : MergeIterInner T) : m.lens = (m.sources.1.length, m.sources.2.length) := by
  obtain ⟨a, b, _ | _ | _⟩ := m <;> simp [lens, sources, add_comm]

lemma fetch_eq (m : MergeIterInner T) :
    m.fetch = (m.sources.1.head?, m.sources.2.head?, m.sources.1.tail, m.sources.2.tail) := by
  obtain ⟨a, b, _ | _ | _⟩ := m <;> rfl

/-- The smaller of the first elements is given, or both if they are equal. -/
lemma nexts_cons (cmp : T → T → Ordering) {m : MergeIterInner T} {x y : T} {xs ys : List T}
    (sources : m.sources = (x :: xs, y :: ys)) :
    (cmp x y = .lt → (m.nexts cmp).1 = (some x, none) ∧ (m.nexts cmp).2.sources = (xs, y :: ys)) ∧
    (cmp x y = .gt → (m.nexts cmp).1 = (none, some y) ∧ (m.nexts cmp).2.sources = (x :: xs, ys)) ∧
    (cmp x y = .eq → (m.nexts cmp).1 = (some x, some y) ∧ (m.nexts cmp).2.sources = (xs, ys)) := by
  have fetched : m.fetch = (some x, some y, xs, ys) := by
    rw [fetch_eq, sources]
    rfl
  refine ⟨fun order => ?_, fun order => ?_, fun order => ?_⟩ <;>
  · rw [nexts, fetched]
    simp only [order, MergeIterInner.sources, and_self]

lemma nexts_end (cmp : T → T → Ordering) {m : MergeIterInner T} {xs ys : List T}
    (sources : m.sources = (xs, ys)) (ended : xs = [] ∨ ys = []) :
    (m.nexts cmp).1 = (xs.head?, ys.head?) ∧ (m.nexts cmp).2.sources = (xs.tail, ys.tail) := by
  have fetched : m.fetch = (xs.head?, ys.head?, xs.tail, ys.tail) := by
    rw [fetch_eq, sources]
  rw [nexts, fetched]
  rcases ended with rfl | rfl
  · exact ⟨rfl, rfl⟩
  · cases xs <;> exact ⟨rfl, rfl⟩

end MergeIterInner

/-- What is left of a union or a symmetric difference. -/
def LeftOf (both : Bool) (cmp : T → T → Ordering) (m : MergeIterInner T) (xs : List T) : Prop :=
  Ascending cmp m.sources.1 ∧ Ascending cmp m.sources.2 ∧
    xs = merge cmp both m.sources.1 m.sources.2

variable {m : MergeIterInner T} {xs : List T}

lemma leftOf_merge {both : Bool} {a b : List T}
    (sources : m.sources = (a, b)) (ha : Ascending cmp a) (hb : Ascending cmp b) :
    LeftOf both cmp m (merge cmp both a b) := by
  rw [LeftOf, sources]
  exact ⟨ha, hb, rfl⟩

lemma nexts_left {both : Bool} (left : LeftOf both cmp m xs) :
    (∃ x y rest, (m.nexts cmp).1 = (some x, some y) ∧
      xs = (if both = true then x :: rest else rest) ∧ LeftOf both cmp (m.nexts cmp).2 rest ∧
      (m.nexts cmp).2.lens.1 < m.lens.1) ∨
    (((m.nexts cmp).1.1 = none ∨ (m.nexts cmp).1.2 = none) ∧
      (m.nexts cmp).1.1.or (m.nexts cmp).1.2 = xs.head? ∧
      LeftOf both cmp (m.nexts cmp).2 xs.tail) := by
  obtain ⟨ha, hb, rfl⟩ := left
  rcases sources : m.sources with ⟨a, b⟩
  rw [sources] at ha hb
  rw [m.lens_eq, MergeIterInner.lens_eq, sources]
  cases a with
  | nil =>
    right
    obtain ⟨items, rest⟩ := MergeIterInner.nexts_end cmp sources (.inl rfl)
    have merged (ys : List T) : merge cmp both [] ys = ys := by
      rw [merge]
    rw [items, merged]
    refine ⟨.inl rfl, rfl, ?_⟩
    have left : LeftOf both cmp (m.nexts cmp).2 (merge cmp both [] b.tail) :=
      leftOf_merge rest ha hb.tail
    rw [merged] at left
    exact left
  | cons x a =>
    cases b with
    | nil =>
      right
      obtain ⟨items, rest⟩ := MergeIterInner.nexts_end cmp sources (.inr rfl)
      have merged (xs : List T) : merge cmp both xs [] = xs := by
        cases xs <;> simp [merge]
      rw [items, merged]
      refine ⟨.inr rfl, rfl, ?_⟩
      have left : LeftOf both cmp (m.nexts cmp).2 (merge cmp both a []) :=
        leftOf_merge rest ha.tail hb
      rw [merged] at left
      exact left
    | cons y b =>
      obtain ⟨less, greater, equal⟩ := MergeIterInner.nexts_cons cmp sources
      cases order : cmp x y with
      | lt =>
        right
        obtain ⟨items, rest⟩ := less order
        have merged : merge cmp both (x :: a) (y :: b) = x :: merge cmp both a (y :: b) := by
          simp [merge, order]
        rw [items, merged]
        exact ⟨.inr rfl, rfl, leftOf_merge rest ha.tail hb⟩
      | gt =>
        right
        obtain ⟨items, rest⟩ := greater order
        have merged : merge cmp both (x :: a) (y :: b) = y :: merge cmp both (x :: a) b := by
          simp [merge, order]
        rw [items, merged]
        exact ⟨.inl rfl, rfl, leftOf_merge rest ha hb.tail⟩
      | eq =>
        left
        obtain ⟨items, rest⟩ := equal order
        refine ⟨x, y, merge cmp both a b, items, ?_, leftOf_merge rest ha.tail hb.tail, ?_⟩
        · simp [merge, order]
        · rw [rest]
          exact Nat.lt_succ_self _

lemma Union.follows : Follows next fun (s : Union cmp) xs => LeftOf true cmp s.inner xs := by
  rintro ⟨m⟩ xs left
  have answer : (next (⟨m⟩ : Union cmp)).1 = (m.nexts cmp).1.1.or (m.nexts cmp).1.2 := rfl
  rcases nexts_left left with ⟨x, y, rest, items, rfl, left', -⟩ | ⟨-, first, left'⟩
  · exact ⟨by rw [answer, items]; rfl, left'⟩
  · exact ⟨first, left'⟩

lemma Union.encloses {s : Union cmp} (left : LeftOf true cmp s.inner xs) :
    Encloses s.sizeHint xs.length := by
  obtain ⟨-, -, rfl⟩ := left
  rw [sizeHint, MergeIterInner.lens_eq]
  refine ⟨le_length_merge .., ?_⟩
  rintro _ ⟨⟩
  exact length_merge_le ..

lemma symmetricLoop_spec {fuel : Nat} (enough : m.lens.1 < fuel) (left : LeftOf false cmp m xs) :
    (symmetricLoop cmp fuel m).1 = xs.head? ∧
      LeftOf false cmp (symmetricLoop cmp fuel m).2 xs.tail := by
  induction fuel generalizing m with
  | zero => cases enough
  | succ fuel ih =>
    rcases nexts_left left with ⟨x, y, rest, items, rfl, left', shorter⟩ | ⟨ended, first, left'⟩
    · have again : symmetricLoop cmp (fuel + 1) m = symmetricLoop cmp fuel (m.nexts cmp).2 := by
        rcases fetched : m.nexts cmp with ⟨⟨a, b⟩, m'⟩
        rw [fetched] at items
        cases items
        simp [symmetricLoop, fetched]
      rw [again]
      exact ih (by omega) left'
    · have once : symmetricLoop cmp (fuel + 1) m =
          ((m.nexts cmp).1.1.or (m.nexts cmp).1.2, (m.nexts cmp).2) := by
        rcases fetched : m.nexts cmp with ⟨⟨_ | a, _ | b⟩, m'⟩
        · simp [symmetricLoop, fetched]
        · simp [symmetricLoop, fetched]
        · simp [symmetricLoop, fetched]
        · rw [fetched] at ended
          rcases ended with ended | ended <;> cases ended
      rw [once]
      exact ⟨first, left'⟩

lemma SymmetricDifference.follows :
    Follows next fun (s : SymmetricDifference cmp) xs => LeftOf false cmp s.inner xs := by
  rintro ⟨m⟩ xs left
  exact symmetricLoop_spec (Nat.lt_succ_self _) left

lemma SymmetricDifference.encloses {s : SymmetricDifference cmp}
    (left : LeftOf false cmp s.inner xs) : Encloses s.sizeHint xs.length := by
  obtain ⟨-, -, rfl⟩ := left
  rw [sizeHint, MergeIterInner.lens_eq]
  refine ⟨Nat.zero_le _, ?_⟩
  rintro _ ⟨⟩
  exact length_merge_le ..

end

section
lemma last_of_suffix {init xs : List T} {x y : T} (suffix : init.concat x <:+ xs)
    (last : xs.getLast? = some y) : x = y := by
  obtain ⟨before, rfl⟩ := suffix
  simpa using last

variable [Std.TransCmp cmp]

lemma subsetLoop_iff {other : List T} (hother : Ascending cmp other) {x : T} {self : List T}
    (hself : Ascending cmp (x :: self)) :
    subsetLoop cmp x self other ↔ ∀ y ∈ x :: self, Has cmp other y := by
  induction other generalizing x self with
  | nil =>
    refine ⟨nofun, fun all => ?_⟩
    exact absurd (all x List.mem_cons_self) has_nil
  | cons o other ih =>
    have hother' := hother.tail
    have hself' := hself.tail
    -- the elements behind `x` are above `o`
    have skip (least : cmp x o ≠ .lt) : (∀ y ∈ self, Has cmp (o :: other) y) ↔
        ∀ y ∈ self, Has cmp other y := by
      refine forall₂_congr fun y mem => has_skip ?_
      rw [hself.above least mem]
      decide
    cases order : cmp x o with
    | lt =>
      simp only [subsetLoop, order, Bool.false_eq_true, false_iff]
      exact fun all => hother.not_has order (all x List.mem_cons_self)
    | eq =>
      have here : Has cmp (o :: other) x := has_cons.mpr (.inl order)
      rw [List.forall_mem_cons, skip (by rw [order]; decide), and_iff_right here]
      cases self with
      | nil => simp [subsetLoop, order]
      | cons x' self =>
        simp only [subsetLoop, order]
        exact ih hother' hself'
    | gt =>
      rw [List.forall_mem_cons, skip (by rw [order]; decide), has_skip (by rw [order]; decide),
        ← List.forall_mem_cons]
      simp only [subsetLoop, order]
      exact ih hother' hself

/-- The part of `self` whose extremes are not those of `other`. -/
lemma isSubsetWithin_iff (b : BTreeSet cmp) {self : List T} (hself : Ascending cmp self)
    (inside : ∀ x ∈ self, Has cmp b.elems x → Has cmp b.elems.tail.dropLast x) :
    isSubsetWithin b self ↔ ∀ x ∈ self, Has cmp b.elems x := by
  unfold isSubsetWithin
  split
  · simp [contains_iff]
  · cases self with
    | nil => simp
    | cons x self =>
      have middle : Ascending cmp b.elems.tail.dropLast :=
        b.ascending.sublist ((List.dropLast_sublist _).trans (List.tail_sublist _))
      rw [iter, subsetLoop_iff middle hself]
      refine forall₂_congr fun y mem => ⟨?_, inside y mem⟩
      rintro ⟨z, hz, same⟩
      exact ⟨z, List.mem_of_mem_tail (List.dropLast_subset _ hz), same⟩

lemma skipFront_spec (a b : BTreeSet cmp) {selfMin otherMin : T}
    (first : a.first = some selfMin) (first' : b.first = some otherMin) :
    (skipFront (cmp selfMin otherMin) a.elems = none → ∃ x ∈ a.elems, ¬ Has cmp b.elems x) ∧
    ∀ self, skipFront (cmp selfMin otherMin) a.elems = some self →
      self <:+ a.elems ∧
      ((∀ x ∈ a.elems, Has cmp b.elems x) ↔ ∀ x ∈ self, Has cmp b.elems x) ∧
      ∀ x ∈ self, cmp x otherMin = .gt := by
  have ha := a.ascending
  obtain ⟨rest, starts⟩ := List.head?_eq_some_iff.mp first
  rw [starts] at ha ⊢
  cases order : cmp selfMin otherMin with
  | lt =>
    refine ⟨fun _ => ⟨selfMin, List.mem_cons_self, not_has fun y hy => ?_⟩, nofun⟩
    rw [lt_of_lt_of_isLE order (b.ascending.first_isLE first' hy)]
    decide
  | eq =>
    refine ⟨nofun, ?_⟩
    rintro _ ⟨⟩
    have here : Has cmp b.elems selfMin := ⟨otherMin, List.mem_of_head? first', order⟩
    refine ⟨List.suffix_cons .., ?_, fun x hx => ha.above (by rw [order]; decide) hx⟩
    rw [List.forall_mem_cons, and_iff_right here, List.tail_cons]
  | gt =>
    refine ⟨nofun, ?_⟩
    rintro _ ⟨⟩
    refine ⟨List.suffix_refl _, Iff.rfl, fun x hx => ?_⟩
    rcases List.mem_cons.mp hx with rfl | hx
    · exact order
    · exact ha.above (by rw [order]; decide) hx

lemma skipBack_spec (a b : BTreeSet cmp) {selfMax otherMax : T}
    (last : a.last = some selfMax) (last' : b.last = some otherMax) {part : List T}
    (suffix : part <:+ a.elems) :
    (skipBack (cmp selfMax otherMax) part = none → ∃ x ∈ a.elems, ¬ Has cmp b.elems x) ∧
    ∀ self, skipBack (cmp selfMax otherMax) part = some self →
      self.Sublist part ∧
      ((∀ x ∈ part, Has cmp b.elems x) ↔ ∀ x ∈ self, Has cmp b.elems x) ∧
      ∀ x ∈ self, cmp x otherMax = .lt := by
  have ha := a.ascending.sublist suffix.sublist
  cases order : cmp selfMax otherMax with
  | lt =>
    refine ⟨nofun, ?_⟩
    rintro _ ⟨⟩
    refine ⟨List.Sublist.refl _, Iff.rfl, fun x hx => ?_⟩
    exact lt_of_isLE_of_lt (a.ascending.isLE_last last (suffix.mem hx)) order
  | eq =>
    refine ⟨nofun, ?_⟩
    rintro _ ⟨⟩
    have here : Has cmp b.elems selfMax := ⟨otherMax, List.mem_of_getLast? last', order⟩
    refine ⟨List.dropLast_sublist _, ?_⟩
    rcases List.eq_nil_or_concat part with rfl | ⟨init, x, rfl⟩
    · simp
    · obtain rfl : x = selfMax := last_of_suffix suffix last
      rw [List.concat_eq_append] at ha ⊢
      rw [List.dropLast_concat]
      refine ⟨?_, fun z hz => ?_⟩
      · rw [List.forall_mem_append, List.forall_mem_singleton, and_iff_left here]
      · have less := (List.pairwise_append.mp ha).2.2 z hz x (List.mem_singleton_self x)
        exact Std.TransCmp.lt_of_lt_of_eq less order
  | gt =>
    refine ⟨fun _ => ⟨selfMax, List.mem_of_getLast? last, not_has fun y hy => ?_⟩, nofun⟩
    rw [gt_iff_lt.mpr (lt_of_isLE_of_lt
      (b.ascending.isLE_last last' hy) (gt_iff_lt.mp order))]
    decide

lemma isSubset_iff (a b : BTreeSet cmp) :
    a.isSubset b ↔ ∀ x, Has cmp a.elems x → Has cmp b.elems x := by
  have mem_iff : (∀ x, Has cmp a.elems x → Has cmp b.elems x) ↔
      ∀ x ∈ a.elems, Has cmp b.elems x := by
    constructor
    · exact fun all x mem => all x (has_of_mem mem)
    · rintro all x ⟨y, mem, same⟩
      rw [has_congr same]
      exact all y mem
  rw [mem_iff, isSubset]
  split
  next more =>
    refine ⟨nofun, fun all => ?_⟩
    have few := a.ascending.length_inter_le b.elems
    have whole : inter cmp a.elems b.elems = a.elems :=
      List.filter_eq_self.mpr fun x mem => decide_eq_true (all x mem)
    rw [whole] at few
    exact absurd few (not_le.mpr more)
  · rcases first_last a with ⟨empty, -⟩ | ⟨selfMin, selfMax, first, last⟩
    · simp [BTreeSet.first, empty]
    rcases first_last b with ⟨empty, none⟩ | ⟨otherMin, otherMax, first', last'⟩
    · rw [first, last, none, empty]
      refine ⟨nofun, fun all => absurd (all selfMin (List.mem_of_head? first)) has_nil⟩
    rw [first, last, first', last']
    dsimp only
    obtain ⟨missing, skipped⟩ := skipFront_spec a b first first'
    split
    next front =>
      obtain ⟨x, mem, other⟩ := missing front
      exact ⟨nofun, fun all => absurd (all x mem) other⟩
    next part front =>
      obtain ⟨suffix, same, above⟩ := skipped part front
      obtain ⟨missing, skipped⟩ := skipBack_spec a b last last' suffix
      split
      next back =>
        obtain ⟨x, mem, other⟩ := missing back
        exact ⟨nofun, fun all => absurd (all x mem) other⟩
      next self back =>
        obtain ⟨sublist, same', below⟩ := skipped self back
        rw [same, same']
        refine isSubsetWithin_iff b ((a.ascending.sublist suffix.sublist).sublist sublist) ?_
        rintro x mem ⟨y, hy, equal⟩
        have apart : cmp x otherMin = .gt := above x (sublist.subset mem)
        obtain ⟨rest, starts⟩ := List.head?_eq_some_iff.mp first'
        rw [starts] at hy ⊢
        rcases List.mem_cons.mp hy with rfl | hy
        · cases equal.symm.trans apart
        rcases List.eq_nil_or_concat rest with rfl | ⟨init, z, rfl⟩
        · cases hy
        obtain rfl : z = otherMax := last_of_suffix (starts ▸ List.suffix_cons ..) last'
        rw [List.concat_eq_append] at hy ⊢
        rcases List.mem_append.mp hy with hy | hy
        · exact ⟨y, by simpa using hy, equal⟩
        · obtain rfl := List.mem_singleton.mp hy
          cases equal.symm.trans (below x mem)

end

lemma yields_of_left {σ : Type} {a b : BTreeSet cmp} {next : σ → Option T × σ}
    {sizeHint : σ → Nat × Option Nat} {Left : σ → List T → Prop} (follows : Follows next Left)
    (encloses : ∀ {s xs}, Left s xs → Encloses (sizeHint s) xs.length) {s : σ} {xs : List T}
    (left : Left s xs) (ascending : Ascending cmp xs) {member : T → Prop}
    (has : ∀ x, Has cmp xs x ↔ member x) (source : ∀ x ∈ xs, x ∈ a.elems ∨ x ∈ b.elems) :
    Yields a b next sizeHint s member := by
  refine ⟨xs, follows.enumerates left, ascending, has, source, fun n => ?_⟩
  have bounds := encloses (follows.after left n)
  rw [List.length_drop] at bounds
  exact bounds

variable [Std.TransCmp cmp] (a b : BTreeSet cmp)

lemma difference_yields : Yields a b Difference.next Difference.sizeHint (a.difference b)
    fun x => Has cmp a.elems x ∧ ¬ Has cmp b.elems x :=
  yields_of_left Difference.follows Difference.encloses (left_difference a b)
    (a.ascending.filter _) (fun _ => has_minus) fun _ mem => .inl (List.mem_of_mem_filter mem)

lemma intersection_yields : Yields a b Intersection.next Intersection.sizeHint (a.intersection b)
    fun x => Has cmp a.elems x ∧ Has cmp b.elems x := by
  rcases left_intersection a b with left | left
  · exact yields_of_left Intersection.follows Intersection.encloses left (a.ascending.filter _)
      (fun _ => has_inter) fun _ mem => .inl (List.mem_of_mem_filter mem)
  · exact yields_of_left Intersection.follows Intersection.encloses left (b.ascending.filter _)
      (fun _ => has_inter.trans and_comm) fun _ mem => .inr (List.mem_of_mem_filter mem)

lemma symmetricDifference_yields : Yields a b SymmetricDifference.next
    SymmetricDifference.sizeHint (a.symmetricDifference b)
    fun x => Has cmp a.elems x ∧ ¬ Has cmp b.elems x ∨ ¬ Has cmp a.elems x ∧ Has cmp b.elems x :=
  yields_of_left SymmetricDifference.follows SymmetricDifference.encloses
    (leftOf_merge rfl a.ascending b.ascending) (a.ascending.merge b.ascending)
    (fun _ => has_merge_false a.ascending b.ascending) fun _ mem => mem_merge mem

lemma union_yields : Yields a b Union.next Union.sizeHint (a.union b)
    fun x => Has cmp a.elems x ∨ Has cmp b.elems x :=
  yields_of_left Union.follows Union.encloses (leftOf_merge rfl a.ascending b.ascending)
    (a.ascending.merge b.ascending) (fun _ => has_merge_true) fun _ mem => mem_merge mem

lemma isDisjoint_iff : a.isDisjoint b ↔ ∀ x, ¬ (Has cmp a.elems x ∧ Has cmp b.elems x) := by
  obtain ⟨xs, enumerates, -, has, -⟩ := intersection_yields a b
  have first : (a.intersection b).next.1 = xs[0]? := enumerates 0
  rw [isDisjoint, first]
  cases xs with
  | nil => exact ⟨fun _ x both => absurd ((has x).mpr both) has_nil, fun _ => rfl⟩
  | cons x xs =>
    refine ⟨nofun, fun none => ?_⟩
    exact absurd ((has x).mp (has_of_mem List.mem_cons_self)) (none x)

/-- The iterators give the elements of the mathematical results in ascending order, with hints
that enclose what is still to come, and the predicates are the mathematical ones. -/
theorem set_operations {T : Type} (cmp : T → T → Ordering) [Std.TransCmp cmp] (a b : BTreeSet cmp) :
    (Yields a b Difference.next Difference.sizeHint (a.difference b)
      fun x => Has cmp a.elems x ∧ ¬ Has cmp b.elems x) ∧
    (Yields a b Intersection.next Intersection.sizeHint (a.intersection b)
      fun x => Has cmp a.elems x ∧ Has cmp b.elems x) ∧
    (Yields a b Union.next Union.sizeHint (a.union b)
      fun x => Has cmp a.elems x ∨ Has cmp b.elems x) ∧
    (Yields a b SymmetricDifference.next SymmetricDifference.sizeHint (a.symmetricDifference b)
      fun x => Has cmp a.elems x ∧ ¬ Has cmp b.elems x ∨ ¬ Has cmp a.elems x ∧ Has cmp b.elems x) ∧
    (a.isSubset b ↔ ∀ x, Has cmp a.elems x → Has cmp b.elems x) ∧
    (a.isSuperset b ↔ ∀ x, Has cmp b.elems x → Has cmp a.elems x) ∧
    (a.isDisjoint b ↔ ∀ x, ¬ (Has cmp a.elems x ∧ Has cmp b.elems x)) :=
  ⟨difference_yields a b, intersection_yields a b, union_yields a b,
    symmetricDifference_yields a b, isSubset_iff a b, isSubset_iff b a, isDisjoint_iff a b⟩

def smallSet : BTreeSet (compare : Nat → Nat → Ordering) := ⟨[1, 2, 5], by decide⟩

def mediumSet : BTreeSet (compare : Nat → Nat → Ordering) := ⟨[2, 3, 5, 8], by decide⟩

def largeSet : BTreeSet (compare : Nat → Nat → Ordering) :=
  ⟨List.range 50, List.pairwise_lt_range.imp Nat.compare_eq_lt.mpr⟩

/-- Two sets of about one size are read together; a small one is looked up in a large one. -/
theorem set_operations_small :
    smallSet.isDisjoint mediumSet = false ∧ smallSet.isSubset largeSet ∧
    ∀ b ∈ [mediumSet, largeSet], Yields smallSet b Intersection.next Intersection.sizeHint
      (smallSet.intersection b) fun x => Has compare smallSet.elems x ∧ Has compare b.elems x := by
  obtain ⟨-, -, -, -, -, -, disjoint⟩ := set_operations compare smallSet mediumSet
  obtain ⟨-, -, -, -, subset, -⟩ := set_operations compare smallSet largeSet
  refine ⟨?_, subset.mpr ?_, fun b _ => (set_operations compare smallSet b).2.1⟩
  · rw [Bool.eq_false_iff, ne_eq, disjoint]
    exact fun none => none 2 ⟨by decide, by decide⟩
  · rintro x ⟨y, mem, equal⟩
    exact ⟨y, List.mem_range.mpr ((by decide : ∀ y ∈ smallSet.elems, y < 50) y mem), equal⟩

end BTreeSet
