import BpfSysroot.AscendingLists
import BpfSysroot.Enumeration

/-!
# Operations on two `BTreeSet`s

The set operations of `alloc/src/collections/btree/set.rs` and the `MergeIterInner` of
`merge_iter.rs`. The map behind a set is given by its keys in order. An iterator over a set is
what it has still to give, and so is a `Peekable` one, with the element that it has peeked at.
-/

open AscendingLists

variable {T : Type} {cmp : T → T → Ordering}

structure BTreeSet (cmp : T → T → Ordering) where
  elems : List T
  ascending : Ascending cmp elems

namespace BTreeSet

def iterPerformanceTippingSizeDiff : Nat := 16

section
variable (s : BTreeSet cmp)

def len : Nat := s.elems.length

def first : Option T := s.elems.head?

def last : Option T := s.elems.getLast?

def contains (x : T) : Bool := s.elems.any fun y => cmp x y == .eq

def iter : List T := s.elems

end

inductive Peeked (T : Type) where
  | a (x : T)
  | b (x : T)

structure MergeIterInner (T : Type) where
  a : List T
  b : List T
  peeked : Option (Peeked T)

namespace MergeIterInner

def new (a b : List T) : MergeIterInner T := ⟨a, b, none⟩

/-- The next items of both sources, before they are compared. -/
def fetch (m : MergeIterInner T) : Option T × Option T × List T × List T :=
  match m.peeked with
  | some (.a next) => (some next, m.b.head?, m.a, m.b.tail)
  | some (.b next) => (m.a.head?, some next, m.a.tail, m.b)
  | none => (m.a.head?, m.b.head?, m.a.tail, m.b.tail)

def nexts (cmp : T → T → Ordering) (m : MergeIterInner T) :
    (Option T × Option T) × MergeIterInner T :=
  match m.fetch with
  | (some a1, some b1, a, b) =>
    match cmp a1 b1 with
    | .lt => ((some a1, none), ⟨a, b, some (.b b1)⟩)
    | .gt => ((none, some b1), ⟨a, b, some (.a a1)⟩)
    | .eq => ((some a1, some b1), ⟨a, b, none⟩)
  | (aNext, bNext, a, b) => ((aNext, bNext), ⟨a, b, none⟩)

def lens (m : MergeIterInner T) : Nat × Nat :=
  match m.peeked with
  | some (.a _) => (1 + m.a.length, m.b.length)
  | some (.b _) => (m.a.length, 1 + m.b.length)
  | none => (m.a.length, m.b.length)

end MergeIterInner

/-- The loop of a `Search`: the first of the remaining elements that is to be kept. -/
def searchLoop (keep : T → Bool) : List T → Option T × List T
  | [] => (none, [])
  | x :: rest => if keep x then (some x, rest) else searchLoop keep rest

inductive Difference (cmp : T → T → Ordering) where
  | stitch (selfIter otherIter : List T)
  | search (selfIter : List T) (otherSet : BTreeSet cmp)
  | iterate (iter : List T)

def difference (self other : BTreeSet cmp) : Difference cmp :=
  match self.first, self.last with
  | some selfMin, some selfMax =>
    match other.first, other.last with
    | some otherMin, some otherMax =>
      match cmp selfMin otherMax, cmp selfMax otherMin with
      | .gt, _ => .iterate self.iter
      | _, .lt => .iterate self.iter
      | .eq, _ => .iterate self.iter.tail
      | _, .eq => .iterate self.iter.dropLast
      | _, _ =>
        if self.len ≤ other.len / iterPerformanceTippingSizeDiff then .search self.iter other
        else .stitch self.iter other.iter
    | _, _ => .iterate self.iter
  | _, _ => .iterate self.iter

/-- The loop of a `Stitch`, on what the other iterator has still to give. -/
def differenceLoop (cmp : T → T → Ordering) (selfNext : T) (selfIter : List T) :
    List T → Option T × List T × List T
  | [] => (some selfNext, selfIter, [])
  | otherNext :: otherIter =>
    match cmp selfNext otherNext with
    | .lt => (some selfNext, selfIter, otherNext :: otherIter)
    | .eq =>
      match selfIter with
      | [] => (none, [], otherNext :: otherIter)
      | selfNext :: selfIter => differenceLoop cmp selfNext selfIter otherIter
    | .gt => differenceLoop cmp selfNext selfIter otherIter

namespace Difference

def next : Difference cmp → Option T × Difference cmp
  | .stitch [] otherIter => (none, .stitch [] otherIter)
  | .stitch (selfNext :: selfIter) otherIter =>
    let (result, selfIter, otherIter) := differenceLoop cmp selfNext selfIter otherIter
    (result, .stitch selfIter otherIter)
  | .search selfIter otherSet =>
    let (result, selfIter) := searchLoop (fun x => !otherSet.contains x) selfIter
    (result, .search selfIter otherSet)
  | .iterate iter => (iter.head?, .iterate iter.tail)

def sizeHint : Difference cmp → Nat × Option Nat
  | .stitch selfIter otherIter => (selfIter.length - otherIter.length, some selfIter.length)
  | .search selfIter otherSet => (selfIter.length - otherSet.len, some selfIter.length)
  | .iterate iter => (iter.length - 0, some iter.length)

end Difference

inductive Intersection (cmp : T → T → Ordering) where
  | stitch (a b : List T)
  | search (smallIter : List T) (largeSet : BTreeSet cmp)
  | answer (answer : Option T)

def intersection (self other : BTreeSet cmp) : Intersection cmp :=
  match self.first, self.last with
  | some selfMin, some selfMax =>
    match other.first, other.last with
    | some otherMin, some otherMax =>
      match cmp selfMin otherMax, cmp selfMax otherMin with
      | .gt, _ => .answer none
      | _, .lt => .answer none
      | .eq, _ => .answer (some selfMin)
      | _, .eq => .answer (some selfMax)
      | _, _ =>
        if self.len ≤ other.len / iterPerformanceTippingSizeDiff then .search self.iter other
        else if other.len ≤ self.len / iterPerformanceTippingSizeDiff then .search other.iter self
        else .stitch self.iter other.iter
    | _, _ => .answer none
  | _, _ => .answer none

/-- The loop of a `Stitch`. -/
def intersectionLoop (cmp : T → T → Ordering) (aNext bNext : T) (a b : List T) :
    Option T × List T × List T :=
  match cmp aNext bNext with
  | .lt =>
    match a with
    | [] => (none, [], b)
    | aNext :: a => intersectionLoop cmp aNext bNext a b
  | .gt =>
    match b with
    | [] => (none, a, [])
    | bNext :: b => intersectionLoop cmp aNext bNext a b
  | .eq => (some aNext, a, b)
termination_by a.length + b.length

namespace Intersection

def next : Intersection cmp → Option T × Intersection cmp
  | .stitch [] b => (none, .stitch [] b)
  | .stitch (_ :: a) [] => (none, .stitch a [])
  | .stitch (aNext :: a) (bNext :: b) =>
    let (result, a, b) := intersectionLoop cmp aNext bNext a b
    (result, .stitch a b)
  | .search smallIter largeSet =>
    let (result, smallIter) := searchLoop largeSet.contains smallIter
    (result, .search smallIter largeSet)
  | .answer held => (held, .answer none)

def sizeHint : Intersection cmp → Nat × Option Nat
  | .stitch a b => (0, some (min a.length b.length))
  | .search smallIter _ => (0, some smallIter.length)
  | .answer none => (0, some 0)
  | .answer (some _) => (1, some 1)

end Intersection

structure SymmetricDifference (cmp : T → T → Ordering) where
  inner : MergeIterInner T

structure Union (cmp : T → T → Ordering) where
  inner : MergeIterInner T

def symmetricDifference (self other : BTreeSet cmp) : SymmetricDifference cmp :=
  ⟨.new self.iter other.iter⟩

def union (self other : BTreeSet cmp) : Union cmp := ⟨.new self.iter other.iter⟩

/-- The loop of `SymmetricDifference::next`; each turn but the last takes an element of both
sources. -/
def symmetricLoop (cmp : T → T → Ordering) : Nat → MergeIterInner T → Option T × MergeIterInner T
  | 0, m => (none, m)
  | fuel + 1, m =>
    match m.nexts cmp with
    | ((some _, some _), m) => symmetricLoop cmp fuel m
    | ((aNext, bNext), m) => (aNext.or bNext, m)

def SymmetricDifference.next (s : SymmetricDifference cmp) : Option T × SymmetricDifference cmp :=
  let (result, inner) := symmetricLoop cmp (s.inner.lens.1 + 1) s.inner
  (result, ⟨inner⟩)

def SymmetricDifference.sizeHint (s : SymmetricDifference cmp) : Nat × Option Nat :=
  (0, some (s.inner.lens.1 + s.inner.lens.2))

def Union.next (s : Union cmp) : Option T × Union cmp :=
  let ((aNext, bNext), inner) := s.inner.nexts cmp
  (aNext.or bNext, ⟨inner⟩)

def Union.sizeHint (s : Union cmp) : Nat × Option Nat :=
  (max s.inner.lens.1 s.inner.lens.2, some (s.inner.lens.1 + s.inner.lens.2))

def isDisjoint (self other : BTreeSet cmp) : Bool := (self.intersection other).next.1.isNone

/-- The loop of `is_subset` over both iterators. -/
def subsetLoop (cmp : T → T → Ordering) (self1 : T) (selfIter : List T) : List T → Bool
  | [] => false
  | other1 :: otherIter =>
    match cmp self1 other1 with
    | .lt => false
    | .eq =>
      match selfIter with
      | [] => true
      | self1 :: selfIter => subsetLoop cmp self1 selfIter otherIter
    | .gt => subsetLoop cmp self1 selfIter otherIter

/-- The rest of `is_subset`, after the extremes are compared. -/
def isSubsetWithin (other : BTreeSet cmp) (selfIter : List T) : Bool :=
  if selfIter.length ≤ other.len / iterPerformanceTippingSizeDiff then
    selfIter.all other.contains
  else
    match selfIter with
    | [] => true
    | self1 :: selfIter => subsetLoop cmp self1 selfIter other.iter.tail.dropLast

/-- The front of `self` is compared, and left out if it is that of `other`. -/
def skipFront (order : Ordering) (iter : List T) : Option (List T) :=
  match order with
  | .lt => none
  | .eq => some iter.tail
  | .gt => some iter

def skipBack (order : Ordering) (iter : List T) : Option (List T) :=
  match order with
  | .gt => none
  | .eq => some iter.dropLast
  | .lt => some iter

def isSubset (self other : BTreeSet cmp) : Bool :=
  if other.len < self.len then false
  else
    match self.first, self.last with
    | some selfMin, some selfMax =>
      match other.first, other.last with
      | some otherMin, some otherMax =>
        match skipFront (cmp selfMin otherMin) self.iter with
        | none => false
        | some selfIter =>
          match skipBack (cmp selfMax otherMax) selfIter with
          | none => false
          | some selfIter => isSubsetWithin other selfIter
      | _, _ => false
    | _, _ => true

def isSuperset (self other : BTreeSet cmp) : Bool := other.isSubset self

end BTreeSet
