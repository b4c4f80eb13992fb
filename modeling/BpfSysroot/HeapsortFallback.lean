import BpfSysroot.Quicksort

/-!
# When the unstable sort falls back to heapsort

The comments of `recurse` and `quicksort` say that `limit` is the number of
imbalanced partitions allowed before the switch to heapsort. The loop tests
`limit == 0` before it pays for the imbalanced partition just made, so an
activation that has spent its limit still makes one more partition. Here the
heads its loops reach are followed with the number of imbalanced partitions
made so far: the limit is exceeded only from a head of that kind.
-/

namespace HeapsortFallback

open Unwinding Unwinding.Exec Arrangement InsertionSort Quicksort
variable {S T : Type} {isLess : Comparator S T} {lt : T → T → Bool}

/-- One for an event that happens, none for one that does not. -/
def count (b : Bool) : Nat := if b then 1 else 0

/-- `Reached .. limit h t u`: in the run of `quicksort` on `v`, an activation of `recurse`
entered with `limit` reaches its loop head in state `h`, the comparison in state `t`, after
`u` imbalanced partitions of its own. -/
inductive Reached (layout : Layout T) (bits : Nat) (isLess : Comparator S T) (v : List T) (s : S) :
    Nat → Head T → S → Nat → Prop
  | enter (sized : layout.size ≠ 0) : Reached layout bits isLess v s (initialLimit v.length)
      (.enter v none (initialLimit v.length)) s 0
  | equal {limit h t u w t' mid} (before : Reached layout bits isLess v s limit h t u)
      (run : pass isLess bits h t = .ok w t' (.equal mid)) :
      Reached layout bits isLess v s limit (h.rest w mid) t' u
  | call {limit h t u w t' mid wasPartitioned p}
      (before : Reached layout bits isLess v s limit h t u)
      (run : pass isLess bits h t = .ok w t' (.split mid wasPartitioned))
      (pivot : w[mid]? = some p) :
      Reached layout bits isLess v s h.nextLimit (h.shorter w mid p) t' 0
  | next {limit h t u w t' mid wasPartitioned p n w' t''}
      (before : Reached layout bits isLess v s limit h t u)
      (run : pass isLess bits h t = .ok w t' (.split mid wasPartitioned)) (pivot : w[mid]? = some p)
      (shorter : recurse isLess bits n (h.shorter w mid p) t' = .ok w' t'' ()) :
      Reached layout bits isLess v s limit (h.longer w mid p wasPartitioned) t''
        (u + count !balanced w.length mid)

variable {layout : Layout T} {bits : Nat} {v : List T} {s : S}
variable {limit u : Nat} {h : Head T} {t : S}

/-- A slice that is partitioned once, in the middle. -/
def spread : List Nat := (List.range 24).map (· * 7 % 24)

/-- The state of the comparison after a return. -/
def returned {V A : Type} (e : Exec V S A) : Option S :=
  match e with
  | .ok _ t _ => some t
  | _ => none

/-- Follows one activation from a loop head to the one `n` passes later. -/
def advance (isLess : Comparator S T) (bits : Nat) :
    Nat → Head T → S → Nat → Option (Head T × S × Nat)
  | 0, h, t, u => some (h, t, u)
  | n + 1, h, t, u =>
    match pass isLess bits h t with
    | .ok w t (.equal mid) => advance isLess bits n (h.rest w mid) t u
    | .ok w t (.split mid wasPartitioned) => do
      let p ← w[mid]?
      let t ← returned (recurse isLess bits (w.length + 1) (h.shorter w mid p) t)
      advance isLess bits n (h.longer w mid p wasPartitioned) t (u + count !balanced w.length mid)
    | _ => none

end HeapsortFallback
