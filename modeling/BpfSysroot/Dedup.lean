import BpfSysroot.Unwinding

/-!
# Removing repeated elements

`partition_dedup_by` of `core/src/slice/mod.rs` and `Vec::dedup_by`. The closure keeps state, may
change both elements it is called with, and may panic. Two references to one element, and accesses
outside the slice, are faults.
-/

namespace Dedup

open Unwinding Unwinding.Exec SliceMemory

variable {S T : Type}

/-- The closure: the answer, or `none` for a panic, with the elements as it leaves them. -/
abbrev SameBucket (S T : Type) := S → T → T → Option Bool × (T × T) × S

section
variable (sameBucket : SameBucket S T)

/-- `same_bucket(&mut *ptr_read, &mut *prev_ptr_write)`. -/
def call (v : List T) (read prev : Nat) (s : S) : Exec (List T) S Bool :=
  if read = prev then .fault
  else
    require v[read]? fun x =>
    require v[prev]? fun y =>
    match sameBucket s x y with
    | (some same, (x, y), s) => .ok ((v.set read x).set prev y) s same
    | (none, (x, y), s) => .panic ((v.set read x).set prev y) s

end

/-- The closure leaves what `f` reads off an element: with the identity for `f`, it changes
nothing. -/
def Leaves {I : Type} (sameBucket : SameBucket S T) (f : T → I) : Prop :=
  ∀ s x y, f (sameBucket s x y).2.1.1 = f x ∧ f (sameBucket s x y).2.1.2 = f y

variable {sameBucket : SameBucket S T}

end Dedup
