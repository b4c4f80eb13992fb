import Mathlib

/-!
# Atomic integer cells on the single-threaded BPF target

`core::sync::atomic` gives every atomic integer type the same public methods
over the private functions `atomic_store` .. `atomic_umin`. With
`target_arch = "bpf"` those functions are plain loads and stores, and the
memory orderings are unused. The documented meaning of the public methods is
stated separately, as a relation, and compared with the BPF bodies over whole
histories of one cell.
-/

namespace AtomicCell

inductive Ordering
  | relaxed
  | release
  | acquire
  | acqRel
  | seqCst
deriving DecidableEq, Repr

/-- An integer type: its width and whether `Ord` and overflow read it as signed. -/
structure IntType where
  width : Nat
  signed : Bool
deriving DecidableEq, Repr

namespace IntType
variable (ty : IntType)

abbrev Value := BitVec ty.width

/-- The integer that a bit pattern denotes in this type. -/
def toInt (a : ty.Value) : Int := if ty.signed then a.toInt else a.toNat

variable (a b : ty.Value)

def lt : Bool := if ty.signed then a.slt b else a.ult b

/-- `crate::cmp::max`, which keeps its second argument on a tie. -/
def max (v1 v2 : ty.Value) : ty.Value := if ty.lt v2 v1 then v1 else v2

/-- `crate::cmp::min`, which keeps its first argument on a tie. -/
def min (v1 v2 : ty.Value) : ty.Value := if ty.lt v2 v1 then v2 else v1

def addOverflows : Bool :=
  if ty.signed then a.saddOverflow b else a.uaddOverflow b

def subOverflows : Bool :=
  if ty.signed then a.ssubOverflow b else a.usubOverflow b

section
variable (checks : Bool) (a b : ty.Value)

/-- Rust's `+`: with overflow checks an overflow panics, otherwise it wraps. -/
def add : Option ty.Value :=
  if checks && ty.addOverflows a b then none else some (a + b)

def sub : Option ty.Value :=
  if checks && ty.subOverflows a b then none else some (a - b)

end

end IntType

/-- What a call hands back: nothing, a plain value, a `Result`, or a panic. -/
inductive Ret (ty : IntType)
  | unit
  | value (v : ty.Value)
  | ok (v : ty.Value)
  | err (v : ty.Value)
  | panicked
deriving DecidableEq

/-- The cell after a call together with what the call returned. -/
structure Outcome (ty : IntType) where
  cell : ty.Value
  ret : Ret ty
deriving DecidableEq

section
variable (ty : IntType) (checks : Bool)

def atomicStore (_dst val : ty.Value) (_order : Ordering) : Outcome ty := ⟨val, .unit⟩

def atomicLoad (dst : ty.Value) (_order : Ordering) : Outcome ty := ⟨dst, .value dst⟩

variable (dst val : ty.Value)

def atomicSwap (_order : Ordering) : Outcome ty :=
  let old := dst
  ⟨val, .value old⟩

/-- The sum is computed before the store, so a panic leaves the cell alone. -/
def atomicAdd (_order : Ordering) : Outcome ty :=
  let old := dst
  match ty.add checks old val with
  | some new => ⟨new, .value old⟩
  | none => ⟨dst, .panicked⟩

def atomicSub (_order : Ordering) : Outcome ty :=
  let old := dst
  match ty.sub checks old val with
  | some new => ⟨new, .value old⟩
  | none => ⟨dst, .panicked⟩

def atomicCompareExchange (dst old new : ty.Value) (_success _failure : Ordering) :
    Outcome ty :=
  let current := dst
  if current = old then ⟨new, .ok current⟩ else ⟨dst, .err current⟩

def atomicCompareExchangeWeak (dst old new : ty.Value) (_success _failure : Ordering) :
    Outcome ty :=
  let current := dst
  if current = old then ⟨new, .ok current⟩ else ⟨dst, .err current⟩

/-- The BPF body is the bare expression `cmp::max(*dst, val)`: nothing is stored. -/
def atomicMax (_order : Ordering) : Outcome ty :=
  ⟨dst, .value (ty.max dst val)⟩

def atomicMin (_order : Ordering) : Outcome ty :=
  ⟨dst, .value (ty.min dst val)⟩

def atomicUmax (_order : Ordering) : Outcome ty :=
  ⟨dst, .value (ty.max dst val)⟩

def atomicUmin (_order : Ordering) : Outcome ty :=
  ⟨dst, .value (ty.min dst val)⟩

end

/-- Calls of the public methods of one atomic integer type. -/
inductive Op (ty : IntType)
  | store (val : ty.Value) (order : Ordering)
  | load (order : Ordering)
  | swap (val : ty.Value) (order : Ordering)
  | compareAndSwap (current new : ty.Value) (order : Ordering)
  | compareExchange (current new : ty.Value) (success failure : Ordering)
  | compareExchangeWeak (current new : ty.Value) (success failure : Ordering)
  | fetchAdd (val : ty.Value) (order : Ordering)
  | fetchSub (val : ty.Value) (order : Ordering)
  | fetchMax (val : ty.Value) (order : Ordering)
  | fetchMin (val : ty.Value) (order : Ordering)

def strongestFailureOrdering : Ordering → Ordering
  | .release => .relaxed
  | .relaxed => .relaxed
  | .seqCst => .seqCst
  | .acquire => .acquire
  | .acqRel => .acquire

/-- `compare_and_swap` drops the distinction between `Ok` and `Err`. -/
def Outcome.merge {ty : IntType} (o : Outcome ty) : Outcome ty :=
  match o.ret with
  | .ok x => ⟨o.cell, .value x⟩
  | .err x => ⟨o.cell, .value x⟩
  | _ => o

/-- The public methods on BPF. The `atomic_int!` macro picks `atomic_max` and
`atomic_min` for signed types and `atomic_umax` and `atomic_umin` for the others. -/
def step (ty : IntType) (checks : Bool) (cell : ty.Value) : Op ty → Outcome ty
  | .store val order => atomicStore ty cell val order
  | .load order => atomicLoad ty cell order
  | .swap val order => atomicSwap ty cell val order
  | .compareAndSwap current new order =>
    (atomicCompareExchange ty cell current new order (strongestFailureOrdering order)).merge
  | .compareExchange current new success failure =>
    atomicCompareExchange ty cell current new success failure
  | .compareExchangeWeak current new success failure =>
    atomicCompareExchangeWeak ty cell current new success failure
  | .fetchAdd val order => atomicAdd ty checks cell val order
  | .fetchSub val order => atomicSub ty checks cell val order
  | .fetchMax val order =>
    if ty.signed then atomicMax ty cell val order else atomicUmax ty cell val order
  | .fetchMin val order =>
    if ty.signed then atomicMin ty cell val order else atomicUmin ty cell val order

/-- The BPF run: results in order and the final cell. A panic ends the run. -/
def run (ty : IntType) (checks : Bool) : ty.Value → List (Op ty) → List (Ret ty) × ty.Value
  | cell, [] => ([], cell)
  | cell, op :: ops =>
    let o := step ty checks cell op
    if o.ret = .panicked then ([o.ret], o.cell)
    else
      let r := run ty checks o.cell ops
      (o.ret :: r.1, r.2)

end AtomicCell
