import BpfSysroot.Interleaving

/-!
# The counts of `Arc`

A model of the reference counts of `alloc/src/sync.rs`. Any number of threads own `Arc` and `Weak`
handles to any number of allocations, and call the methods of their handles. A step of a thread is
one atomic operation, or one use of the value, with the local work after it; the first one belongs
to the call. A handle is not among those of its thread while a call uses it. What a `Weak` without
an allocation does is left out, since no count is touched.

A use of memory that is not allocated, or of a value that is gone, and a subtraction that
underflows set `failed`; `abort` sets `aborted`.
-/

namespace ArcCounting

def usizeMax : Nat := 2 ^ 64 - 1

def maxRefcount : Nat := 2 ^ 63 - 1

structure ArcInner (T : Type) where
  strong : Nat
  weak : Nat
  /-- `none` after the value is dropped or moved out -/
  data : Option T

inductive Slot (T : Type) where
  | unallocated
  | live (inner : ArcInner T)
  | freed

/-- Where a thread is. The argument `next` of a drop is the new allocation of a `make_mut` that
drops its old handle. -/
inductive Pc where
  | idle
  | downgrade (a cur : Nat)
  /-- `try_unwrap`, about to read the value -/
  | unwrap (a : Nat)
  /-- `is_unique` -/
  | uniqueLoad (a : Nat)
  | uniqueStore (a : Nat) (unique : Bool)
  /-- the reference that `get_mut` or `make_mut` has returned is in use -/
  | borrowed (a : Nat)
  /-- `make_mut` -/
  | copy (a : Nat)
  | mutLoad (a : Nat)
  | mutRead (a : Nat)
  | mutStore (a : Nat)
  /-- the drop of an `Arc` -/
  | dropArc (a : Nat) (next : Option Nat)
  | dropValue (a : Nat) (next : Option Nat)
  | dropWeak (a : Nat) (next : Option Nat)
  | dealloc (a : Nat) (next : Option Nat)
  | upgrade (a n : Nat)
  /-- `Weak::weak_count`, about to load the strong count -/
  | weakCount (a weak : Nat)
  deriving DecidableEq

structure Local where
  arcs : Multiset Nat
  weaks : Multiset Nat
  pc : Pc

inductive Event where
  | dropped (a : Nat)
  | moved (a : Nat)
  | freed (a : Nat)
  | counted (n : Nat)
  deriving DecidableEq

structure State (Thread T : Type) where
  heap : Nat → Slot T
  next : Nat
  threads : Thread → Local
  failed : Bool
  aborted : Bool
  log : List Event

inductive Call (Thread T : Type) where
  | new (v : T)
  | deref (a : Nat)
  | clone (a : Nat)
  | drop (a : Nat)
  | downgrade (a : Nat)
  | tryUnwrap (a : Nat)
  | getMut (a : Nat)
  | makeMut (a : Nat)
  | weakCount (a : Nat)
  | weakClone (a : Nat)
  | upgrade (a : Nat)
  | weakDrop (a : Nat)
  | weakWeakCount (a : Nat)
  /-- a handle is moved to another thread -/
  | sendArc (a : Nat) (other : Thread)
  | sendWeak (a : Nat) (other : Thread)

inductive Action (Thread T : Type) where
  | call (c : Call Thread T)
  /-- `spurious` if a `compare_exchange_weak` fails for no reason -/
  | go (spurious : Bool)
  /-- through the reference -/
  | write (v : T)
  | release

variable {Thread T : Type} [DecidableEq Thread]

def init : State Thread T where
  heap _ := .unallocated
  next := 0
  threads _ := ⟨0, 0, .idle⟩
  failed := false
  aborted := false
  log := []

/-- `fetch_add` wraps. -/
def successor (n : Nat) : Nat := (n + 1) % 2 ^ 64

/-- `fetch_sub` wraps. -/
def predecessor (n : Nat) : Nat := (n + usizeMax) % 2 ^ 64

namespace State

variable (s : State Thread T)

def check (p : Prop) [Decidable p] : State Thread T :=
  if p then s else { s with failed := true }

def record (event : Event) : State Thread T :=
  { s with log := s.log ++ [event] }

def put (a : Nat) (inner : ArcInner T) : State Thread T :=
  { s with heap := Function.update s.heap a (.live inner) }

def goes (t : Thread) (l : Local) : State Thread T :=
  { s with threads := Function.update s.threads t l }

/-- `Arc::new`; the handle is to `s.next`. -/
def allocate (v : T) : State Thread T :=
  { s.put s.next ⟨1, 1, some v⟩ with next := s.next + 1 }

def access (a : Nat) (f : ArcInner T → State Thread T) : State Thread T :=
  match s.heap a with
  | .live inner => f inner
  | _ => { s with failed := true }

def take (a : Nat) (event : Event) (f : T → State Thread T → State Thread T) : State Thread T :=
  s.access a fun inner =>
    match inner.data with
    | some v => f v ((s.put a { inner with data := none }).record event)
    | none => { s with failed := true }

end State

namespace Local

section
variable (l : Local) (a : Nat)

def takeArc : Option Local :=
  if a ∈ l.arcs then some { l with arcs := l.arcs.erase a } else none

def takeWeak : Option Local :=
  if a ∈ l.weaks then some { l with weaks := l.weaks.erase a } else none

def addArc : Local := { l with arcs := a ::ₘ l.arcs }

def addWeak : Local := { l with weaks := a ::ₘ l.weaks }

end

def at_ (l : Local) (pc : Pc) : Local := { l with pc := pc }

end Local

def resume : Option Nat → Pc
  | none => .idle
  | some b => .borrowed b

section
variable (s : State Thread T) (t : Thread) (l : Local)

def dropArc (a : Nat) (next : Option Nat) : State Thread T :=
  s.access a fun inner =>
    let s' := (s.put a { inner with strong := predecessor inner.strong }).check (inner.strong ≠ 0)
    if inner.strong ≠ 1 then s'.goes t (l.at_ (resume next))
    else s'.goes t (l.at_ (.dropValue a next))

def dropWeak (a : Nat) (next : Option Nat) : State Thread T :=
  s.access a fun inner =>
    let s' := (s.put a { inner with weak := predecessor inner.weak }).check (inner.weak ≠ 0)
    if inner.weak = 1 then s'.goes t (l.at_ (.dealloc a next))
    else s'.goes t (l.at_ (resume next))

def clone (a : Nat) : State Thread T :=
  s.access a fun inner =>
    let s' := s.put a { inner with strong := successor inner.strong }
    if maxRefcount < inner.strong then { s' with aborted := true }
    else s'.goes t ((l.addArc a).addArc a)

def weakClone (a : Nat) : State Thread T :=
  s.access a fun inner =>
    let s' := s.put a { inner with weak := successor inner.weak }
    if maxRefcount < inner.weak then { s' with aborted := true }
    else s'.goes t ((l.addWeak a).addWeak a)

def weakCount (s : State Thread T) (a : Nat) : State Thread T :=
  s.access a fun inner =>
    if inner.weak = usizeMax then s.record (.counted 0)
    else (s.check (inner.weak ≠ 0)).record (.counted (inner.weak - 1))

def call : Call Thread T → Option (State Thread T)
  | .new v => some ((s.allocate v).goes t (l.addArc s.next))
  | .deref a => (l.takeArc a).map fun _ => s.access a fun inner => s.check (inner.data.isSome)
  | .clone a => (l.takeArc a).map fun l => clone s t l a
  | .drop a => (l.takeArc a).map fun l => dropArc s t l a none
  | .downgrade a => (l.takeArc a).map fun l =>
    s.access a fun inner => s.goes t (l.at_ (.downgrade a inner.weak))
  | .tryUnwrap a => (l.takeArc a).map fun l =>
    s.access a fun inner =>
      if inner.strong = 1 then (s.put a { inner with strong := 0 }).goes t (l.at_ (.unwrap a))
      else s
  | .getMut a => (l.takeArc a).map fun l =>
    s.access a fun inner =>
      if inner.weak = 1 then
        (s.put a { inner with weak := usizeMax }).goes t (l.at_ (.uniqueLoad a))
      else s
  | .makeMut a => (l.takeArc a).map fun l =>
    s.access a fun inner =>
      if inner.strong = 1 then (s.put a { inner with strong := 0 }).goes t (l.at_ (.mutLoad a))
      else s.goes t (l.at_ (.copy a))
  | .weakCount a => (l.takeArc a).map fun _ => weakCount s a
  | .weakClone a => (l.takeWeak a).map fun l => weakClone s t l a
  | .upgrade a => (l.takeWeak a).map fun l =>
    s.access a fun inner => s.goes t (l.at_ (.upgrade a inner.strong))
  | .weakDrop a => (l.takeWeak a).map fun l => dropWeak s t l a none
  | .weakWeakCount a => (l.takeWeak a).map fun l =>
    s.access a fun inner => s.goes t (l.at_ (.weakCount a inner.weak))
  | .sendArc a other => (l.takeArc a).map fun l =>
    let s := s.goes t l
    s.goes other ((s.threads other).addArc a)
  | .sendWeak a other => (l.takeWeak a).map fun l =>
    let s := s.goes t l
    s.goes other ((s.threads other).addWeak a)

end

variable (cloneValue : T → T) (s : State Thread T)

def advance (t : Thread) (l : Local) (spurious : Bool) : Pc → Option (State Thread T)
  | .idle | .borrowed _ => none
  | .downgrade a cur => some (s.access a fun inner =>
    if cur = usizeMax then s.goes t (l.at_ (.downgrade a inner.weak))
    else if spurious = false ∧ inner.weak = cur then
      (s.put a { inner with weak := cur + 1 }).goes t (((l.addArc a).addWeak a).at_ .idle)
    else s.goes t (l.at_ (.downgrade a inner.weak)))
  | .unwrap a => some (s.take a (.moved a) fun _ s => s.goes t (l.at_ (.dropWeak a none)))
  | .uniqueLoad a => some (s.access a fun inner =>
    s.goes t (l.at_ (.uniqueStore a (inner.strong = 1))))
  | .uniqueStore a unique => some (s.access a fun inner =>
    let s' := s.put a { inner with weak := 1 }
    if unique then s'.goes t (l.at_ (.borrowed a)) else s'.goes t ((l.addArc a).at_ .idle))
  | .copy a => some (s.access a fun inner =>
    match inner.data with
    | some v => (s.allocate (cloneValue v)).goes t (l.at_ (.dropArc a (some s.next)))
    | none => { s with failed := true })
  | .mutLoad a => some (s.access a fun inner =>
    if inner.weak ≠ 1 then s.goes t (l.at_ (.mutRead a)) else s.goes t (l.at_ (.mutStore a)))
  | .mutRead a => some (s.take a (.moved a) fun v s =>
    (s.allocate v).goes t (l.at_ (.dropWeak a (some s.next))))
  | .mutStore a => some (s.access a fun inner =>
    (s.put a { inner with strong := 1 }).goes t (l.at_ (.borrowed a)))
  | .dropArc a next => some (dropArc s t l a next)
  | .dropValue a next => some (s.take a (.dropped a) fun _ s => s.goes t (l.at_ (.dropWeak a next)))
  | .dropWeak a next => some (dropWeak s t l a next)
  | .dealloc a next => some (s.access a fun _ =>
    ({ s with heap := Function.update s.heap a .freed }.record (.freed a)).goes t
      (l.at_ (resume next)))
  | .upgrade a n =>
    if n = 0 then some (s.goes t ((l.addWeak a).at_ .idle))
    else if maxRefcount < n then some { s with aborted := true }
    else some (s.access a fun inner =>
      if spurious = false ∧ inner.strong = n then
        (s.put a { inner with strong := n + 1 }).goes t (((l.addWeak a).addArc a).at_ .idle)
      else s.goes t (l.at_ (.upgrade a inner.strong)))
  | .weakCount a weak => some (s.access a fun inner =>
    let s' := s.goes t ((l.addWeak a).at_ .idle)
    if inner.strong = 0 then s'.record (.counted 0)
    else (s'.check (weak ≠ 0)).record (.counted (weak - 1)))

def step (label : Thread × Action Thread T) : Option (State Thread T) :=
  let t := label.1
  let l := s.threads t
  if s.aborted then none else
  match label.2, l.pc with
  | .call c, .idle => call s t l c
  | .go spurious, pc => advance cloneValue s t l spurious pc
  | .write v, .borrowed a => some (s.access a fun inner =>
    (s.put a { inner with data := some v }).check (inner.data.isSome))
  | .release, .borrowed a => some (s.goes t ((l.addArc a).at_ .idle))
  | _, _ => none

/-- The counts of an allocation are below `MAX_REFCOUNT`. -/
def Slot.below : Slot T → Bool
  | .live inner =>
    inner.strong < maxRefcount ∧ (inner.weak < maxRefcount ∨ inner.weak = usizeMax)
  | _ => true

def State.below (s : State Thread T) : Bool := decide (∀ a < s.next, (s.heap a).below)

/-- The steps after which all counts are below `MAX_REFCOUNT`. -/
def counted (label : Thread × Action Thread T) : Option (State Thread T) :=
  (step cloneValue s label).filter State.below

end ArcCounting
