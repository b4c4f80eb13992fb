import BpfSysroot.Interleaving

/-!
# `Once`

The atomic steps of `std/src/sync/once.rs` for any number of threads. One word holds the
state in its low bits and the address of the first waiter above them; `usize` has 64 bits.
Waiters are on the stacks of their threads: a node is live from its creation to the end of
the iteration of `wait` that made it, and its address may be used again after that. Reading
a node that is gone, a failed assertion and an `unwrap` of `None` lead to `failed`.

A label names the thread that moves, and what the environment chooses: which function a
thread calls, how its closure ends, where its node is placed, whether `park` returns
spuriously. `pending` and `log` are ghosts: the nodes that are enqueued and not signaled,
and what happened so far.
-/

namespace Once

def incomplete : UInt64 := 0

def poisoned : UInt64 := 1

def running : UInt64 := 2

def complete : UInt64 := 3

def stateMask : UInt64 := 3

/-- How a closure ends; `OnceState::poison`, which only `call_once_force` offers, makes a
closure that returns leave the `Once` poisoned. -/
inductive Outcome where
  | returned
  | poisoned
  | panicked
deriving DecidableEq

/-- What a thread does next. -/
inductive PC (Thread : Type) where
  /-- not in a call -/
  | idle
  /-- the load of `is_completed` -/
  | isCompleted
  /-- a load of `call_inner` -/
  | load
  /-- the top of the loop of `call_inner` -/
  | top (stateAndQueue : UInt64)
  /-- inside the closure -/
  | init (poisoned : Bool)
  /-- the swap when the `WaiterQueue` is dropped -/
  | swap (setStateOnDropTo : UInt64)
  /-- the head of the loop over the waiters, which reads `next` -/
  | walk (queue : UInt64)
  /-- `thread.take()` -/
  | take (queue next : UInt64)
  /-- the store to `signaled` -/
  | signal (queue next : UInt64) (thread : Thread)
  | unpark (next : UInt64) (thread : Thread)
  /-- the head of the loop of `wait`, which makes a node -/
  | wait (currentState : UInt64)
  /-- the exchange in `wait` -/
  | enqueue (currentState me : UInt64)
  /-- the load of `signaled` -/
  | check (me : UInt64)
  | park (me : UInt64)
  | failed
deriving DecidableEq

/-- A thread: its place, the `ignore_poisoning` of its call, and whether it unwinds. -/
structure Local (Thread : Type) where
  pc : PC Thread
  force : Bool
  unwinding : Bool

structure Waiter (Thread : Type) where
  thread : Option Thread
  signaled : Bool
  next : UInt64

inductive Event (Thread : Type) where
  /-- a closure starts -/
  | started (t : Thread)
  /-- a closure ends -/
  | ended (t : Thread) (outcome : Outcome)
  /-- a call returns normally -/
  | callReturned (t : Thread) (force : Bool)
  /-- a call panics -/
  | callPanicked (t : Thread) (force : Bool)

structure State (Thread : Type) where
  word : UInt64
  mem : UInt64 → Option (Waiter Thread)
  locals : Thread → Local Thread
  token : Thread → Bool
  pending : List (Thread × UInt64)
  log : List (Event Thread)

/-- What a thread does, as far as it is not determined. -/
inductive Action where
  | call (force : Bool)
  | finish (outcome : Outcome)
  | create (me : UInt64)
  | wake
  | spurious
  | go

variable {Thread : Type} [DecidableEq Thread]

def init : State Thread where
  word := incomplete
  mem _ := none
  locals _ := ⟨.idle, false, false⟩
  token _ := false
  pending := []
  log := []

namespace State

section
variable (s : State Thread) (t : Thread)

def pc : PC Thread := (s.locals t).pc

def goto (pc : PC Thread) : State Thread :=
  { s with locals := Function.update s.locals t { s.locals t with pc := pc } }

/-- The call of a thread is over. -/
def leave : State Thread :=
  let l := s.locals t
  let event := if l.unwinding then .callPanicked t l.force else .callReturned t l.force
  { s.goto t .idle with log := s.log ++ [event] }

end

def store (s : State Thread) (a : UInt64) (node : Option (Waiter Thread)) : State Thread :=
  { s with mem := Function.update s.mem a node }

end State

/-- What is stored when the closure is over. -/
def setStateOnDropTo : Outcome → UInt64
  | .returned => complete
  | .poisoned => poisoned
  | .panicked => poisoned

section
variable (s : State Thread) (t : Thread)

/-- The loop of `call_inner` on a value of the word. -/
def callInner (cur : UInt64) : State Thread :=
  let force := (s.locals t).force
  if cur = complete then s.leave t
  else if cur = poisoned ∧ force = false then
    -- panic to propagate the poison
    { s.goto t .idle with log := s.log ++ [.callPanicked t force] }
  else if cur = poisoned ∨ cur = incomplete then
    if s.word = cur then
      { s.goto t (.init (cur == poisoned)) with word := running, log := s.log ++ [.started t] }
    else s.goto t (.top s.word)
  else if cur &&& stateMask = running then s.goto t (.wait cur)
  else s.goto t .failed

/-- The exchange in `wait`; a node that was not enqueued is dropped. -/
def tryEnqueue (cur me : UInt64) : State Thread :=
  if s.word = cur then
    { s.goto t (.check me) with word := me ||| running, pending := (t, me) :: s.pending }
  else (s.store me none).goto t (.wait s.word)

/-- The loop over the waiters, one access at a time. -/
def wakeWaiters : PC Thread → State Thread
  | .walk queue =>
    if queue = 0 then s.leave t
    else match s.mem queue with
      | some node => s.goto t (.take queue node.next)
      | none => s.goto t .failed
  | .take queue next =>
    match s.mem queue with
    | some node =>
      match node.thread with
      | some thread =>
        (s.store queue (some { node with thread := none })).goto t (.signal queue next thread)
      | none => s.goto t .failed
    | none => s.goto t .failed
  | .signal queue next thread =>
    match s.mem queue with
    | some node =>
      { (s.store queue (some { node with signaled := true })).goto t (.unpark next thread) with
        pending := s.pending.filter (·.2 ≠ queue) }
    | none => s.goto t .failed
  | .unpark next thread =>
    { s.goto t (.walk next) with token := Function.update s.token thread true }
  | _ => s

/-- One atomic step of a thread. -/
def act (action : Action) : Option (State Thread) :=
  match s.pc t, action with
  | .idle, .call force =>
    some { s with locals := Function.update s.locals t ⟨.isCompleted, force, false⟩ }
  | .isCompleted, .go => some (if s.word = complete then s.leave t else s.goto t .load)
  | .load, .go => some (s.goto t (.top s.word))
  | .top cur, .go => some (callInner s t cur)
  | .init _, .finish outcome =>
    -- the closure of `call_once` gets no `OnceState`
    if outcome = .poisoned ∧ (s.locals t).force = false then none
    else some
      { s with
        locals := Function.update s.locals t
          ⟨.swap (setStateOnDropTo outcome), (s.locals t).force, outcome == .panicked⟩
        log := s.log ++ [.ended t outcome] }
  | .swap setTo, .go =>
    if s.word &&& stateMask = running then
      some { s.goto t (.walk (s.word &&& ~~~stateMask)) with word := setTo }
    else some { s.goto t .failed with word := setTo }
  | .walk queue, .go => some (wakeWaiters s t (.walk queue))
  | .take queue next, .go => some (wakeWaiters s t (.take queue next))
  | .signal queue next thread, .go => some (wakeWaiters s t (.signal queue next thread))
  | .unpark next thread, .go => some (wakeWaiters s t (.unpark next thread))
  | .wait cur, .go => if cur &&& stateMask ≠ running then some (s.goto t .load) else none
  | .wait cur, .create me =>
    -- any place that is aligned and not in use
    if cur &&& stateMask = running ∧ me ≠ 0 ∧ me &&& stateMask = 0 ∧ (s.mem me).isNone then
      some ((s.store me (some ⟨some t, false, cur &&& ~~~stateMask⟩)).goto t (.enqueue cur me))
    else none
  | .enqueue cur me, .go => some (tryEnqueue s t cur me)
  | .check me, .go =>
    match s.mem me with
    | some node =>
      some (if node.signaled then (s.store me none).goto t .load else s.goto t (.park me))
    | none => some (s.goto t .failed)
  | .park me, .wake =>
    if s.token t then
      some { s.goto t (.check me) with token := Function.update s.token t false }
    else none
  | .park me, .spurious => some (s.goto t (.check me))
  | _, _ => none

end

def step (s : State Thread) (label : Thread × Action) : Option (State Thread) :=
  act s label.1 label.2

end Once
