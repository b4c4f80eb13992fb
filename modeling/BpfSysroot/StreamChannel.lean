import BpfSysroot.Interleaving

/-!
# Stream channels

A model of `std/src/sync/mpsc/stream.rs` for one sender, which sends and then drops its end, and
one receiver. A step of a party is one atomic operation with the local work after it. The queue
has one producer and one consumer, and a push or pop of it takes effect at one store or load, so
it is a list here; no message is an upgrade, since the sender is not cloned. Counters are `isize`
values, held as integers with the wraparound of `fetch_add` and `fetch_sub`. A node is at least
16 bytes long, so no queue has more than `maxNodes` of them: the allocation fails before. A
failed assertion sets `failed`, and `log` is a ghost.
-/

namespace StreamChannel

def disconnected : Int := -2 ^ 63

def maxSteals : Int := 2 ^ 20

def maxNodes : Nat := 2 ^ 60

/-- The value of an `isize` after wraparound. -/
def wrap (x : Int) : Int := x.bmod (2 ^ 64)

inductive Sender (T : Type) where
  | idle
  /-- `send`, before it looks at `port_dropped` -/
  | send (m : T)
  | push (m : T)
  /-- `do_send`, at its `fetch_add` -/
  | count
  /-- `take_to_wake`, in a send or in `drop_chan` -/
  | take (closing : Bool)
  | takeStore (closing : Bool) (ptr : Nat)
  | signal (closing : Bool) (token : Nat)
  /-- `do_send` after it saw `DISCONNECTED` -/
  | drainStore
  | drainFirst
  | drainSecond
  | dropChan
  | gone

/-- Who has called `try_recv`: the user, or `recv` for the first or second time. -/
inductive Caller where
  | tryRecv
  | first (deadline : Bool)
  | second (deadline timedOut : Bool)

inductive Receiver (T : Type) where
  | idle
  /-- the steps of `try_recv` -/
  | pop (c : Caller)
  | swap (c : Caller) (m : T)
  | restore (c : Caller) (m : T)
  | bump (c : Caller) (m : T) (amt : Int)
  | load (c : Caller)
  | again (c : Caller)
  /-- the steps of `decrement` -/
  | assertWake (deadline : Bool)
  | storeWake (deadline : Bool) (token : Nat)
  | sub (deadline : Bool) (token : Nat)
  | decRestore (deadline : Bool)
  | clearWake (deadline : Bool)
  | waiting (deadline : Bool) (token : Nat)
  /-- the steps of `abort_selection`, after the deadline has passed -/
  | abort (token : Nat)
  | abortRestore
  | abortCheck
  | abortTake
  | abortStore (ptr : Nat)
  | abortSpin

inductive Failure where
  | empty
  | disconnected

inductive Event (T : Type) where
  | rejected (m : T)
  | sent (m : T)
  | received (m : T)
  /-- a call returns `Empty`; `blocking` if it is a `recv` without a deadline -/
  | empty (blocking : Bool)
  | disconnected
  deriving DecidableEq

structure State (T : Type) where
  queue : List T
  cnt : Int
  /-- the token to wake up, or 0 -/
  toWake : Nat
  portDropped : Bool
  steals : Int
  woken : Nat → Bool
  fresh : Nat
  sender : Sender T
  receiver : Receiver T
  failed : Bool
  log : List (Event T)

inductive SenderAction (T : Type) where
  | send (m : T)
  | dropChan
  | go

inductive ReceiverAction where
  | tryRecv
  | recv (deadline : Bool)
  | timeout
  | go

inductive Label (T : Type) where
  | sender (action : SenderAction T)
  | receiver (action : ReceiverAction)

variable {T : Type}

def init : State T where
  queue := []
  cnt := 0
  toWake := 0
  portDropped := false
  steals := 0
  woken _ := false
  fresh := 1
  sender := .idle
  receiver := .idle
  failed := false
  log := []

namespace State

def record (s : State T) (event : Event T) : State T := { s with log := s.log ++ [event] }

def check (s : State T) (p : Prop) [Decidable p] : State T :=
  if p then s else { s with failed := true }

end State

variable (s : State T)

def senderGo : Sender T → Option (State T)
  | .idle | .gone => none
  | .send m =>
    if s.portDropped then some { s.record (.rejected m) with sender := .idle }
    else some { s with sender := .push m }
  | .push m =>
    if s.queue.length < maxNodes then
      some { s.record (.sent m) with queue := s.queue ++ [m], sender := .count }
    else none
  | .count =>
    let s' := { s with cnt := wrap (s.cnt + 1) }
    if s.cnt = -1 then some { s' with sender := .take false }
    else if s.cnt = -2 then some { s' with sender := .idle }
    else if s.cnt = disconnected then some { s' with sender := .drainStore }
    else some ({ s' with sender := .idle }.check (0 ≤ s.cnt))
  | .take closing => some { s with sender := .takeStore closing s.toWake }
  | .takeStore closing ptr =>
    some ({ s with toWake := 0, sender := .signal closing ptr }.check (ptr ≠ 0))
  | .signal closing token =>
    some
      { s with
        woken := Function.update s.woken token true
        sender := if closing then .gone else .idle }
  | .drainStore => some { s with cnt := disconnected, sender := .drainFirst }
  | .drainFirst => some { s with queue := s.queue.tail, sender := .drainSecond }
  | .drainSecond =>
    some ({ s with queue := s.queue.tail, sender := .idle }.check (s.queue.length = 0))
  | .dropChan =>
    let s' := { s with cnt := disconnected }
    if s.cnt = -1 then some { s' with sender := .take true }
    else if s.cnt = disconnected then some { s' with sender := .gone }
    else some ({ s' with sender := .gone }.check (0 ≤ s.cnt))

/-- `try_recv` returns a message. -/
def received (c : Caller) (m : T) : State T :=
  let s := { s.record (.received m) with receiver := .idle }
  match c with
  | .tryRecv | .first _ => s
  | .second _ _ => { s with steals := s.steals - 1 }

/-- `try_recv` returns an error. -/
def returned (c : Caller) (failure : Failure) : State T :=
  match c, failure with
  | .first deadline, .empty => { s with receiver := .assertWake deadline }
  | .tryRecv, .empty => { s.record (.empty false) with receiver := .idle }
  | .second deadline _, .empty => { s.record (.empty (!deadline)) with receiver := .idle }
  | _, .disconnected => { s.record .disconnected with receiver := .idle }

def receiverGo : Receiver T → Option (State T)
  | .idle => none
  | .pop c =>
    match s.queue with
    | [] => some { s with receiver := .load c }
    | m :: queue =>
      if maxSteals < s.steals then some { s with queue := queue, receiver := .swap c m }
      else some (received { s with queue := queue, steals := s.steals + 1 } c m)
  | .swap c m =>
    if s.cnt = disconnected then some { s with cnt := 0, receiver := .restore c m }
    else
      let k := min s.cnt s.steals
      some { s with cnt := 0, steals := s.steals - k, receiver := .bump c m (s.cnt - k) }
  | .restore c m =>
    let s' := { s with cnt := disconnected, steals := s.steals + 1 }
    some (received (s'.check (0 ≤ s.steals)) c m)
  | .bump c m amt =>
    let s' := { s with cnt := wrap (s.cnt + amt) }
    if s.cnt = disconnected then some { s' with receiver := .restore c m }
    else some (received ({ s' with steals := s.steals + 1 }.check (0 ≤ s.steals)) c m)
  | .load c =>
    if s.cnt ≠ disconnected then some (returned s c .empty)
    else some { s with receiver := .again c }
  | .again c =>
    match s.queue with
    | [] => some (returned s c .disconnected)
    | m :: queue => some (received { s with queue := queue } c m)
  | .assertWake deadline =>
    some
      ({ s with fresh := s.fresh + 1, receiver := .storeWake deadline s.fresh }.check
        (s.toWake = 0))
  | .storeWake deadline token => some { s with toWake := token, receiver := .sub deadline token }
  | .sub deadline token =>
    let s' := { s with steals := 0, cnt := wrap (s.cnt - (1 + s.steals)) }
    if s.cnt = disconnected then some { s' with receiver := .decRestore deadline }
    else if s.cnt - s.steals ≤ 0 then
      some ({ s' with receiver := .waiting deadline token }.check (0 ≤ s.cnt))
    else some ({ s' with receiver := .clearWake deadline }.check (0 ≤ s.cnt))
  | .decRestore deadline => some { s with cnt := disconnected, receiver := .clearWake deadline }
  | .clearWake deadline => some { s with toWake := 0, receiver := .pop (.second deadline false) }
  | .waiting deadline token =>
    if s.woken token then some { s with receiver := .pop (.second deadline false) } else none
  | .abort _ =>
    let s' := { s with cnt := wrap (s.cnt + 2) }
    if s.cnt = disconnected then some { s' with receiver := .abortRestore }
    else if s.cnt < 0 then some ({ s' with receiver := .abortTake }.check (0 ≤ s.cnt + 2))
    else some ({ s' with receiver := .abortSpin }.check (0 ≤ s.cnt + 2))
  | .abortRestore => some { s with cnt := disconnected, receiver := .abortCheck }
  | .abortCheck => some ({ s with receiver := .pop (.second true true) }.check (s.toWake = 0))
  | .abortTake => some { s with receiver := .abortStore s.toWake }
  | .abortStore ptr =>
    some
      ({ s with toWake := 0, steals := 1, receiver := .pop (.second true true) }.check
        (ptr ≠ 0 ∧ s.steals = 0))
  | .abortSpin =>
    if s.toWake ≠ 0 then some s
    else some ({ s with steals := 1, receiver := .pop (.second true true) }.check (s.steals = 0))

def step : Label T → Option (State T)
  | .sender action =>
    match s.sender, action with
    | .idle, .send m => some { s with sender := .send m }
    | .idle, .dropChan => some { s with sender := .dropChan }
    | pc, .go => senderGo s pc
    | _, _ => none
  | .receiver action =>
    match s.receiver, action with
    | .idle, .tryRecv => some { s with receiver := .pop .tryRecv }
    | .idle, .recv deadline => some { s with receiver := .pop (.first deadline) }
    | .waiting deadline token, .timeout =>
      if deadline ∧ s.woken token = false then some { s with receiver := .abort token } else none
    | pc, .go => receiverGo s pc
    | _, _ => none

/-- The two steps that are not taken: `abort_selection` finds the channel disconnected while
`drop_chan` has not cleared `to_wake` yet, and a call whose deadline has passed takes a message
from a connected channel. -/
def meets : Label T → Bool
  | .receiver .go =>
    match s.receiver with
    | .abort _ => s.cnt ≠ disconnected ∨ s.toWake = 0
    | .pop (.second _ true) => s.queue.isEmpty ∨ s.cnt = disconnected
    | _ => true
  | _ => true

def guarded (label : Label T) : Option (State T) :=
  if meets s label then step s label else none

end StreamChannel
