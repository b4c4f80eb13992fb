import BpfSysroot.StreamChannel

/-!
# The invariant of a stream channel

While the channel is connected, the counter is the number of steals and of messages in the
queue, up to a term for where each party is: the sender counts a message after it has pushed it,
and the receiver takes one off before it sleeps. The counter is negative only while the receiver
sleeps and nobody is about to wake it. The steps of the sender keep all this.
-/

namespace StreamChannel

open Interleaving List

variable {T : Type}

namespace Sender

/-- `drop_chan` has disconnected the channel. -/
def closed : Sender T → Bool
  | .take closing | .takeStore closing _ | .signal closing _ => closing
  | .gone => true
  | _ => false

/-- A message is pushed and not counted. -/
def pending : Sender T → Int
  | .count => 1
  | _ => 0

/-- About to clear `to_wake`. -/
def waking : Sender T → Bool
  | .take _ | .takeStore _ _ => true
  | _ => false

end Sender

def Caller.isSecond : Caller → Bool
  | .second _ _ => true
  | _ => false

/-- `recv` takes a steal off after its second `try_recv`. -/
def Caller.offset : Caller → Int
  | .second _ _ => 1
  | _ => 0

namespace Receiver

/-- The message that was popped and not returned yet. -/
def hand : Receiver T → Option T
  | .swap _ m | .restore _ m | .bump _ m _ => some m
  | _ => none

/-- What the counter is below the steals and the messages. -/
def owed : Receiver T → Int
  | .swap _ _ => -1
  | .bump _ _ amt => amt - 1
  | .pop (.second _ false) | .waiting _ _ | .abort _ | .clearWake _ => 1
  | .abortTake | .abortStore _ | .abortSpin => -1
  | _ => 0

/-- About to store `DISCONNECTED` again. -/
def restores : Receiver T → Bool
  | .restore _ _ | .decRestore _ | .abortRestore => true
  | _ => false

end Receiver

/-- Nobody is about to wake a receiver, and none has to be woken. -/
structure Free (s : State T) : Prop where
  waking : s.sender.waking = false
  cnt : s.sender.closed = false → 0 ≤ s.cnt

structure Awake (s : State T) : Prop extends Free s where
  toWake : s.toWake = 0

/-- The token is not known to the sender. -/
structure Unused (s : State T) (token : Nat) : Prop where
  positive : token ≠ 0
  below : token < s.fresh
  asleep : s.woken token = false
  unsignaled : ∀ closing, s.sender ≠ .signal closing token

/-- The receiver is to be woken, is being woken, or was woken. -/
inductive Waits (s : State T) (token : Nat) : Prop where
  | asleep (unused : Unused s token) (toWake : s.toWake = token)
      (connected : s.sender.closed = false) (quiet : s.sender.waking = false) (cnt : s.cnt < 0)
  | waking (unused : Unused s token) (toWake : s.toWake = token)
      (waking : s.sender.waking) (cnt : s.sender.closed = false → 0 ≤ s.cnt)
  | awake (awake : Awake s)

/-- What holds where the receiver is. -/
def Place (s : State T) : Receiver T → Prop
  | .idle | .pop .tryRecv | .pop (.first _) | .load .tryRecv | .load (.first _)
  | .assertWake _ => Awake s
  | .pop (.second _ false) => Awake s ∧ s.steals = 0
  | .pop (.second deadline true) => Awake s ∧ s.steals ≤ 1 ∧ deadline
  | .load (.second _ false) => Awake s ∧ s.sender.closed
  | .load (.second deadline true) => Awake s ∧ deadline
  | .again _ => Awake s ∧ s.sender.closed
  | .swap c _ => Awake s ∧ c.isSecond = false ∧ maxSteals < s.steals
  | .restore _ _ => Awake s ∧ s.sender.closed ∧ 0 ≤ s.steals
  | .bump c _ amt => Awake s ∧ c.isSecond = false ∧ s.steals = 0 ∧ 0 ≤ amt
  | .storeWake _ token => Awake s ∧ Unused s token
  | .sub _ token => Free s ∧ Unused s token ∧ s.toWake = token
  | .decRestore _ => Free s ∧ s.sender.closed ∧ s.steals = 0
  | .clearWake _ => Free s ∧ s.steals = 0
  | .waiting _ token | .abort token => s.steals = 0 ∧ Waits s token
  | .abortRestore | .abortCheck => Awake s ∧ s.sender.closed ∧ s.steals = 0
  | .abortTake => Free s ∧ s.toWake ≠ 0 ∧ s.steals = 0
  | .abortStore ptr => Free s ∧ ptr ≠ 0 ∧ s.steals = 0
  | .abortSpin => s.steals = 0 ∧ (s.sender.closed = false → 0 ≤ s.cnt) ∧
      (s.toWake = 0 → s.sender.waking = false)

/-- What holds where the sender is. -/
def Sends (s : State T) : Sender T → Prop
  | .takeStore _ ptr => s.toWake = ptr
  | .signal _ token => token < s.fresh
  | .drainStore | .drainFirst | .drainSecond => False
  | _ => True

def sent (log : List (Event T)) : List T := log.filterMap fun
  | .sent m => some m
  | _ => none

def receivedMessages (log : List (Event T)) : List T := log.filterMap fun
  | .received m => some m
  | _ => none

structure Inv (s : State T) : Prop where
  sound : s.failed = false
  open_ : s.portDropped = false
  connected : s.sender.closed = false →
    s.cnt = s.steals + s.queue.length - s.sender.pending - s.receiver.owed
  closed : s.sender.closed → s.receiver.restores = false → s.cnt = disconnected
  steals : s.sender.closed = false → 0 ≤ s.steals ∧ s.steals ≤ maxSteals + 1
  nodes : s.queue.length ≤ maxNodes
  fresh : s.toWake < s.fresh ∧ ∀ token, s.fresh ≤ token → s.woken token = false
  sends : Sends s s.sender
  place : Place s s.receiver
  fifo : sent s.log = receivedMessages s.log ++ s.receiver.hand.toList ++ s.queue
  blocking : .empty true ∉ s.log

variable {s s' : State T}
variable {r : Receiver T} {cnt : Int} {closing : Bool}

lemma wrap_eq {x : Int} (low : -2 ^ 63 ≤ x) (high : x < 2 ^ 63) : wrap x = x :=
  Int.bmod_eq_of_le (by omega) (by omega)

lemma pending_bounds (pc : Sender T) : 0 ≤ pc.pending ∧ pc.pending ≤ 1 := by
  cases pc <;> simp [Sender.pending]

lemma Place.owed (place : Place s r) : -1 ≤ r.owed := by
  cases r with
  | bump c m amt =>
    have positive := place.2.2.2
    simp only [Receiver.owed]
    omega
  | pop c => rcases c with _ | _ | ⟨_, _ | _⟩ <;> simp [Receiver.owed]
  | _ => simp [Receiver.owed]

lemma closed_elim {pc : Sender T} {p : Prop} (shut : pc.closed)
    (open_ : pc.closed = false) : p := by
  cases open_.symm.trans shut

/-- While the channel is connected, the counter is small. -/
lemma Inv.small (inv : Inv s) (connected : s.sender.closed = false) : s.cnt < 2 ^ 62 := by
  have count := inv.connected connected
  have steals := inv.steals connected
  have nodes := inv.nodes
  have pending := pending_bounds s.sender
  have owed := inv.place.owed
  simp only [maxSteals, maxNodes] at steals nodes
  omega

/-- The sender moves, and the receiver is where it was. -/
lemma Place.sender (place : Place s r) (steals : s'.steals = s.steals)
    (closed : s.sender.closed → s'.sender.closed)
    (free : Free s → Free s' ∧ s'.toWake = s.toWake ∧ ∀ token, Unused s token → Unused s' token)
    (waits : ∀ token, Waits s token → Waits s' token)
    (spin : (s.sender.closed = false → 0 ≤ s.cnt) → (s.toWake = 0 → s.sender.waking = false) →
      (s'.sender.closed = false → 0 ≤ s'.cnt) ∧ (s'.toWake = 0 → s'.sender.waking = false)) :
    Place s' r := by
  have awake : Awake s → Awake s' := fun awake =>
    { toFree := (free awake.toFree).1, toWake := (free awake.toFree).2.1.trans awake.toWake }
  cases r with
  | idle | assertWake => exact awake place
  | pop c =>
    rcases c with _ | _ | ⟨_, _ | _⟩
    · exact awake place
    · exact awake place
    · exact ⟨awake place.1, steals.trans place.2⟩
    · exact ⟨awake place.1, steals ▸ place.2.1, place.2.2⟩
  | load c =>
    rcases c with _ | _ | ⟨_, _ | _⟩
    · exact awake place
    · exact awake place
    · exact ⟨awake place.1, closed place.2⟩
    · exact ⟨awake place.1, place.2⟩
  | again => exact ⟨awake place.1, closed place.2⟩
  | swap => exact ⟨awake place.1, place.2.1, steals ▸ place.2.2⟩
  | restore => exact ⟨awake place.1, closed place.2.1, steals ▸ place.2.2⟩
  | bump => exact ⟨awake place.1, place.2.1, steals.trans place.2.2.1, place.2.2.2⟩
  | storeWake _ token => exact ⟨awake place.1, (free place.1.toFree).2.2 token place.2⟩
  | sub _ token =>
    exact ⟨(free place.1).1, (free place.1).2.2 token place.2.1, (free place.1).2.1.trans place.2.2⟩
  | decRestore => exact ⟨(free place.1).1, closed place.2.1, steals.trans place.2.2⟩
  | clearWake => exact ⟨(free place.1).1, steals.trans place.2⟩
  | waiting _ token | abort token => exact ⟨steals.trans place.1, waits token place.2⟩
  | abortRestore | abortCheck => exact ⟨awake place.1, closed place.2.1, steals.trans place.2.2⟩
  | abortTake =>
    exact ⟨(free place.1).1, (free place.1).2.1 ▸ place.2.1, steals.trans place.2.2⟩
  | abortStore => exact ⟨(free place.1).1, place.2.1, steals.trans place.2.2⟩
  | abortSpin => exact ⟨steals.trans place.1, spin place.2.1 place.2.2⟩

/-- The receiver is not asleep, or waits. -/
lemma Place.kinds (place : Place s r) :
    Free s ∨ (∃ token, s.steals = 0 ∧ r.owed = 1 ∧ Waits s token) ∨
      (s.sender.closed = false → 0 ≤ s.cnt) ∧ (s.toWake = 0 → s.sender.waking = false) := by
  cases r with
  | idle | assertWake => exact .inl place.toFree
  | pop c | load c =>
    rcases c with _ | _ | ⟨_, _ | _⟩
    · exact .inl place.toFree
    · exact .inl place.toFree
    · exact .inl place.1.toFree
    · exact .inl place.1.toFree
  | again | swap | restore | bump | storeWake | abortRestore | abortCheck =>
    exact .inl place.1.toFree
  | sub | decRestore | clearWake | abortTake | abortStore => exact .inl place.1
  | waiting _ token | abort token => exact .inr (.inl ⟨token, place.1, rfl, place.2⟩)
  | abortSpin => exact .inr (.inr place.2)

variable (inv : Inv s)
include inv

/-- A sender that is about to wake somebody finds the token. -/
lemma Inv.toWake_ne (waking : s.sender.waking) : s.toWake ≠ 0 := by
  have busy {p : Prop} (quiet : s.sender.waking = false) : p := by
    rw [waking] at quiet
    cases quiet
  rcases inv.place.kinds with free | ⟨token, -, -, waits⟩ | ⟨-, spin⟩
  · exact busy free.waking
  · cases waits with
    | asleep _ _ _ quiet => exact busy quiet
    | waking unused toWake => exact toWake ▸ unused.positive
    | awake awake => exact busy awake.waking
  · exact fun zero => busy (spin zero)

/-- The counter is negative only while the receiver is asleep. -/
lemma Inv.cnt_cases (connected : s.sender.closed = false) :
    0 ≤ s.cnt ∨ s.cnt = s.queue.length - s.sender.pending - 1 := by
  have count := inv.connected connected
  rcases inv.place.kinds with free | ⟨token, steals, owed, -⟩ | ⟨spin, -⟩
  · exact .inl (free.cnt connected)
  · omega
  · exact .inl (spin connected)

/-- What the invariant says where the sender is, while the channel is connected. -/
lemma Inv.at_sender {pc : Sender T} (at_pc : s.sender = pc) (open_ : pc.closed = false) :
    s.cnt = s.steals + s.queue.length - pc.pending - s.receiver.owed ∧
      (0 ≤ s.cnt ∨ s.cnt = s.queue.length - pc.pending - 1) ∧ s.cnt < 2 ^ 62 := by
  subst at_pc
  exact ⟨inv.connected open_, inv.cnt_cases open_, inv.small open_⟩

/-- The sender moves on a connected channel, and wakes nobody. -/
lemma Inv.quiet {old : Sender T} (at_pc : s.sender = old) (pc : Sender T)
    {queue : List T} {log : List (Event T)} (open_ : old.closed = false)
    (open' : pc.closed = false) (quiet : old.waking = false) (quiet' : pc.waking = false)
    (unsignaled : ∀ closing token, pc ≠ .signal closing token) (sends : Sends s pc)
    (sign : 0 ≤ cnt ↔ 0 ≤ s.cnt)
    (count : cnt = s.steals + queue.length - pc.pending - s.receiver.owed)
    (nodes : queue.length ≤ maxNodes)
    (fifo : sent log = receivedMessages log ++ s.receiver.hand.toList ++ queue)
    (blocking : .empty true ∉ log) :
    Inv { s with sender := pc, cnt := cnt, queue := queue, log := log } := by
  subst at_pc
  have unused {token : Nat} (unused : Unused s token) :
      Unused { s with sender := pc, cnt := cnt, queue := queue, log := log } token :=
    ⟨unused.positive, unused.below, unused.asleep, fun closing => unsignaled closing token⟩
  have free (free : Free s) :
      Free { s with sender := pc, cnt := cnt, queue := queue, log := log } :=
    ⟨quiet', fun _ => sign.mpr (free.cnt open_)⟩
  refine { inv with
    connected := fun _ => count, closed := fun shut => closed_elim shut open',
    steals := fun _ => inv.steals open_, nodes := nodes, sends := ?_, place := ?_, fifo := fifo,
    blocking := blocking }
  · cases pc <;> exact sends
  · refine inv.place.sender rfl (fun shut => closed_elim shut open_)
      (fun old => ⟨free old, rfl, fun _ => unused⟩) ?_ ?_
    · intro token waits
      cases waits with
      | asleep unused' toWake _ _ negative =>
        refine .asleep (unused unused') toWake open' quiet' ?_
        exact Int.not_le.mp fun positive => Int.not_le.mpr negative (sign.mp positive)
      | waking _ _ waking => cases quiet.symm.trans waking
      | awake awake => exact .awake ⟨free awake.toFree, awake.toWake⟩
    · exact fun positive _ => ⟨fun _ => sign.mpr (positive open_), fun _ => quiet'⟩

lemma Inv.wakes {old : Sender T} (at_pc : s.sender = old)
    (open_ : old.closed = false) (quiet : old.waking = false) (asleep : s.cnt = -1)
    (counted : closing = false → cnt = 0 ∧ old.pending = 1)
    (closed : closing → cnt = disconnected) :
    Inv { s with sender := .take closing, cnt := cnt } := by
  subst at_pc
  have negative {p : Prop} (positive : s.sender.closed = false → 0 ≤ s.cnt) : p := by
    have positive := positive open_
    omega
  refine { inv with
    connected := fun connected => ?_, closed := fun closing _ => closed closing,
    steals := fun _ => inv.steals open_, sends := trivial, place := ?_ }
  · obtain ⟨zero, pending⟩ := counted connected
    have count := inv.connected open_
    change cnt = s.steals + s.queue.length - 0 - s.receiver.owed
    omega
  · refine inv.place.sender rfl (fun shut => closed_elim shut open_)
      (fun free => negative free.cnt) ?_ (fun positive _ => negative positive)
    intro token waits
    cases waits with
    | asleep unused toWake =>
      refine .waking ⟨unused.positive, unused.below, unused.asleep, nofun⟩ toWake rfl ?_
      intro connected
      exact Int.le_of_eq (counted connected).1.symm
    | waking _ _ waking => cases quiet.symm.trans waking
    | awake awake => exact negative awake.cnt

lemma Inv.take (at_pc : s.sender = .take closing) :
    Inv { s with sender := .takeStore closing s.toWake } := by
  obtain ⟨⟩ := s
  cases at_pc
  refine { inv with sends := rfl, place := ?_ }
  refine inv.place.sender rfl id (fun free => nomatch free.waking) ?_ And.intro
  intro token waits
  cases waits with
  | asleep _ _ _ quiet => cases quiet
  | waking unused toWake _ cnt =>
    exact .waking ⟨unused.positive, unused.below, unused.asleep, nofun⟩ toWake rfl cnt
  | awake awake => cases awake.waking

lemma Inv.takeStore {ptr : Nat} (at_pc : s.sender = .takeStore closing ptr) :
    Inv ({ s with toWake := 0, sender := .signal closing ptr }.check (ptr ≠ 0)) := by
  obtain ⟨_, _, toWake, _⟩ := s
  cases at_pc
  obtain rfl : toWake = ptr := inv.sends
  rw [State.check, if_pos (inv.toWake_ne rfl)]
  refine { inv with
    fresh := ⟨Nat.zero_lt_of_lt inv.fresh.1, inv.fresh.2⟩, sends := inv.fresh.1, place := ?_ }
  refine inv.place.sender rfl id (fun free => nomatch free.waking) ?_ ?_
  · intro token waits
    cases waits with
    | asleep _ _ _ quiet => cases quiet
    | waking _ _ _ cnt => exact .awake ⟨⟨rfl, cnt⟩, rfl⟩
    | awake awake => cases awake.waking
  · exact fun positive _ => ⟨positive, fun _ => rfl⟩

lemma Inv.signal {token : Nat} {pc : Sender T}
    (at_pc : s.sender = .signal closing token) (after : pc = if closing then .gone else .idle) :
    Inv { s with woken := Function.update s.woken token true, sender := pc } := by
  obtain ⟨closed, pending⟩ : pc.closed = s.sender.closed ∧ pc.pending = s.sender.pending := by
    rw [at_pc, after]
    cases closing <;> exact ⟨rfl, rfl⟩
  obtain ⟨quiet, unsignaled⟩ : pc.waking = false ∧ ∀ c t, pc ≠ .signal c t := by
    rw [after]
    cases closing <;> exact ⟨rfl, nofun⟩
  have unused {t : Nat} (unused : Unused s t) :
      Unused { s with woken := Function.update s.woken token true, sender := pc } t := by
    refine ⟨unused.positive, unused.below, ?_, fun c => unsignaled c t⟩
    have other : t ≠ token := fun same => unused.unsignaled closing (same ▸ at_pc)
    exact (Function.update_of_ne other ..).trans unused.asleep
  have free (free : Free s) :
      Free { s with woken := Function.update s.woken token true, sender := pc } :=
    ⟨quiet, fun connected => free.cnt (closed ▸ connected)⟩
  refine { inv with
    connected := fun connected => ?_, closed := fun shut => inv.closed (closed ▸ shut),
    steals := fun connected => inv.steals (closed ▸ connected),
    fresh := ⟨inv.fresh.1, fun t above => ?_⟩, sends := ?_, place := ?_ }
  · have count := inv.connected (closed ▸ connected)
    rw [← pending] at count
    exact count
  · have below := inv.sends
    rw [at_pc] at below
    have other : t ≠ token := by
      rintro rfl
      exact not_le.mpr below above
    exact (Function.update_of_ne other ..).trans (inv.fresh.2 t above)
  · rw [after]
    cases closing <;> trivial
  · refine inv.place.sender rfl closed.trans
      (fun old => ⟨free old, rfl, fun _ => unused⟩) ?_ ?_
    · intro t waits
      cases waits with
      | asleep unused' toWake connected _ cnt =>
        exact .asleep (unused unused') toWake (closed.trans connected) quiet cnt
      | waking _ _ waking =>
        rw [at_pc] at waking
        cases waking
      | awake awake => exact .awake ⟨free awake.toFree, awake.toWake⟩
    · exact fun positive _ => ⟨fun connected => positive (closed ▸ connected), fun _ => quiet⟩

/-- The sender disconnects the channel while the receiver is awake. -/
lemma Inv.closes (at_pc : s.sender = .dropChan) (positive : 0 ≤ s.cnt) :
    Inv { s with cnt := disconnected, sender := .gone } := by
  refine { inv with
    connected := nofun, closed := fun _ _ => rfl, steals := nofun, sends := trivial, place := ?_ }
  refine inv.place.sender rfl (fun _ => rfl) (fun old => ⟨⟨rfl, nofun⟩, rfl, fun t unused => ?_⟩) ?_
    fun _ _ => ⟨nofun, fun _ => rfl⟩
  · exact ⟨unused.positive, unused.below, unused.asleep, nofun⟩
  · intro t waits
    cases waits with
    | asleep _ _ _ _ cnt => exact absurd positive (Int.not_le.mpr cnt)
    | waking _ _ waking =>
      rw [at_pc] at waking
      cases waking
    | awake awake => exact .awake ⟨⟨rfl, nofun⟩, awake.toWake⟩

lemma Inv.count (at_pc : s.sender = .count)
    (done : StreamChannel.senderGo s .count = some s') : Inv s' := by
  obtain ⟨count, cases', small⟩ := inv.at_sender at_pc rfl
  rw [Sender.pending] at count cases'
  have value : wrap (s.cnt + 1) = s.cnt + 1 := wrap_eq (by omega) (by omega)
  have counted (sign : s.cnt = -2 ∨ 0 ≤ s.cnt) :
      Inv { s with cnt := s.cnt + 1, sender := .idle } := by
    refine inv.quiet at_pc .idle rfl rfl rfl rfl nofun trivial (by omega) ?_ inv.nodes inv.fifo
      inv.blocking
    change _ = _ - 0 - _
    omega
  unfold StreamChannel.senderGo at done
  dsimp only at done
  rw [value] at done
  split at done
  next asleep =>
    cases done
    exact inv.wakes at_pc rfl rfl asleep (fun _ => ⟨by omega, rfl⟩) nofun
  split at done
  next two =>
    cases done
    exact counted (.inl two)
  split at done
  next shut =>
    rw [disconnected] at shut
    omega
  · cases done
    have positive : 0 ≤ s.cnt := by
      omega
    rw [State.check, if_pos positive]
    exact counted (.inr positive)

lemma Inv.senderGo (done : senderGo s s.sender = some s') : Inv s' := by
  generalize at_pc : s.sender = pc at done
  cases pc with
  | idle | gone => cases done
  | send m =>
    rw [StreamChannel.senderGo, if_neg (by simp [inv.open_])] at done
    cases done
    exact inv.quiet at_pc (.push m) rfl rfl rfl rfl nofun trivial Iff.rfl
      (inv.at_sender at_pc rfl).1 inv.nodes inv.fifo inv.blocking
  | push m =>
    rw [StreamChannel.senderGo] at done
    split at done
    next room =>
      cases done
      obtain ⟨count, -⟩ := inv.at_sender at_pc rfl
      refine inv.quiet at_pc .count rfl rfl rfl rfl nofun trivial Iff.rfl ?_ ?_ ?_ ?_
      · change s.cnt = s.steals + s.queue.length - 0 - s.receiver.owed at count
        change s.cnt = s.steals + (s.queue ++ [m]).length - 1 - s.receiver.owed
        rw [length_append, length_singleton]
        omega
      · rw [length_append]
        exact room
      · have fifo := inv.fifo
        simp only [State.record, sent, receivedMessages, filterMap_append] at fifo ⊢
        rw [fifo]
        simp
      · simp [State.record, inv.blocking]
    · cases done
  | count => exact inv.count at_pc done
  | take closing =>
    cases done
    exact inv.take at_pc
  | takeStore closing ptr =>
    cases done
    exact inv.takeStore at_pc
  | signal closing token =>
    cases done
    exact inv.signal at_pc rfl
  | drainStore | drainFirst | drainSecond =>
    have sends := inv.sends
    rw [at_pc] at sends
    exact sends.elim
  | dropChan =>
    obtain ⟨-, cases', -⟩ := inv.at_sender at_pc rfl
    change 0 ≤ s.cnt ∨ s.cnt = s.queue.length - 0 - 1 at cases'
    unfold StreamChannel.senderGo at done
    dsimp only at done
    split at done
    next asleep =>
      cases done
      exact inv.wakes at_pc rfl rfl asleep nofun fun _ => rfl
    split at done
    next shut =>
      rw [disconnected] at shut
      omega
    · cases done
      rw [State.check, if_pos (by omega)]
      exact inv.closes at_pc (by omega)

end StreamChannel
