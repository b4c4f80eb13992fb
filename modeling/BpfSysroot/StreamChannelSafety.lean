import BpfSysroot.StreamChannelInvariant

/-!
# What holds in every run of a stream channel

The steps of the receiver keep the invariant, except for two that a `recv` with a deadline can
come to. One fails an assertion, and after the other a `recv` without a deadline finds nothing.
-/

namespace StreamChannel

open Interleaving List

variable {T : Type} {s s' : State T}
variable {queue : List T} {cnt steals : Int} {toWake token : Nat} {m : T} {c : Caller}
  {deadline : Bool}

lemma sent_received (log : List (Event T)) (m : T) :
    sent (log ++ [.received m]) = sent log ∧
      receivedMessages (log ++ [.received m]) = receivedMessages log ++ [m] := by
  constructor
  · rw [sent, filterMap_append]
    exact append_nil _
  · rw [receivedMessages, filterMap_append]
    rfl

lemma received_eq (s : State T) (c : Caller) (m : T) : received s c m = { s with
    steals := s.steals - c.offset, receiver := .idle, log := s.log ++ [.received m] } := by
  cases c with
  | tryRecv | first => simp [received, State.record, Caller.offset]
  | second => rfl

lemma Caller.offset_of_first (first : c.isSecond = false) : c.offset = 0 := by
  cases c with
  | tryRecv | first => rfl
  | second => cases first

lemma Free.closed_of_cnt (free : Free s) (shut : s.cnt = disconnected) :
    s.sender.closed := by
  by_contra open_
  have positive := free.cnt (Bool.eq_false_iff.mpr open_)
  rw [shut, disconnected] at positive
  omega

/-- What a call begins with finds the receiver awake. -/
lemma Place.awake (place : Place s (.pop c) ∨ Place s (.load c)) : Awake s := by
  rcases c with _ | _ | ⟨_, _ | _⟩
  · exact place.elim id id
  · exact place.elim id id
  · exact place.elim And.left And.left
  · exact place.elim And.left And.left

/-- The receiver does not touch what it is awake by. -/
lemma Awake.moved (awake : Awake s) {queue : List T} {steals : Int} {fresh : Nat}
    {receiver : Receiver T} {log : List (Event T)} :
    Awake { s with
      queue := queue, steals := steals, fresh := fresh, receiver := receiver, log := log } :=
  ⟨⟨awake.waking, awake.cnt⟩, awake.toWake⟩

section
variable (inv : Inv s) {pc receiver : Receiver T} (at_pc : s.receiver = pc)
include inv

lemma Inv.moves {fresh : Nat} {log : List (Event T)}
    (connected : s.sender.closed = false →
      cnt = steals + queue.length - s.sender.pending - receiver.owed)
    (closed : s.sender.closed → receiver.restores = false → cnt = disconnected)
    (bounds : s.sender.closed = false → 0 ≤ steals ∧ steals ≤ maxSteals + 1)
    (toWake_lt : toWake < fresh)
    (place : Place { s with queue := queue, cnt := cnt, toWake := toWake, steals := steals,
                            fresh := fresh, receiver := receiver, log := log } receiver)
    (fifo : sent log = receivedMessages log ++ receiver.hand.toList ++ queue)
    (blocking : .empty true ∉ log)
    (busy : s.sender.waking → toWake = s.toWake) (nodes : queue.length ≤ s.queue.length)
    (grows : s.fresh ≤ fresh) :
    Inv { s with
      queue := queue, cnt := cnt, toWake := toWake, steals := steals, fresh := fresh,
      receiver := receiver, log := log } := by
  refine { inv with
    connected := connected, closed := closed, steals := bounds,
    nodes := le_trans nodes inv.nodes,
    fresh := ⟨toWake_lt, fun token above => inv.fresh.2 token (le_trans grows above)⟩,
    sends := ?_, place := place, fifo := fifo, blocking := blocking }
  have sends := inv.sends
  cases at_pc : s.sender with
  | takeStore closing ptr =>
    rw [at_pc] at busy sends
    exact (busy rfl).trans sends
  | signal closing token =>
    rw [at_pc] at sends
    exact lt_of_lt_of_le sends grows
  | drainStore | drainFirst | drainSecond =>
    rw [at_pc] at sends
    exact sends
  | _ => trivial

include at_pc

/-- What the invariant says where the receiver is. -/
lemma Inv.at_receiver : Place s pc ∧
    (s.sender.closed = false → s.cnt = s.steals + s.queue.length - s.sender.pending - pc.owed) ∧
    (s.sender.closed → pc.restores = false → s.cnt = disconnected) := by
  subst at_pc
  exact ⟨inv.place, inv.connected, inv.closed⟩

lemma Inv.open_of_cnt (restores : pc.restores = false) (seen : s.cnt ≠ disconnected) :
    s.sender.closed = false :=
  Bool.eq_false_iff.mpr fun shut => seen ((inv.at_receiver at_pc).2.2 shut restores)

lemma Inv.fifo_at (hand : receiver.hand = pc.hand) :
    sent s.log = receivedMessages s.log ++ receiver.hand.toList ++ s.queue := by
  rw [hand, ← at_pc]
  exact inv.fifo

lemma Inv.goes (receiver : Receiver T) (hand : receiver.hand = pc.hand)
    (connected : s.sender.closed = false →
      cnt = s.steals + s.queue.length - s.sender.pending - receiver.owed)
    (closed : s.sender.closed → receiver.restores = false → cnt = disconnected)
    (place : Place { s with cnt := cnt, receiver := receiver } receiver) :
    Inv { s with cnt := cnt, receiver := receiver } :=
  inv.moves connected closed inv.steals inv.fresh.1 place (inv.fifo_at at_pc hand) inv.blocking
    (fun _ => rfl) le_rfl le_rfl

lemma Inv.returns (awake : Awake s) (c : Caller)
    (connected : s.sender.closed = false →
      cnt = steals - c.offset + queue.length - s.sender.pending ∧ 0 ≤ cnt)
    (closed : s.sender.closed → cnt = disconnected)
    (bounds : s.sender.closed = false → 0 ≤ steals - c.offset ∧ steals - c.offset ≤ maxSteals + 1)
    (taken : pc.hand.toList ++ s.queue = m :: queue) (nodes : queue.length ≤ s.queue.length) :
    Inv (received { s with queue := queue, cnt := cnt, steals := steals } c m) := by
  obtain ⟨sent', received'⟩ := sent_received s.log m
  rw [received_eq]
  refine inv.moves ?_ (fun shut _ => closed shut) bounds inv.fresh.1 ?_ ?_ ?_ (fun _ => rfl) nodes
    le_rfl
  · intro open_
    rw [(connected open_).1]
    exact (Int.sub_zero _).symm
  · exact ⟨⟨awake.waking, fun open_ => (connected open_).2⟩, awake.toWake⟩
  · change sent (s.log ++ [.received m]) =
      receivedMessages (s.log ++ [.received m]) ++ [] ++ queue
    rw [sent', received', inv.fifo_at at_pc rfl, append_assoc, taken]
    simp
  · simp [inv.blocking]

lemma Inv.fails (awake : Awake s) {event : Event T} (owed : s.sender.closed = false → pc.owed = 0)
    (silent : event = .empty false ∨ event = .disconnected) (restores : pc.restores = false)
    (hand : pc.hand = none) : Inv { s.record event with receiver := .idle } := by
  obtain ⟨-, count, closed⟩ := inv.at_receiver at_pc
  have fifo := inv.fifo_at at_pc rfl
  rw [hand] at fifo
  refine inv.moves ?_ (fun shut _ => closed shut restores) inv.steals inv.fresh.1 ?_ ?_ ?_
    (fun _ => rfl) le_rfl le_rfl
  · intro open_
    have count := count open_
    rw [owed open_] at count
    exact count
  · exact awake.moved
  · rcases silent with rfl | rfl <;> simpa [State.record, sent, receivedMessages,
      Receiver.hand] using fifo
  · rcases silent with rfl | rfl <;> simp [State.record, inv.blocking]

end

section
variable (inv : Inv s)
include inv

lemma Inv.popEmpty (at_pc : s.receiver = .pop c) (empty : s.queue = []) :
    Inv { s with receiver := .load c } := by
  obtain ⟨place, count, closed⟩ := inv.at_receiver at_pc
  have awake := Place.awake (.inl place)
  have pending := pending_bounds s.sender
  rw [empty] at count
  have shut (deadline : Bool) (same : c = .second deadline false) : s.sender.closed := by
    subst same
    by_contra open_
    have open_ := Bool.eq_false_iff.mpr open_
    have negative := count open_
    have positive := awake.cnt open_
    rw [place.2, Receiver.owed, length_nil] at negative
    omega
  refine inv.goes at_pc (.load c) rfl ?_ closed ?_
  · intro open_
    have same : (.pop c : Receiver T).owed = 0 := by
      rcases c with _ | _ | ⟨deadline, _ | _⟩
      · rfl
      · rfl
      · exact closed_elim (shut deadline rfl) open_
      · rfl
    rw [count open_, same, empty]
    rfl
  · have awake : Awake { s with receiver := .load c } := awake.moved
    rcases c with _ | _ | ⟨deadline, _ | _⟩
    · exact awake
    · exact awake
    · exact ⟨awake, shut deadline rfl⟩
    · exact ⟨awake, place.2.2⟩

lemma Inv.popMessage (at_pc : s.receiver = .pop c) (some : s.queue = m :: queue)
    (meets : s.sender.closed = false → ∀ deadline, c ≠ .second deadline true)
    (done : receiverGo s (.pop c) = .some s') : Inv s' := by
  obtain ⟨place, count, closed⟩ := inv.at_receiver at_pc
  have awake := Place.awake (.inl place)
  have nodes : queue.length ≤ s.queue.length := by
    rw [some]
    exact Nat.le_succ _
  have count (open_ : s.sender.closed = false) :
      s.cnt = s.steals + (queue.length + 1) - s.sender.pending - c.offset := by
    have count := count open_
    rw [some] at count
    rcases c with _ | _ | ⟨deadline, _ | _⟩
    · exact count
    · exact count
    · exact count
    · exact absurd rfl (meets open_ deadline)
  rw [receiverGo, some] at done
  dsimp only at done
  split at done
  next many =>
    cases done
    have first : c.isSecond = false := by
      rcases c with _ | _ | ⟨deadline, _ | _⟩
      · rfl
      · rfl
      · rw [place.2] at many
        cases many
      · have few := place.2.1
        rw [maxSteals] at many
        omega
    refine inv.moves ?_ closed inv.steals inv.fresh.1
      ⟨awake.moved, first, many⟩ ?_ inv.blocking (fun _ => rfl) nodes
      le_rfl
    · intro open_
      rw [count open_, c.offset_of_first first, Receiver.owed]
      omega
    · have fifo := inv.fifo_at at_pc rfl
      rw [some] at fifo
      simpa [Receiver.hand] using fifo
  · cases done
    refine inv.returns at_pc awake c ?_ (fun shut => closed shut rfl) ?_ some nodes
    · intro open_
      refine ⟨?_, awake.cnt open_⟩
      rw [count open_]
      omega
    · intro open_
      have bounds := inv.steals open_
      rcases c with _ | _ | ⟨deadline, _ | _⟩
      · simp only [Caller.offset]
        omega
      · simp only [Caller.offset]
        omega
      · rw [place.2]
        simp [Caller.offset, maxSteals]
      · exact absurd rfl (meets open_ deadline)

/-- There have been many steals, and the counter is swapped with zero. -/
lemma Inv.swap (at_pc : s.receiver = .swap c m) (done : receiverGo s (.swap c m) = some s') :
    Inv s' := by
  obtain ⟨⟨awake, first, many⟩, count, -⟩ := inv.at_receiver at_pc
  rw [receiverGo] at done
  split at done
  next seen =>
    have shut := awake.closed_of_cnt seen
    have positive : 0 ≤ s.steals := Int.le_trans (by simp [maxSteals]) (Int.le_of_lt many)
    cases done
    exact inv.goes at_pc (.restore c m) rfl (closed_elim shut) (fun _ no => by cases no)
      ⟨⟨⟨awake.waking, closed_elim shut⟩, awake.toWake⟩, shut, positive⟩
  next seen =>
    have open_ := inv.open_of_cnt at_pc rfl seen
    have count : s.cnt = s.steals + s.queue.length - s.sender.pending + 1 := by
      rw [count open_, Receiver.owed]
      omega
    have pending := pending_bounds s.sender
    have least : min s.cnt s.steals = s.steals := min_eq_right (by omega)
    dsimp only at done
    rw [least, Int.sub_self] at done
    cases done
    refine inv.moves ?_ (fun shut => closed_elim shut open_) ?_ inv.fresh.1 ?_
      (inv.fifo_at at_pc rfl) inv.blocking (fun _ => rfl) le_rfl le_rfl
    · rw [Receiver.owed]
      omega
    · simp [maxSteals]
    · exact ⟨⟨⟨awake.waking, fun _ => le_rfl⟩, awake.toWake⟩, first, rfl, by omega⟩

lemma Inv.restore (at_pc : s.receiver = .restore c m)
    (done : receiverGo s (.restore c m) = some s') : Inv s' := by
  obtain ⟨⟨awake, shut, positive⟩, -, -⟩ := inv.at_receiver at_pc
  rw [receiverGo, State.check, if_pos positive] at done
  cases done
  exact inv.returns at_pc awake c (closed_elim shut) (fun _ => rfl) (closed_elim shut) rfl
    le_rfl

lemma Inv.bump {amt : Int} (at_pc : s.receiver = .bump c m amt)
    (done : receiverGo s (.bump c m amt) = some s') : Inv s' := by
  obtain ⟨⟨awake, first, zero, positive⟩, count, -⟩ := inv.at_receiver at_pc
  rw [receiverGo] at done
  dsimp only at done
  split at done
  next seen =>
    have shut := awake.closed_of_cnt seen
    cases done
    exact inv.goes at_pc (.restore c m) rfl (closed_elim shut) (fun _ no => by cases no)
      ⟨⟨⟨awake.waking, closed_elim shut⟩, awake.toWake⟩, shut, Int.le_of_eq zero.symm⟩
  next seen =>
    have open_ := inv.open_of_cnt at_pc rfl seen
    have count : s.cnt + amt = s.queue.length - s.sender.pending + 1 := by
      rw [count open_, Receiver.owed]
      omega
    have pending := pending_bounds s.sender
    have nodes := inv.nodes
    rw [maxNodes] at nodes
    have value : wrap (s.cnt + amt) = s.cnt + amt := wrap_eq (by omega) (by omega)
    rw [State.check, if_pos (Int.le_of_eq zero.symm)] at done
    cases done
    refine inv.returns at_pc awake c ?_ (fun shut => closed_elim shut open_) ?_ rfl
      le_rfl
    · rw [c.offset_of_first first]
      omega
    · rw [c.offset_of_first first, zero]
      simp [maxSteals]

/-- Nothing was popped, and the channel is disconnected or the call fails. -/
lemma Inv.load (at_pc : s.receiver = .load c) (done : receiverGo s (.load c) = some s') :
    Inv s' := by
  obtain ⟨place, count, closed⟩ := inv.at_receiver at_pc
  have awake := Place.awake (.inr place)
  rw [receiverGo] at done
  split at done
  next seen =>
    have open_ := inv.open_of_cnt at_pc rfl seen
    have fails : Inv { s.record (.empty false) with receiver := .idle } :=
      inv.fails at_pc awake (fun _ => rfl) (.inl rfl) rfl rfl
    cases done
    rcases c with _ | deadline | ⟨deadline, _ | _⟩
    · exact fails
    · exact inv.goes at_pc (.assertWake deadline) rfl count closed
        awake.moved
    · exact closed_elim place.2 open_
    · cases place.2
      exact fails
  next seen =>
    have shut := awake.closed_of_cnt (not_not.mp seen)
    cases done
    exact inv.goes at_pc (.again c) rfl (closed_elim shut) closed
      ⟨awake.moved, shut⟩

/-- The channel is disconnected, and what is left in it is popped. -/
lemma Inv.again (at_pc : s.receiver = .again c) (done : receiverGo s (.again c) = some s') :
    Inv s' := by
  obtain ⟨⟨awake, shut⟩, -, closed⟩ := inv.at_receiver at_pc
  rw [receiverGo] at done
  split at done
  · have failed : s' = { s.record .disconnected with receiver := .idle } := by
      cases done
      cases c <;> rfl
    rw [failed]
    exact inv.fails at_pc awake (closed_elim shut) (.inr rfl) rfl rfl
  next m queue left =>
    cases done
    refine inv.returns at_pc awake c (closed_elim shut) (fun _ => closed shut rfl)
      (closed_elim shut) left ?_
    rw [left]
    exact Nat.le_succ _

lemma Inv.assertWake (at_pc : s.receiver = .assertWake deadline)
    (done : receiverGo s (.assertWake deadline) = some s') : Inv s' := by
  obtain ⟨awake, count, closed⟩ := inv.at_receiver at_pc
  rw [receiverGo, State.check, if_pos awake.toWake] at done
  cases done
  refine inv.moves count closed inv.steals (Nat.lt_succ_of_lt inv.fresh.1) ?_
    (inv.fifo_at at_pc rfl) inv.blocking (fun _ => rfl) le_rfl (Nat.le_succ _)
  refine ⟨awake.moved, ?_, Nat.lt_succ_self _, inv.fresh.2 _ le_rfl, ?_⟩
  · exact Nat.ne_zero_of_lt inv.fresh.1
  · intro closing signal
    have sends := inv.sends
    rw [signal] at sends
    exact lt_irrefl _ sends

lemma Inv.storeWake (at_pc : s.receiver = .storeWake deadline token)
    (done : receiverGo s (.storeWake deadline token) = some s') : Inv s' := by
  obtain ⟨⟨awake, unused⟩, count, closed⟩ := inv.at_receiver at_pc
  cases done
  refine inv.moves count closed inv.steals unused.below ?_ (inv.fifo_at at_pc rfl) inv.blocking ?_
    le_rfl le_rfl
  · exact ⟨⟨awake.waking, awake.cnt⟩,
      ⟨unused.positive, unused.below, unused.asleep, unused.unsignaled⟩, rfl⟩
  · intro waking
    cases awake.waking.symm.trans waking

/-- The receiver takes a message and its steals off, to sleep if nothing is left. -/
lemma Inv.sub (at_pc : s.receiver = .sub deadline token)
    (done : receiverGo s (.sub deadline token) = some s') : Inv s' := by
  obtain ⟨⟨free, unused, toWake⟩, count, -⟩ := inv.at_receiver at_pc
  have fifo := inv.fifo_at at_pc rfl
  rw [receiverGo] at done
  split at done
  next seen =>
    have shut := free.closed_of_cnt seen
    cases done
    exact inv.moves (closed_elim shut) (fun _ no => by cases no) (closed_elim shut) inv.fresh.1
      ⟨⟨free.waking, closed_elim shut⟩, shut, rfl⟩ fifo inv.blocking (fun _ => rfl)
      le_rfl le_rfl
  next seen =>
    have open_ := inv.open_of_cnt at_pc rfl seen
    have positive := free.cnt open_
    have small := inv.small open_
    have steals := inv.steals open_
    have count := count open_
    simp only [Receiver.owed, maxSteals] at count steals
    have value : wrap (s.cnt - (1 + s.steals)) = s.cnt - s.steals - 1 :=
      (wrap_eq (by omega) (by omega)).trans (by omega)
    have taken : s.cnt - s.steals - 1 = 0 + s.queue.length - s.sender.pending - 1 := by
      omega
    have bounds : (0 : Int) ≤ 0 ∧ 0 ≤ maxSteals + 1 := by
      simp [maxSteals]
    rw [value, State.check, State.check] at done
    split at done
    · have negative : s.cnt - s.steals - 1 < 0 := by
        omega
      cases done
      refine inv.moves (fun _ => taken) (fun shut => closed_elim shut open_) (fun _ => bounds)
        inv.fresh.1 ⟨rfl, ?_⟩ fifo inv.blocking (fun _ => rfl) le_rfl le_rfl
      exact .asleep ⟨unused.positive, unused.below, unused.asleep, unused.unsignaled⟩ toWake open_
        free.waking negative
    · have more : 0 ≤ s.cnt - s.steals - 1 := by
        omega
      cases done
      exact inv.moves (fun _ => taken) (fun shut => closed_elim shut open_) (fun _ => bounds)
        inv.fresh.1 ⟨⟨free.waking, fun _ => more⟩, rfl⟩ fifo inv.blocking (fun _ => rfl)
        le_rfl le_rfl

lemma Inv.decRestore (at_pc : s.receiver = .decRestore deadline)
    (done : receiverGo s (.decRestore deadline) = some s') : Inv s' := by
  obtain ⟨⟨free, shut, zero⟩, -, -⟩ := inv.at_receiver at_pc
  cases done
  exact inv.goes at_pc (.clearWake deadline) rfl (closed_elim shut) (fun _ _ => rfl)
    ⟨⟨free.waking, closed_elim shut⟩, zero⟩

lemma Inv.clearWake (at_pc : s.receiver = .clearWake deadline)
    (done : receiverGo s (.clearWake deadline) = some s') : Inv s' := by
  obtain ⟨⟨free, zero⟩, count, closed⟩ := inv.at_receiver at_pc
  cases done
  refine inv.moves count closed inv.steals (Nat.zero_lt_of_lt inv.fresh.1)
    ⟨⟨⟨free.waking, free.cnt⟩, rfl⟩, zero⟩ (inv.fifo_at at_pc rfl) inv.blocking ?_
    le_rfl le_rfl
  intro waking
  cases free.waking.symm.trans waking

lemma Inv.waiting (at_pc : s.receiver = .waiting deadline token)
    (done : receiverGo s (.waiting deadline token) = some s') : Inv s' := by
  obtain ⟨⟨zero, waits⟩, count, closed⟩ := inv.at_receiver at_pc
  rw [receiverGo] at done
  split at done
  next woken =>
    cases done
    cases waits with
    | asleep unused | waking unused => cases unused.asleep.symm.trans woken
    | awake awake =>
      exact inv.goes at_pc (.pop (.second deadline false)) rfl count closed
        ⟨awake.moved, zero⟩
  · cases done

lemma Inv.timeout (at_pc : s.receiver = .waiting deadline token) :
    Inv { s with receiver := .abort token } := by
  obtain ⟨⟨zero, waits⟩, count, closed⟩ := inv.at_receiver at_pc
  have unused' (unused : Unused s token) : Unused { s with receiver := .abort token } token :=
    ⟨unused.positive, unused.below, unused.asleep, unused.unsignaled⟩
  refine inv.goes at_pc (.abort token) rfl count closed ⟨zero, ?_⟩
  cases waits with
  | asleep unused toWake open_ quiet cnt => exact .asleep (unused' unused) toWake open_ quiet cnt
  | waking unused toWake waking cnt => exact .waking (unused' unused) toWake waking cnt
  | awake awake => exact .awake awake.moved

/-- `abort_selection` puts back what `decrement` has taken off, and one more. -/
lemma Inv.abort (at_pc : s.receiver = .abort token)
    (meets : s.cnt = disconnected → s.toWake = 0) (done : receiverGo s (.abort token) = some s') :
    Inv s' := by
  obtain ⟨⟨zero, waits⟩, count, -⟩ := inv.at_receiver at_pc
  rw [receiverGo] at done
  split at done
  next seen =>
    cases done
    cases waits with
    | asleep unused toWake | waking unused toWake =>
      exact absurd (toWake.symm.trans (meets seen)) unused.positive
    | awake awake =>
      have shut := awake.closed_of_cnt seen
      exact inv.goes at_pc .abortRestore rfl (closed_elim shut) (fun _ no => by cases no)
        ⟨⟨⟨awake.waking, closed_elim shut⟩, awake.toWake⟩, shut, zero⟩
  next seen =>
    have open_ := inv.open_of_cnt at_pc rfl seen
    have pending := pending_bounds s.sender
    have small := inv.small open_
    have count := count open_
    simp only [Receiver.owed] at count
    have positive : 0 ≤ s.cnt + 2 := by
      omega
    have value : wrap (s.cnt + 2) = s.cnt + 2 := wrap_eq (by omega) (by omega)
    have put : s.cnt + 2 = s.steals + s.queue.length - s.sender.pending - (-1) := by
      omega
    rw [value, State.check, State.check] at done
    split at done
    next negative =>
      cases done
      cases waits with
      | asleep unused toWake _ quiet =>
        exact inv.goes at_pc .abortTake rfl (fun _ => put) (fun shut => closed_elim shut open_)
          ⟨⟨quiet, fun _ => positive⟩, toWake ▸ unused.positive, zero⟩
      | waking _ _ _ cnt => exact absurd (cnt open_) (Int.not_le.mpr negative)
      | awake awake => exact absurd (awake.cnt open_) (Int.not_le.mpr negative)
    · cases done
      refine inv.goes at_pc .abortSpin rfl (fun _ => put) (fun shut => closed_elim shut open_)
        ⟨zero, fun _ => positive, fun cleared => ?_⟩
      cases waits with
      | asleep _ _ _ quiet => exact quiet
      | waking unused toWake => exact absurd (toWake.symm.trans cleared) unused.positive
      | awake awake => exact awake.waking

lemma Inv.abortRestore (at_pc : s.receiver = .abortRestore)
    (done : receiverGo s .abortRestore = some s') : Inv s' := by
  obtain ⟨⟨awake, shut, zero⟩, -, -⟩ := inv.at_receiver at_pc
  cases done
  exact inv.goes at_pc .abortCheck rfl (closed_elim shut) (fun _ _ => rfl)
    ⟨⟨⟨awake.waking, closed_elim shut⟩, awake.toWake⟩, shut, zero⟩

lemma Inv.abortCheck (at_pc : s.receiver = .abortCheck)
    (done : receiverGo s .abortCheck = some s') : Inv s' := by
  obtain ⟨⟨awake, shut, zero⟩, -, closed⟩ := inv.at_receiver at_pc
  rw [receiverGo, State.check, if_pos awake.toWake] at done
  cases done
  refine inv.goes at_pc (.pop (.second true true)) rfl (closed_elim shut) closed
    ⟨awake.moved, ?_, rfl⟩
  exact Int.le_trans (Int.le_of_eq zero) Int.one_nonneg

lemma Inv.abortTake (at_pc : s.receiver = .abortTake)
    (done : receiverGo s .abortTake = some s') : Inv s' := by
  obtain ⟨⟨free, some, zero⟩, count, closed⟩ := inv.at_receiver at_pc
  cases done
  exact inv.goes at_pc (.abortStore s.toWake) rfl count closed ⟨⟨free.waking, free.cnt⟩, some, zero⟩

/-- The steal of the message that was put back. -/
lemma Inv.aborted {pc : Receiver T} (at_pc : s.receiver = pc) (zero : s.steals = 0)
    (free : Free s) (owed : pc.owed = -1) (restores : pc.restores = false) (hand : pc.hand = none) :
    Inv { s with toWake := 0, steals := 1, receiver := .pop (.second true true) } := by
  obtain ⟨-, count, closed⟩ := inv.at_receiver at_pc
  refine inv.moves ?_ (fun shut _ => closed shut restores) ?_ (Nat.zero_lt_of_lt inv.fresh.1)
    ⟨⟨⟨free.waking, free.cnt⟩, rfl⟩, le_rfl, rfl⟩ (inv.fifo_at at_pc hand.symm)
    inv.blocking ?_ le_rfl le_rfl
  · intro open_
    have count := count open_
    simp only [Receiver.owed]
    omega
  · simp [maxSteals]
  · intro waking
    cases free.waking.symm.trans waking

lemma Inv.abortStore {ptr : Nat} (at_pc : s.receiver = .abortStore ptr)
    (done : receiverGo s (.abortStore ptr) = some s') : Inv s' := by
  obtain ⟨⟨free, some, zero⟩, -, -⟩ := inv.at_receiver at_pc
  rw [receiverGo, State.check, if_pos ⟨some, zero⟩] at done
  cases done
  exact inv.aborted at_pc zero free rfl rfl rfl

lemma Inv.abortSpin (at_pc : s.receiver = .abortSpin)
    (done : receiverGo s .abortSpin = some s') : Inv s' := by
  obtain ⟨⟨zero, positive, spin⟩, -, -⟩ := inv.at_receiver at_pc
  rw [receiverGo] at done
  split at done
  · cases done
    exact inv
  next cleared =>
    have cleared := not_not.mp cleared
    rw [State.check, if_pos zero] at done
    cases done
    have aborted := inv.aborted at_pc zero ⟨spin cleared, positive⟩ rfl rfl rfl
    rw [← cleared] at aborted
    exact aborted

lemma Inv.receiverGo (meets : StreamChannel.meets s (.receiver .go))
    (done : receiverGo s s.receiver = some s') : Inv s' := by
  rw [StreamChannel.meets] at meets
  generalize at_pc : s.receiver = pc at done meets
  cases pc with
  | idle => cases done
  | pop c =>
    cases left : s.queue with
    | nil =>
      rw [StreamChannel.receiverGo, left] at done
      cases done
      rw [← left]
      exact inv.popEmpty at_pc left
    | cons m queue =>
      refine inv.popMessage at_pc left ?_ done
      rintro open_ deadline rfl
      have place := (inv.at_receiver at_pc).1
      rw [left] at meets
      have seen : s.cnt = disconnected := by
        simpa using meets
      exact closed_elim (place.1.closed_of_cnt seen) open_
  | swap => exact inv.swap at_pc done
  | restore => exact inv.restore at_pc done
  | bump => exact inv.bump at_pc done
  | load => exact inv.load at_pc done
  | again => exact inv.again at_pc done
  | assertWake => exact inv.assertWake at_pc done
  | storeWake => exact inv.storeWake at_pc done
  | sub => exact inv.sub at_pc done
  | decRestore => exact inv.decRestore at_pc done
  | clearWake => exact inv.clearWake at_pc done
  | waiting => exact inv.waiting at_pc done
  | abort token =>
    refine inv.abort at_pc ?_ done
    intro seen
    simpa [seen] using meets
  | abortRestore => exact inv.abortRestore at_pc done
  | abortCheck => exact inv.abortCheck at_pc done
  | abortTake => exact inv.abortTake at_pc done
  | abortStore => exact inv.abortStore at_pc done
  | abortSpin => exact inv.abortSpin at_pc done

lemma Inv.senderStarts (at_pc : s.sender = .idle) {pc : Sender T}
    (starts : (∃ m, pc = .send m) ∨ pc = .dropChan) : Inv { s with sender := pc } := by
  have count := (inv.at_sender at_pc rfl).1
  rcases starts with ⟨m, rfl⟩ | rfl <;>
    exact inv.quiet at_pc _ rfl rfl rfl rfl nofun trivial Iff.rfl count inv.nodes inv.fifo
      inv.blocking

lemma Inv.receiverStarts (at_pc : s.receiver = .idle) (first : c.isSecond = false) :
    Inv { s with receiver := .pop c } := by
  obtain ⟨awake, count, closed⟩ := inv.at_receiver at_pc
  have awake : Awake { s with receiver := .pop c } := awake.moved
  cases c with
  | tryRecv | first => exact inv.goes at_pc _ rfl count closed awake
  | second => cases first

end

lemma Inv.step (inv : Inv s) {label : Label T} (done : guarded s label = some s') : Inv s' := by
  rw [guarded] at done
  split at done
  next meets =>
    rw [StreamChannel.step.eq_def] at done
    split at done
    · split at done
      next at_pc =>
        cases done
        exact inv.senderStarts at_pc (.inl ⟨_, rfl⟩)
      next at_pc =>
        cases done
        exact inv.senderStarts at_pc (.inr rfl)
      · exact inv.senderGo done
      · cases done
    · split at done
      next at_pc =>
        cases done
        exact inv.receiverStarts at_pc rfl
      next at_pc =>
        cases done
        exact inv.receiverStarts at_pc rfl
      next at_pc =>
        split at done
        · cases done
          exact inv.timeout at_pc
        · cases done
      · exact inv.receiverGo meets done
      · cases done
  · cases done

lemma inv_init : Inv (init : State T) where
  sound := rfl
  open_ := rfl
  connected _ := rfl
  closed := nofun
  steals _ := by simp [init, maxSteals]
  nodes := Nat.zero_le _
  fresh := ⟨Nat.one_pos, fun _ _ => rfl⟩
  sends := trivial
  place := ⟨⟨rfl, fun _ => le_rfl⟩, rfl⟩
  fifo := rfl
  blocking := nofun

/-- What is expected of a stream channel. -/
structure Safe (s : State T) : Prop where
  /-- no assertion has failed -/
  sound : s.failed = false
  counted : s.sender = .idle → s.receiver = .idle → s.cnt ≠ disconnected →
    s.cnt - s.steals = s.queue.length
  blocking : .empty true ∉ s.log
  fifo : sent s.log = receivedMessages s.log ++ s.receiver.hand.toList ++ s.queue

lemma Inv.safe (inv : Inv s) : Safe s := by
  constructor
  · exact inv.sound
  · intro sender receiver _
    have count := inv.connected (by rw [sender]; rfl)
    rw [sender, receiver] at count
    simp only [Sender.pending, Receiver.owed] at count
    omega
  · exact inv.blocking
  · exact inv.fifo

/-- Every state that a sender and a receiver reach, in any interleaving, if a call whose deadline
has passed does not take a message from the connected channel, and does not find the channel
disconnected before `drop_chan` has cleared `to_wake`. -/
theorem stream_channel_safe {T : Type} (labels : List (Label T)) (s : State T)
    (done : run guarded init labels = some s) : Safe s :=
  (run_invariant (fun _ _ _ inv step => Inv.step inv step) inv_init done).safe

/-- The receiver goes to sleep, with a deadline. -/
def sleeps : List (Label Nat) := .receiver (.recv true) :: replicate 5 (.receiver .go)

/-- A message wakes the receiver, which takes it. -/
def wokenRun : List (Label Nat) :=
  sleeps ++ [.sender (.send 7), .sender .go, .sender .go, .sender .go, .sender .go, .sender .go,
    .sender .go, .receiver .go, .receiver .go]

theorem stream_channel_safe_woken : ∃ s, run guarded init wokenRun = some s ∧
    s.log = [.sent 7, .received 7] ∧ Safe s := by
  have some : (run guarded init wokenRun).map State.log = some [.sent 7, .received 7] := rfl
  obtain ⟨s, done, log⟩ := Option.map_eq_some_iff.mp some
  exact ⟨s, done, log, stream_channel_safe wokenRun s done⟩

/-- The deadline passes, and then a message comes that the second `try_recv` takes. -/
def lateMessageRun : List (Label Nat) :=
  sleeps ++ [.receiver .timeout, .receiver .go, .receiver .go, .receiver .go, .sender (.send 7),
    .sender .go, .sender .go, .sender .go, .receiver .go]

/-- A `recv` without a deadline. -/
def receives : List (Label Nat) := .receiver (.recv false) :: replicate 8 (.receiver .go)

/-- The deadline passes while `drop_chan` is about to wake the receiver. -/
def lateCloseRun : List (Label Nat) :=
  sleeps ++ [.sender .dropChan, .sender .go, .receiver .timeout, .receiver .go, .receiver .go,
    .receiver .go]

/-- After the first run the queue is empty and the counter and the steals differ by one, so the
next `recv` returns `Empty`. In the second run an assertion fails. -/
theorem late_deadline :
    (run step init lateMessageRun).map (fun s => (s.cnt - s.steals, s.queue)) = some (1, []) ∧
      (run step init (lateMessageRun ++ receives)).map State.log =
        some [.sent 7, .received 7, .empty true] ∧
      (run step init lateCloseRun).map State.failed = some true :=
  ⟨rfl, rfl, rfl⟩

end StreamChannel
