import BpfSysroot.Once

/-!
# Who runs the closure of a `Once`

`Move` lists what a step can do when nothing fails. `Control` is about the state bits, the
thread that runs the closure and the order of events: the word says how closures have
ended, and while it is in the running state there is one thread that answers for it.
-/

namespace Once

open List Function

section
variable {me : UInt64}

lemma or_and_mask (x y z : UInt64) : (x ||| y) &&& z = x &&& z ||| y &&& z := by
  apply UInt64.toBitVec_inj.mp
  rw [UInt64.toBitVec_and, UInt64.toBitVec_or, UInt64.toBitVec_or, UInt64.toBitVec_and,
    UInt64.toBitVec_and, BitVec.and_or_distrib_right]

lemma and_or_and_not (x m : UInt64) : x &&& m ||| x &&& ~~~m = x := by
  apply UInt64.toBitVec_inj.mp
  rw [UInt64.toBitVec_or, UInt64.toBitVec_and, UInt64.toBitVec_and, UInt64.toBitVec_not,
    ← BitVec.and_or_distrib_left, BitVec.or_not_self, BitVec.and_allOnes]

lemma bits_or_running (aligned : me &&& stateMask = 0) :
    (me ||| running) &&& stateMask = running := by
  rw [or_and_mask, aligned]
  decide

lemma queue_or_running (aligned : me &&& stateMask = 0) :
    (me ||| running) &&& ~~~stateMask = me := by
  have parts := and_or_and_not me stateMask
  have none : running &&& ~~~stateMask = 0 := by decide
  rw [aligned, UInt64.zero_or] at parts
  rw [or_and_mask, none, UInt64.or_zero, parts]

end

section
variable {Thread : Type} {log pre : List (Event Thread)} {event : Event Thread} {t : Thread}

/-- Some closure has ended in that way. -/
def Happened (log : List (Event Thread)) (outcome : Outcome) : Prop :=
  ∃ t, Event.ended t outcome ∈ log

/-- What may happen after the events `pre`. -/
def Allowed (pre : List (Event Thread)) : Event Thread → Prop
  | .started _ => ¬Happened pre .returned
  | .ended _ _ => True
  | .callReturned t force =>
    Happened pre .returned ∨ force ∧ Event.ended t .poisoned ∈ pre
  | .callPanicked _ _ => Happened pre .panicked ∨ Happened pre .poisoned

def Ordered (log : List (Event Thread)) : Prop :=
  ∀ pre event post, log = pre ++ event :: post → Allowed pre event

lemma ordered_concat (ordered : Ordered log) (allowed : Allowed log event) :
    Ordered (log ++ [event]) := by
  intro pre e post split
  rcases eq_nil_or_concat post with rfl | ⟨post, last, rfl⟩
  · obtain ⟨rfl, same⟩ := append_inj' split rfl
    cases same
    exact allowed
  · rw [concat_eq_append, ← cons_append, ← append_assoc] at split
    exact ordered pre e post (append_inj_left' split rfl)

lemma Happened.concat {outcome : Outcome} (happened : Happened log outcome)
    (event : Event Thread) : Happened (log ++ [event]) outcome := by
  obtain ⟨t, member⟩ := happened
  exact ⟨t, mem_append_left _ member⟩

lemma happened_last (t : Thread) (outcome : Outcome) :
    Happened (log ++ [.ended t outcome]) outcome :=
  ⟨t, mem_append_right _ mem_cons_self⟩

/-- The words that are ever stored: a value without a queue says how closures ended. -/
def Known (log : List (Event Thread)) (word : UInt64) : Prop :=
  word = incomplete ∨ word = poisoned ∧ (Happened log .panicked ∨ Happened log .poisoned) ∨
    word = complete ∧ Happened log .returned ∨ word &&& stateMask = running

lemma Known.concat {word : UInt64} (known : Known log word) (event : Event Thread) :
    Known (log ++ [event]) word := by
  rcases known with initial | ⟨same, failed⟩ | ⟨same, returned⟩ | runs
  · exact .inl initial
  · exact .inr (.inl ⟨same, failed.imp (·.concat event) (·.concat event)⟩)
  · exact .inr (.inr (.inl ⟨same, returned.concat event⟩))
  · exact .inr (.inr (.inr runs))

lemma Known.returned (known : Known log complete) : Happened log .returned := by
  rcases known with same | ⟨same, -⟩ | ⟨-, returned⟩ | runs
  · exact absurd same (by decide)
  · exact absurd same (by decide)
  · exact returned
  · exact absurd runs (by decide)

lemma Known.failed (known : Known log poisoned) :
    Happened log .panicked ∨ Happened log .poisoned := by
  rcases known with same | ⟨-, failed⟩ | ⟨same, -⟩ | runs
  · exact absurd same (by decide)
  · exact failed
  · exact absurd same (by decide)
  · exact absurd runs (by decide)

end

section
variable {Thread : Type} {log : List (Event Thread)} {t : Thread} {force unwinding : Bool}
  {pc : PC Thread}

/-- How a call ends that has run its closure. -/
def Ended (log : List (Event Thread)) (t : Thread) (force unwinding : Bool) : Prop :=
  if unwinding then Happened log .panicked
  else Happened log .returned ∨ force ∧ Event.ended t .poisoned ∈ log

/-- What a thread knows at its place. -/
def Place (log : List (Event Thread)) (t : Thread) (force unwinding : Bool) : PC Thread → Prop
  | .idle => True
  | .isCompleted | .load | .init _ | .check _ | .park _ => unwinding = false
  | .top cur | .wait cur => unwinding = false ∧ Known log cur
  | .enqueue cur me =>
    unwinding = false ∧ Known log cur ∧ cur &&& stateMask = running ∧ me &&& stateMask = 0
  | .swap setTo => Ended log t force unwinding ∧ (setTo = complete ∧ Happened log .returned ∨
      setTo = poisoned ∧ (Happened log .panicked ∨ Happened log .poisoned))
  | .walk _ | .take _ _ | .signal _ _ _ | .unpark _ _ => Ended log t force unwinding
  | .failed => False

lemma Ended.concat (ended : Ended log t force unwinding) (event : Event Thread) :
    Ended (log ++ [event]) t force unwinding := by
  rw [Ended] at ended ⊢
  split at ended
  · rw [if_pos ‹_›]
    exact ended.concat event
  · rw [if_neg ‹_›]
    exact ended.imp (·.concat event) fun ⟨force, member⟩ => ⟨force, mem_append_left _ member⟩

lemma Place.concat (place : Place log t force unwinding pc) (event : Event Thread) :
    Place (log ++ [event]) t force unwinding pc := by
  cases pc with
  | top cur => exact ⟨place.1, place.2.concat event⟩
  | wait cur => exact ⟨place.1, place.2.concat event⟩
  | enqueue cur me => exact ⟨place.1, place.2.1.concat event, place.2.2⟩
  | swap setTo =>
    obtain ⟨ended, ⟨same, returned⟩ | ⟨same, failed⟩⟩ := place
    · exact ⟨ended.concat event, .inl ⟨same, returned.concat event⟩⟩
    · exact ⟨ended.concat event, .inr ⟨same, failed.imp (·.concat event) (·.concat event)⟩⟩
  | walk queue => exact Ended.concat place event
  | take queue next => exact Ended.concat place event
  | signal queue next thread => exact Ended.concat place event
  | unpark next thread => exact Ended.concat place event
  | _ => exact place

/-- The closure runs, or its end is not yet stored. -/
def Owns : PC Thread → Prop
  | .init _ => True
  | .swap _ => True
  | _ => False

end

variable {Thread : Type}

lemma State.store_self (s : State Thread) (a : UInt64) (node : Option (Waiter Thread)) :
    (s.store a node).mem a = node := update_self ..

lemma State.store_ne (s : State Thread) (node : Option (Waiter Thread)) {a b : UInt64}
    (ne : b ≠ a) : (s.store a node).mem b = s.mem b := update_of_ne ne ..

variable [DecidableEq Thread]

/-- What a step can do when nothing fails. -/
inductive Move (s : State Thread) (t : Thread) : State Thread → Prop where
  | call (force : Bool) (at_pc : (s.locals t).pc = .idle) :
      Move s t { s with locals := Function.update s.locals t ⟨.isCompleted, force, false⟩ }
  | completed (at_pc : (s.locals t).pc = .isCompleted) (done : s.word = complete) :
      Move s t (s.leave t)
  | slow (at_pc : (s.locals t).pc = .isCompleted) : Move s t (s.goto t .load)
  | load (at_pc : (s.locals t).pc = .load) : Move s t (s.goto t (.top s.word))
  | done (at_pc : (s.locals t).pc = .top complete) : Move s t (s.leave t)
  | poison (at_pc : (s.locals t).pc = .top poisoned) (force : (s.locals t).force = false) :
      Move s t { s.goto t .idle with log := s.log ++ [.callPanicked t (s.locals t).force] }
  | start {cur : UInt64} (at_pc : (s.locals t).pc = .top cur)
      (free : cur = poisoned ∨ cur = incomplete) (same : s.word = cur) :
      Move s t
        { s.goto t (.init (cur == poisoned)) with word := running, log := s.log ++ [.started t] }
  | retry {cur : UInt64} (at_pc : (s.locals t).pc = .top cur) : Move s t (s.goto t (.top s.word))
  | enter {cur : UInt64} (at_pc : (s.locals t).pc = .top cur) : Move s t (s.goto t (.wait cur))
  | finish {poisoned : Bool} {outcome : Outcome} (at_pc : (s.locals t).pc = .init poisoned)
      (offered : outcome = .poisoned → (s.locals t).force) :
      Move s t
        { s with
          locals := Function.update s.locals t
            ⟨.swap (setStateOnDropTo outcome), (s.locals t).force, outcome == .panicked⟩
          log := s.log ++ [.ended t outcome] }
  | swap {setTo : UInt64} (at_pc : (s.locals t).pc = .swap setTo) :
      Move s t { s.goto t (.walk (s.word &&& ~~~stateMask)) with word := setTo }
  | walked (at_pc : (s.locals t).pc = .walk 0) : Move s t (s.leave t)
  | next {queue : UInt64} {node : Waiter Thread} (at_pc : (s.locals t).pc = .walk queue)
      (nonnull : queue ≠ 0) (live : s.mem queue = some node) :
      Move s t (s.goto t (.take queue node.next))
  | take {queue next : UInt64} {node : Waiter Thread} {thread : Thread}
      (at_pc : (s.locals t).pc = .take queue next) (live : s.mem queue = some node)
      (there : node.thread = some thread) :
      Move s t
        ((s.store queue (some { node with thread := none })).goto t (.signal queue next thread))
  | signal {queue next : UInt64} {node : Waiter Thread} {thread : Thread}
      (at_pc : (s.locals t).pc = .signal queue next thread) (live : s.mem queue = some node) :
      Move s t
        { (s.store queue (some { node with signaled := true })).goto t (.unpark next thread) with
          pending := s.pending.filter (·.2 ≠ queue) }
  | unpark {next : UInt64} {thread : Thread} (at_pc : (s.locals t).pc = .unpark next thread) :
      Move s t { s.goto t (.walk next) with token := Function.update s.token thread true }
  | back {cur : UInt64} (at_pc : (s.locals t).pc = .wait cur) : Move s t (s.goto t .load)
  | create {cur me : UInt64} (at_pc : (s.locals t).pc = .wait cur)
      (runs : cur &&& stateMask = running) (nonnull : me ≠ 0) (aligned : me &&& stateMask = 0)
      (free : s.mem me = none) :
      Move s t
        ((s.store me (some ⟨some t, false, cur &&& ~~~stateMask⟩)).goto t (.enqueue cur me))
  | enqueue {me : UInt64} (at_pc : (s.locals t).pc = .enqueue s.word me) :
      Move s t
        { s.goto t (.check me) with word := me ||| running, pending := (t, me) :: s.pending }
  | discard {cur me : UInt64} (at_pc : (s.locals t).pc = .enqueue cur me) :
      Move s t ((s.store me none).goto t (.wait s.word))
  | leaves {me : UInt64} {node : Waiter Thread} (at_pc : (s.locals t).pc = .check me)
      (live : s.mem me = some node) (signaled : node.signaled) :
      Move s t ((s.store me none).goto t .load)
  | parks {me : UInt64} {node : Waiter Thread} (at_pc : (s.locals t).pc = .check me)
      (live : s.mem me = some node) (unsignaled : node.signaled = false) :
      Move s t (s.goto t (.park me))
  | wake {me : UInt64} (at_pc : (s.locals t).pc = .park me) :
      Move s t { s.goto t (.check me) with token := Function.update s.token t false }
  | spurious {me : UInt64} (at_pc : (s.locals t).pc = .park me) : Move s t (s.goto t (.check me))

variable {s s' : State Thread} {t u : Thread} {l : Local Thread}

namespace State

lemma goto_self (s : State Thread) (t : Thread) (pc : PC Thread) :
    ((s.goto t pc).locals t).pc = pc := by
  have same : (s.goto t pc).locals t = { s.locals t with pc := pc } := update_self ..
  rw [same]

lemma goto_ne (s : State Thread) (pc : PC Thread) (other : u ≠ t) :
    ((s.goto t pc).locals u).pc = (s.locals u).pc := by
  have same : (s.goto t pc).locals u = s.locals u := update_of_ne other ..
  rw [same]

end State

/-- The state bits, the thread that runs the closure, and the order of events. -/
structure Control (s : State Thread) : Prop where
  place : ∀ t, Place s.log t (s.locals t).force (s.locals t).unwinding (s.locals t).pc
  word : Known s.log s.word
  owner : s.word &&& stateMask = running ↔ ∃ t, Owns (s.locals t).pc
  unique : ∀ t u, Owns (s.locals t).pc → Owns (s.locals u).pc → t = u
  success : Happened s.log .returned → s.word = complete ∨ ∃ t, (s.locals t).pc = .swap complete
  ordered : Ordered s.log

namespace Control

variable (control : Control s) {pc : PC Thread}
include control

/-- The other threads know what they knew. -/
lemma places (locals : s'.locals = update s.locals t l)
    (grows : s'.log = s.log ∨ ∃ event, s'.log = s.log ++ [event])
    (mine : Place s'.log t l.force l.unwinding l.pc) (u : Thread) :
    Place s'.log u (s'.locals u).force (s'.locals u).unwinding (s'.locals u).pc := by
  by_cases mover : u = t
  · subst mover
    rw [locals, update_self]
    exact mine
  · rw [locals, update_of_ne mover]
    rcases grows with same | ⟨event, same⟩
    · rw [same]
      exact control.place u
    · rw [same]
      exact (control.place u).concat event

section
variable (at_pc : (s.locals t).pc = pc)
include at_pc

variable (locals : s'.locals = update s.locals t l)
include locals

/-- A step outside the closure that leaves the state bits. -/
lemma outside (word : Known s'.log s'.word) (bits : s'.word &&& stateMask = running ↔
      s.word &&& stateMask = running) (finished : s.word = complete → s'.word = complete)
    (before : ¬Owns pc) (after : ¬Owns l.pc)
    (grows : s'.log = s.log ∨ ∃ event, s'.log = s.log ++ [event] ∧ Allowed s.log event ∧
      ∀ u outcome, event ≠ .ended u outcome)
    (mine : Place s'.log t l.force l.unwinding l.pc) : Control s' := by
  subst at_pc
  have owns : ∀ u, Owns (s'.locals u).pc ↔ Owns (s.locals u).pc := by
    intro u
    by_cases mover : u = t
    · subst mover
      rw [locals, update_self]
      exact ⟨fun owns => absurd owns after, fun owns => absurd owns before⟩
    · rw [locals, update_of_ne mover]
  have happened : Happened s'.log .returned → Happened s.log .returned := by
    rcases grows with same | ⟨event, same, -, other⟩
    · rw [same]
      exact id
    · rintro ⟨u, member⟩
      rw [same, mem_append, mem_singleton] at member
      exact ⟨u, member.resolve_right fun eq => other u .returned eq.symm⟩
  constructor
  · refine control.places locals ?_ mine
    rcases grows with same | ⟨event, same, -⟩
    · exact .inl same
    · exact .inr ⟨event, same⟩
  · exact word
  · rw [bits, control.owner]
    exact exists_congr fun u => (owns u).symm
  · intro x y first second
    exact control.unique x y ((owns x).mp first) ((owns y).mp second)
  · intro returned
    rcases control.success (happened returned) with done | ⟨u, at_swap⟩
    · exact .inl (finished done)
    · right
      refine ⟨u, ?_⟩
      rw [locals, update_of_ne]
      · exact at_swap
      · rintro rfl
        rw [at_swap] at before
        exact before trivial
  · rcases grows with same | ⟨event, same, allowed, -⟩
    · rw [same]
      exact control.ordered
    · rw [same]
      exact ordered_concat control.ordered allowed

lemma goes
    (word : s'.word = s.word) (log : s'.log = s.log) (before : ¬Owns pc) (after : ¬Owns l.pc)
    (mine : Place s.log t (s.locals t).force (s.locals t).unwinding pc →
      Place s.log t l.force l.unwinding l.pc) : Control s' := by
  refine control.outside at_pc locals ?_ (by rw [word]) word.trans before after
    (.inl log) ?_
  · rw [word, log]
    exact control.word
  · rw [log]
    exact mine (at_pc ▸ control.place t)

lemma ends {event : Event Thread} (idle : l.pc = .idle)
    (word : s'.word = s.word) (log : s'.log = s.log ++ [event])
    (before : ¬Owns pc) (allowed : Allowed s.log event)
    (other : ∀ u outcome, event ≠ .ended u outcome) : Control s' := by
  refine control.outside at_pc locals ?_ (by rw [word]) word.trans before ?_
    (.inr ⟨event, log, allowed, other⟩) ?_
  · rw [word, log]
    exact control.word.concat event
  · rw [idle]
    exact id
  · rw [idle]
    trivial

end

omit [DecidableEq Thread] in
/-- A closure has returned while one runs or is being ended: it is the one that has just ended. -/
lemma at_swap (owns : Owns (s.locals t).pc) (returned : Happened s.log .returned) :
    (s.locals t).pc = .swap complete := by
  rcases control.success returned with done | ⟨u, at_swap⟩
  · have runs := control.owner.mpr ⟨t, owns⟩
    rw [done] at runs
    exact absurd runs (by decide)
  · rwa [control.unique t u owns (by rw [at_swap]; trivial)]

lemma start {poison : Bool} (locals : s'.locals = update s.locals t l) (pc : l.pc = .init poison)
    (unwinding : l.unwinding = false) (free : s.word = poisoned ∨ s.word = incomplete)
    (word : s'.word = running) (log : s'.log = s.log ++ [.started t]) : Control s' := by
  have stopped : s.word &&& stateMask ≠ running := by
    rcases free with same | same <;> rw [same] <;> decide
  -- nobody runs a closure, and none has returned
  have none : ∀ u, ¬Owns (s.locals u).pc := fun u owns => stopped (control.owner.mpr ⟨u, owns⟩)
  have never : ¬Happened s.log .returned := by
    intro returned
    rcases control.success returned with done | ⟨u, at_swap⟩
    · rcases free with same | same <;> rw [same] at done <;> exact absurd done (by decide)
    · apply none u
      rw [at_swap]
      trivial
  have owns : ∀ u, Owns (s'.locals u).pc ↔ u = t := by
    intro u
    by_cases mover : u = t
    · subst mover
      rw [locals, update_self, pc]
      exact ⟨fun _ => rfl, fun _ => trivial⟩
    · rw [locals, update_of_ne mover]
      exact ⟨fun owns => absurd owns (none u), fun same => absurd same mover⟩
  constructor
  · refine control.places locals (.inr ⟨_, log⟩) ?_
    rw [pc]
    exact unwinding
  · rw [word]
    exact .inr (.inr (.inr (by decide)))
  · rw [word]
    exact ⟨fun _ => ⟨t, (owns t).mpr rfl⟩, fun _ => by decide⟩
  · intro x y first second
    rw [(owns x).mp first, (owns y).mp second]
  · rintro ⟨u, member⟩
    rw [log, mem_append, mem_singleton] at member
    rcases member with old | new
    · exact absurd ⟨u, old⟩ never
    · cases new
  · rw [log]
    exact ordered_concat control.ordered never

lemma finish {poison : Bool} {outcome : Outcome} (at_pc : (s.locals t).pc = .init poison)
    (offered : outcome = .poisoned → (s.locals t).force)
    (locals : s'.locals = update s.locals t
      ⟨.swap (setStateOnDropTo outcome), (s.locals t).force, outcome == .panicked⟩)
    (word : s'.word = s.word) (log : s'.log = s.log ++ [.ended t outcome]) : Control s' := by
  have mine : Owns (s.locals t).pc := by
    rw [at_pc]
    trivial
  have owns : ∀ u, Owns (s'.locals u).pc ↔ Owns (s.locals u).pc := by
    intro u
    by_cases mover : u = t
    · subst mover
      rw [locals, update_self]
      exact ⟨fun _ => mine, fun _ => trivial⟩
    · rw [locals, update_of_ne mover]
  have happened : Happened (s.log ++ [.ended t outcome]) outcome := happened_last t outcome
  constructor
  · refine control.places locals (.inr ⟨_, log⟩) ?_
    rw [log]
    cases outcome with
    | returned => exact ⟨.inl happened, .inl ⟨rfl, happened⟩⟩
    | poisoned =>
      exact ⟨.inr ⟨offered rfl, mem_append_right _ mem_cons_self⟩, .inr ⟨rfl, .inr happened⟩⟩
    | panicked => exact ⟨happened, .inr ⟨rfl, .inl happened⟩⟩
  · rw [word, log]
    exact control.word.concat _
  · rw [word, control.owner]
    exact exists_congr fun u => (owns u).symm
  · intro x y first second
    exact control.unique x y ((owns x).mp first) ((owns y).mp second)
  · rintro ⟨u, member⟩
    rw [log, mem_append, mem_singleton] at member
    rcases member with old | new
    · cases at_pc.symm.trans (control.at_swap mine ⟨u, old⟩)
    · cases new
      refine .inr ⟨t, ?_⟩
      rw [locals, update_self]
      rfl
  · rw [log]
    exact ordered_concat control.ordered trivial

lemma swap {setTo : UInt64} (at_pc : (s.locals t).pc = .swap setTo)
    (locals : s'.locals = update s.locals t l) {queue : UInt64}
    (pc : l.pc = .walk queue) (force : l.force = (s.locals t).force)
    (unwinding : l.unwinding = (s.locals t).unwinding) (word : s'.word = setTo)
    (log : s'.log = s.log) : Control s' := by
  have mine : Owns (s.locals t).pc := by
    rw [at_pc]
    trivial
  have here := control.place t
  rw [at_pc] at here
  obtain ⟨ended, value⟩ := here
  have none : ∀ u, ¬Owns (s'.locals u).pc := by
    intro u owns
    by_cases mover : u = t
    · subst mover
      rw [locals, update_self, pc] at owns
      exact owns
    · rw [locals, update_of_ne mover] at owns
      exact mover (control.unique u t owns mine)
  constructor
  · refine control.places locals (.inl log) ?_
    rw [pc, log, force, unwinding]
    exact ended
  · rw [word, log]
    rcases value with ⟨rfl, returned⟩ | ⟨rfl, failed⟩
    · exact .inr (.inr (.inl ⟨rfl, returned⟩))
    · exact .inr (.inl ⟨rfl, failed⟩)
  · rw [word]
    constructor
    · intro runs
      rcases value with ⟨rfl, -⟩ | ⟨rfl, -⟩ <;> exact absurd runs (by decide)
    · rintro ⟨u, owns⟩
      exact absurd owns (none u)
  · intro x y first
    exact absurd first (none x)
  · intro returned
    rw [log] at returned
    cases at_pc.symm.trans (control.at_swap mine returned)
    exact .inl word
  · rw [log]
    exact control.ordered

/-- What a thread that leaves its call has seen. -/
lemma leaves (at_pc : (s.locals t).pc = pc) (before : ¬Owns pc)
    (ended : Place s.log t (s.locals t).force (s.locals t).unwinding pc →
      Ended s.log t (s.locals t).force (s.locals t).unwinding) : Control (s.leave t) := by
  refine control.ends at_pc rfl rfl rfl rfl before ?_ ?_
  · have ended := ended (at_pc ▸ control.place t)
    rw [Ended] at ended
    split
    · rw [if_pos ‹_›] at ended
      exact .inl ended
    · rw [if_neg ‹_›] at ended
      exact ended
  · split <;> simp

lemma move (move : Move s t s') : Control s' := by
  cases move with
  | call force at_pc => exact control.goes at_pc rfl rfl rfl id id fun _ => rfl
  | completed at_pc done =>
    refine control.leaves at_pc id fun here => ?_
    rw [Ended, if_neg (by rw [here]; decide)]
    exact .inl (done ▸ control.word).returned
  | load at_pc => exact control.goes at_pc rfl rfl rfl id id fun here => ⟨here, control.word⟩
  | done at_pc =>
    refine control.leaves at_pc id fun here => ?_
    rw [Ended, if_neg (by rw [here.1]; decide)]
    exact .inl here.2.returned
  | poison at_pc force =>
    have here := control.place t
    rw [at_pc] at here
    exact control.ends at_pc rfl rfl rfl rfl id here.2.failed (by simp)
  | start at_pc free same =>
    have here := control.place t
    rw [at_pc] at here
    subst same
    exact control.start rfl rfl here.1 free rfl rfl
  | retry at_pc => exact control.goes at_pc rfl rfl rfl id id fun here => ⟨here.1, control.word⟩
  | finish at_pc offered => exact control.finish at_pc offered rfl rfl rfl
  | swap at_pc => exact control.swap at_pc rfl rfl rfl rfl rfl rfl
  | walked at_pc => exact control.leaves at_pc id id
  | back at_pc => exact control.goes at_pc rfl rfl rfl id id And.left
  | create at_pc runs nonnull aligned free =>
    exact control.goes at_pc rfl rfl rfl id id fun here => ⟨here.1, here.2, runs, aligned⟩
  | enqueue at_pc =>
    have here := control.place t
    rw [at_pc] at here
    obtain ⟨unwinding, -, runs, aligned⟩ := here
    have bits := bits_or_running aligned
    refine control.outside at_pc rfl (.inr (.inr (.inr bits))) ?_ ?_ id id (.inl rfl)
      unwinding
    · exact ⟨fun _ => runs, fun _ => bits⟩
    · intro done
      rw [done] at runs
      exact absurd runs (by decide)
  | discard at_pc => exact control.goes at_pc rfl rfl rfl id id fun here => ⟨here.1, control.word⟩
  | _ =>
    rename (s.locals t).pc = _ => at_pc
    exact control.goes at_pc rfl rfl rfl id id id

end Control
end Once
