import BpfSysroot.OnceControl
import BpfSysroot.OnceQueue

/-!
# What holds in every run of `Once`

Three invariants are kept: `Control` is about the closure, `Linked` about the waiters, and
`Woken` about threads that are parked though they are signaled. Together they exclude the
failures, so that every step is a `Move`.
-/

namespace Once

open Function

section
variable {Thread : Type} [DecidableEq Thread] {s s' : State Thread} {t u : Thread}
  {l : Local Thread}

/-- What a thread at a place has to do with nodes. -/
def role : PC Thread → Role Thread
  | .enqueue cur me => .holder (cur &&& ~~~stateMask) me
  | .check me | .park me => .waiter me
  | .walk queue | .unpark queue _ => .walker queue
  | .take queue next => .taking queue next
  | .signal queue next thread => .signalling queue next thread
  | _ => .none

def view (s : State Thread) : Lists Thread :=
  ⟨s.word &&& ~~~stateMask, s.mem, s.pending, fun t => role (s.locals t).pc⟩

lemma roles_update (locals : Thread → Local Thread) (t : Thread) (l : Local Thread) :
    (fun u => role (update locals t l u).pc) =
      update (fun u => role (locals u).pc) t (role l.pc) := by
  funext u
  by_cases mover : u = t
  · subst mover
    rw [update_self, update_self]
  · rw [update_of_ne mover, update_of_ne mover]

/-- A step that leaves the nodes and the role of its thread. -/
lemma view_same {pc : PC Thread} (at_pc : (s.locals t).pc = pc)
    (locals : s'.locals = update s.locals t l)
    (word : s'.word &&& ~~~stateMask = s.word &&& ~~~stateMask) (mem : s'.mem = s.mem)
    (pending : s'.pending = s.pending) (same : role l.pc = role pc) : view s' = view s := by
  rw [view, view, word, mem, pending, locals, roles_update, same, ← at_pc, update_eq_self]

/-- A step whose effect on the nodes is that of a list move. -/
lemma listMove_view {v : Lists Thread} (move : ListMove (view s) t v)
    (locals : s'.locals = update s.locals t l)
    (root : s'.word &&& ~~~stateMask = v.root) (mem : s'.mem = v.mem)
    (pending : s'.pending = v.pending) (roles : v.roles = update (view s).roles t (role l.pc)) :
    ListMove (view s) t (view s') := by
  have same : view s' = v := by
    rw [view, root, mem, pending, locals, roles_update]
    cases v
    cases roles
    rfl
  rw [same]
  exact move

/-- What a step does to the nodes. -/
lemma Move.lists (control : Control s) (move : Move s t s') :
    view s' = view s ∨ ListMove (view s) t (view s') := by
  have here := control.place t
  have roles : (view s).roles t = role (s.locals t).pc := rfl
  cases move with
  | start at_pc free same =>
    refine .inl (view_same at_pc rfl ?_ rfl rfl rfl)
    have bits : s.word &&& ~~~stateMask = 0 := by
      rw [same]
      rcases free with rfl | rfl <;> decide
    have none : running &&& ~~~stateMask = 0 := by decide
    exact none.trans bits.symm
  | @swap setTo at_pc =>
    rw [at_pc] at here roles
    have empty : setTo &&& ~~~stateMask = 0 := by
      rcases here.2 with ⟨rfl, -⟩ | ⟨rfl, -⟩ <;> decide
    exact .inr (listMove_view (.adopt roles) rfl empty rfl rfl rfl)
  | walked at_pc =>
    rw [at_pc] at roles
    exact .inr (listMove_view (.stop roles) rfl rfl rfl rfl rfl)
  | next at_pc nonnull live =>
    rw [at_pc] at roles
    exact .inr (listMove_view (.next roles nonnull live) rfl rfl rfl rfl rfl)
  | take at_pc live there =>
    rw [at_pc] at roles
    exact .inr (listMove_view (.take roles live there) rfl rfl rfl rfl rfl)
  | signal at_pc live =>
    rw [at_pc] at roles
    exact .inr (listMove_view (.signal roles live) rfl rfl rfl rfl rfl)
  | create at_pc runs nonnull aligned free =>
    rw [at_pc] at roles
    exact .inr (listMove_view (.create roles nonnull free) rfl rfl rfl rfl rfl)
  | enqueue at_pc =>
    rw [at_pc] at here roles
    obtain ⟨-, -, -, aligned⟩ := here
    exact .inr (listMove_view (.enqueue roles) rfl (queue_or_running aligned) rfl rfl rfl)
  | discard at_pc =>
    rw [at_pc] at roles
    exact .inr (listMove_view (.discard roles) rfl rfl rfl rfl rfl)
  | leaves at_pc live signaled =>
    rw [at_pc] at roles
    exact .inr (listMove_view (.leave roles live signaled) rfl rfl rfl rfl rfl)
  | _ =>
    rename (s.locals t).pc = _ => at_pc
    exact .inl (view_same at_pc rfl rfl rfl rfl rfl)

/-- A thread that is parked though its node is signaled has its token, or is about to get it. -/
def Woken (s : State Thread) : Prop :=
  ∀ t a node, (s.locals t).pc = .park a → s.mem a = some node → node.signaled →
    s.token t ∨ ∃ w next, (s.locals w).pc = .unpark next t

namespace Woken

/-- A step that signals nobody and unparks nobody. -/
lemma frame (woken : Woken s) (locals : s'.locals = update s.locals t l)
    (parked : ∀ a node, l.pc = .park a → s'.mem a = some node → node.signaled = false)
    (quiet : ∀ next u, (s.locals t).pc ≠ .unpark next u)
    (tokens : ∀ u, u ≠ t → s.token u → s'.token u)
    (signals : ∀ u a node, (s.locals u).pc = .park a → s'.mem a = some node →
      node.signaled → ∃ node', s.mem a = some node' ∧ node'.signaled) : Woken s' := by
  intro u a node at_park live signaled
  by_cases mover : u = t
  · subst mover
    rw [locals, update_self] at at_park
    rw [parked a node at_park live] at signaled
    cases signaled
  · rw [locals, update_of_ne mover] at at_park
    obtain ⟨node', live', signaled'⟩ := signals u a node at_park live signaled
    rcases woken u a node' at_park live' signaled' with token | ⟨w, next, unparks⟩
    · exact .inl (tokens u mover token)
    · right
      refine ⟨w, next, ?_⟩
      rw [locals, update_of_ne]
      · exact unparks
      · rintro rfl
        exact quiet next u unparks

lemma goes (woken : Woken s) (locals : s'.locals = update s.locals t l)
    (mem : s'.mem = s.mem) (after : ∀ a, l.pc ≠ .park a)
    (quiet : ∀ next u, (s.locals t).pc ≠ .unpark next u)
    (tokens : ∀ u, u ≠ t → s.token u → s'.token u) : Woken s' := by
  refine woken.frame locals (fun a node at_park => absurd at_park (after a)) quiet tokens ?_
  intro u a node at_park live signaled
  rw [mem] at live
  exact ⟨node, live, signaled⟩

omit [DecidableEq Thread] in
lemma role_of_park {a : UInt64} (at_park : (s.locals u).pc = .park a) :
    (view s).roles u = .waiter a := congrArg role at_park

lemma move (woken : Woken s) {lists : Option Thread → List UInt64}
    (linked : Linked (view s) lists) (move : Move s t s') : Woken s' := by
  have quiet : ∀ {pc : PC Thread}, (s.locals t).pc = pc → (∀ next u, pc ≠ .unpark next u) →
      ∀ next u, (s.locals t).pc ≠ .unpark next u := by
    intro pc at_pc other
    rwa [at_pc]
  have keep : ∀ u, u ≠ t → s.token u → s.token u := fun _ _ token => token
  have gone : ∀ me u a node, (s.locals u).pc = .park a →
      update s.mem me none a = some node → node.signaled →
      ∃ node', s.mem a = some node' ∧ node'.signaled := by
    intro me u a node _ live signaled
    by_cases changed : a = me
    · subst changed
      rw [update_self] at live
      cases live
    · rw [update_of_ne changed] at live
      exact ⟨node, live, signaled⟩
  cases move with
  | @take queue next node thread at_pc live there =>
    refine woken.frame rfl (by simp) (quiet at_pc (by simp)) keep ?_
    intro u a node' at_park live' signaled
    by_cases changed : a = queue
    · subst changed
      cases (s.store_self a _).symm.trans live'
      exact ⟨node, live, signaled⟩
    · exact ⟨node', (s.store_ne _ changed).symm.trans live', signaled⟩
  | @signal queue next node thread at_pc live =>
    have keeps := linked.keeps t
    rw [show (view s).roles t = .signalling queue next thread from congrArg role at_pc] at keeps
    have pending := linked.awaits thread queue keeps.2.2
    intro u a node' at_park live' signaled
    have other : u ≠ t := by
      rintro rfl
      cases ((s.store queue _).goto_self u _).symm.trans at_park
    have at_park' : (s.locals u).pc = .park a :=
      ((s.store queue _).goto_ne _ other).symm.trans at_park
    by_cases changed : a = queue
    · -- the parked thread is the one that is unparked next
      subst changed
      have same : u = thread := linked.unique u thread a
        (by rw [role_of_park at_park']; rfl) (by rw [pending.role]; rfl)
      exact .inr ⟨t, next, same ▸ (s.store a _).goto_self t _⟩
    · have live'' : s.mem a = some node' := (s.store_ne _ changed).symm.trans live'
      rcases woken u a node' at_park' live'' signaled with token | ⟨w, more, unparks⟩
      · exact .inl token
      · refine .inr ⟨w, more, ((s.store queue _).goto_ne _ ?_).trans unparks⟩
        rintro rfl
        rw [at_pc] at unparks
        cases unparks
  | @unpark next thread at_pc =>
    intro u a node' at_park live' signaled
    have other : u ≠ t := by
      rintro rfl
      cases (s.goto_self u _).symm.trans at_park
    have at_park' : (s.locals u).pc = .park a := (s.goto_ne _ other).symm.trans at_park
    by_cases target : u = thread
    · subst target
      exact .inl (update_self ..)
    · rcases woken u a node' at_park' live' signaled with token | ⟨w, more, unparks⟩
      · exact .inl ((update_of_ne target ..).trans token)
      · refine .inr ⟨w, more, (s.goto_ne _ ?_).trans unparks⟩
        rintro rfl
        rw [at_pc] at unparks
        cases unparks
        exact target rfl
  | @create cur me at_pc runs nonnull aligned free =>
    refine woken.frame rfl (by simp) (quiet at_pc (by simp)) keep ?_
    intro u a node' at_park live' signaled
    have changed : a ≠ me := by
      rintro rfl
      obtain ⟨-, node, live⟩ := (linked.keeps u).live (by rw [role_of_park at_park]; rfl)
      exact absurd (free.symm.trans live) (by simp)
    exact ⟨node', (s.store_ne _ changed).symm.trans live', signaled⟩
  | discard at_pc =>
    exact woken.frame rfl (by simp) (quiet at_pc (by simp)) keep (gone _)
  | leaves at_pc live signaled =>
    exact woken.frame rfl (by simp) (quiet at_pc (by simp)) keep (gone _)
  | parks at_pc live unsignaled =>
    refine woken.frame rfl ?_ (quiet at_pc (by simp)) keep ?_
    · intro a node' at_park live'
      cases at_park
      cases live.symm.trans live'
      exact unsignaled
    · exact fun u a node' at_park live' signaled => ⟨node', live', signaled⟩
  | wake at_pc =>
    refine woken.goes rfl rfl (by simp) (quiet at_pc (by simp)) ?_
    intro u other token
    exact (update_of_ne other ..).trans token
  | _ =>
    rename (s.locals t).pc = _ => at_pc
    exact woken.goes rfl rfl (by simp) (quiet at_pc (by simp)) keep

end Woken

section
variable {lists : Option Thread → List UInt64} {queue next me : UInt64} {action : Action}

omit [DecidableEq Thread] in
/-- The node whose thread is taken still has it. -/
lemma thread_there (linked : Linked (view s) lists) (at_pc : (s.locals t).pc = .take queue next) :
    ∃ node thread, s.mem queue = some node ∧ node.thread = some thread := by
  have takes : (view s).roles t = .taking queue next := congrArg role at_pc
  have member : queue ∈ lists (some t) := by
    have keeps := linked.keeps t
    rw [takes] at keeps
    have first := linked.mem_queue (by rw [takes]; exact keeps.1)
    rwa [takes] at first
  obtain ⟨x, -, -, node, live, -, known | ⟨w, more, signals⟩⟩ := linked.awaits_of_mem member
  · exact ⟨node, x, live, known⟩
  · rcases linked.only_waiter member (by rw [signals]; rfl) with rfl | waits
    · rw [takes] at signals
      cases signals
    · rw [signals] at waits
      cases waits

lemma callInner_move (control : Control s) {cur : UInt64} (at_pc : (s.locals t).pc = .top cur) :
    Move s t (callInner s t cur) := by
  have here := control.place t
  rw [at_pc] at here
  rw [callInner]
  split
  next done =>
    exact .done (done ▸ at_pc)
  next not_done =>
    split
    next poison =>
      exact .poison (poison.1 ▸ at_pc) poison.2
    · split
      next free =>
        split
        · exact .start at_pc free ‹_›
        · exact .retry at_pc
      next taken =>
        rw [if_pos]
        · exact .enter at_pc
        · rcases here.2 with same | ⟨same, -⟩ | ⟨same, -⟩ | runs
          · exact absurd (.inr same) taken
          · exact absurd (.inl same) taken
          · exact absurd same not_done
          · exact runs

lemma walk_move (linked : Linked (view s) lists) (at_pc : (s.locals t).pc = .walk queue) :
    Move s t (wakeWaiters s t (.walk queue)) := by
  rw [wakeWaiters]
  split
  next null =>
    exact .walked (null ▸ at_pc)
  next nonnull =>
    have walks : (view s).roles t = .walker queue := congrArg role at_pc
    have member := linked.mem_queue (by rw [walks]; exact nonnull)
    rw [walks] at member
    obtain ⟨node, live, -⟩ := linked.live_of_mem member
    have live' : s.mem queue = some node := live
    rw [live']
    exact .next at_pc nonnull live'

/-- The invariants exclude the failures. -/
lemma step_move (control : Control s) (linked : Linked (view s) lists)
    (done : act s t action = some s') : Move s t s' := by
  have live_of : ∀ {pc : PC Thread} {a}, (s.locals t).pc = pc → (role pc).address = some a →
      ∃ node, s.mem a = some node := by
    intro pc a at_pc there
    have roles : (view s).roles t = role pc := congrArg role at_pc
    exact ((linked.keeps t).live (roles ▸ there)).2
  unfold act at done
  split at done
  next at_pc =>
    cases done
    exact .call _ at_pc
  next at_pc =>
    cases done
    split
    · exact .completed at_pc ‹_›
    · exact .slow at_pc
  next at_pc =>
    cases done
    exact .load at_pc
  next at_pc =>
    cases done
    exact callInner_move control at_pc
  next outcome at_pc =>
    split at done
    · cases done
    next offered =>
      cases done
      refine .finish at_pc ?_
      intro poison
      simpa [poison] using offered
  next setTo at_pc =>
    have runs : s.word &&& stateMask = running :=
      control.owner.mpr ⟨t, by rw [show (s.locals t).pc = .swap setTo from at_pc]; trivial⟩
    rw [if_pos runs] at done
    cases done
    exact .swap at_pc
  next at_pc =>
    cases done
    exact walk_move linked at_pc
  next at_pc =>
    cases done
    obtain ⟨node, thread, live, there⟩ := thread_there linked at_pc
    simp only [wakeWaiters, live, there]
    exact .take at_pc live there
  next at_pc =>
    cases done
    obtain ⟨node, live⟩ := live_of at_pc rfl
    simp only [wakeWaiters, live]
    exact .signal at_pc live
  next at_pc =>
    cases done
    exact .unpark at_pc
  next at_pc =>
    split at done
    · cases done
      exact .back at_pc
    · cases done
  next at_pc =>
    split at done
    next conditions =>
      obtain ⟨runs, nonnull, aligned, free⟩ := conditions
      cases done
      exact .create at_pc runs nonnull aligned (Option.isNone_iff_eq_none.mp free)
    · cases done
  next at_pc =>
    cases done
    rw [tryEnqueue]
    split
    next same =>
      subst same
      exact .enqueue at_pc
    · exact .discard at_pc
  next at_pc =>
    obtain ⟨node, live⟩ := live_of at_pc rfl
    rw [live] at done
    cases done
    split
    · exact .leaves at_pc live ‹_›
    · exact .parks at_pc live (Bool.not_eq_true _ ▸ ‹_›)
  next at_pc =>
    split at done
    · cases done
      exact .wake at_pc
    · cases done
  next at_pc =>
    cases done
    exact .spurious at_pc
  · cases done

end

structure Inv (s : State Thread) : Prop where
  control : Control s
  linked : ∃ lists, Linked (view s) lists
  woken : Woken s

omit [DecidableEq Thread] in
lemma inv_init : Inv (init : State Thread) := by
  refine ⟨⟨fun t => trivial, .inl rfl, ?_, ?_, ?_, ?_⟩, ⟨fun _ => [], ?_⟩, ?_⟩
  · constructor
    · intro runs
      exact absurd runs (by decide : incomplete &&& stateMask ≠ running)
    · rintro ⟨t, owns⟩
      exact owns.elim
  · intro t u owns
    exact owns.elim
  · rintro ⟨t, member⟩
    cases member
  · intro pre event post split
    cases pre <;> cases split
  · constructor
    · intro i
      cases i with
      | none => exact (by decide : incomplete &&& ~~~stateMask = 0)
      | some t => rfl
    · exact fun i => List.nodup_nil
    · intro i j a member
      cases member
    · intro a
      constructor
      · rintro ⟨i, member⟩
        cases member
      · rintro ⟨t, member⟩
        cases member
    · intro t a member
      cases member
    · exact fun t => trivial
    · intro t u a own
      cases own
  · intro t a node at_park
    cases at_park

lemma inv_step (label : Thread × Action) (inv : Inv s) (done : step s label = some s') :
    Inv s' := by
  obtain ⟨control, ⟨lists, linked⟩, woken⟩ := inv
  have move : Move s label.1 s' := step_move control linked done
  refine ⟨control.move move, ?_, woken.move linked move⟩
  rcases move.lists control with same | lists_move
  · exact ⟨lists, same.symm ▸ linked⟩
  · exact linked.move lists_move

/-- What is claimed of every state that a run reaches. -/
structure Safe (s : State Thread) : Prop where
  /-- at most one closure is running -/
  closures : ∀ t u p q, (s.locals t).pc = .init p → (s.locals u).pc = .init q → t = u
  /-- no closure has started after one returned, calls return and panic for a reason -/
  ordered : Ordered s.log
  /-- a call panics only after a closure panicked, unless closures poison without a panic -/
  panics : (∀ t, Event.ended t .poisoned ∉ s.log) → ∀ pre t force post,
    s.log = pre ++ .callPanicked t force :: post → Happened pre .panicked
  /-- no assertion or `unwrap` failed, and no node was read that is gone -/
  sound : ∀ t, (s.locals t).pc ≠ .failed
  /-- a node that is enqueued and not signaled is once in the word's list or in that of one
  thread that walks, and its thread is inside `wait` -/
  waiters : ∃ lists : Option Thread → List UInt64,
    (∀ i, IntrusiveList.Chain 0 (view s).next ((view s).head i) (lists i)) ∧
    ∀ t a, (t, a) ∈ s.pending → (∃! i, a ∈ lists i) ∧ (∀ i, (lists i).count a ≤ 1) ∧
      ((s.locals t).pc = .check a ∨ (s.locals t).pc = .park a)
  /-- nobody is left parked after it was signaled -/
  woken : Woken s

omit [DecidableEq Thread] in
lemma role_waiter {pc : PC Thread} {a : UInt64} (waits : role pc = .waiter a) :
    pc = .check a ∨ pc = .park a := by
  cases pc with
  | check me =>
    cases waits
    exact .inl rfl
  | park me =>
    cases waits
    exact .inr rfl
  | _ => cases waits

omit [DecidableEq Thread] in
lemma Inv.safe (inv : Inv s) : Safe s := by
  obtain ⟨control, ⟨lists, linked⟩, woken⟩ := inv
  constructor
  · intro t u p q first second
    apply control.unique
    · rw [first]
      trivial
    · rw [second]
      trivial
  · exact control.ordered
  · intro never pre t force post split
    rcases control.ordered pre _ post split with panicked | ⟨u, poison⟩
    · exact panicked
    · refine absurd ?_ (never u)
      rw [split]
      exact List.mem_append_left _ poison
  · intro t failed
    have here := control.place t
    rw [failed] at here
    exact here
  · refine ⟨lists, linked.chain, fun t a pending => ?_⟩
    obtain ⟨i, member⟩ := (linked.covers a).mpr ⟨t, pending⟩
    refine ⟨⟨i, member, fun j other => linked.disjoint j i a other member⟩, ?_, ?_⟩
    · intro j
      exact List.nodup_iff_count_le_one.mp (linked.nodup j) a
    · exact role_waiter (linked.awaits t a pending).role
  · exact woken

end

/-- Every state that any number of threads reach, in any interleaving of their steps. -/
theorem once_safe {Thread : Type} [DecidableEq Thread] (labels : List (Thread × Action))
    (s : State Thread) (done : Interleaving.run step init labels = some s) : Safe s :=
  (Interleaving.run_invariant (fun _ label _ inv step => inv_step label inv step) inv_init
    done).safe

/-- A thread waits while another one initialises, and the first wakes it up. -/
def waitingRun : List (Nat × Action) :=
  [(0, .call false), (0, .go), (0, .go), (0, .go), (1, .call false), (1, .go), (1, .go), (1, .go),
    (1, .create 64), (1, .go), (1, .go), (0, .finish .returned), (0, .go), (0, .go), (0, .go),
    (0, .go), (1, .spurious), (0, .go), (1, .go), (1, .go), (1, .go), (0, .go)]

theorem once_safe_waiting :
    ∃ s, Interleaving.run step init waitingRun = some s ∧ s.log.length = 4 ∧ Safe s := by
  have some : ((Interleaving.run step init waitingRun).map (·.log.length)) = some 4 := by
    decide +kernel
  obtain ⟨s, done, length⟩ := Option.map_eq_some_iff.mp some
  exact ⟨s, done, length, once_safe waitingRun s done⟩

end Once
