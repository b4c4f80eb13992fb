import BpfSysroot.Once
import BpfSysroot.IntrusiveList

/-!
# The waiters of `Once`

What the threads do to the nodes, without the state bits and the calls around them. A
thread has a role: it holds a node of its own, waits with it, or walks over a list that it
took from the word. `Linked` says that the word's list and those of the walking threads
are disjoint and hold exactly the nodes that are enqueued and not signaled. Several threads
may walk at once: a forced call can start while the list of a panicked one is walked.
-/

namespace Once

open IntrusiveList Interleaving List Function Option

/-- What a thread has to do with nodes. -/
inductive Role (Thread : Type) where
  | none
  /-- holds a node with that link, which is not enqueued -/
  | holder (next me : UInt64)
  /-- waits for its node to be signaled -/
  | waiter (me : UInt64)
  | walker (queue : UInt64)
  | taking (queue next : UInt64)
  | signalling (queue next : UInt64) (thread : Thread)

namespace Role

variable {Thread : Type}

/-- The node that a thread has on its stack. -/
def node : Role Thread → Option UInt64
  | holder _ me => some me
  | waiter me => some me
  | _ => Option.none

/-- The node that a thread may access. -/
def address : Role Thread → Option UInt64
  | holder _ me => some me
  | waiter me => some me
  | taking q _ => some q
  | signalling q _ _ => some q
  | _ => Option.none

/-- Where the list begins that a thread walks over. -/
def queue : Role Thread → UInt64
  | walker q => q
  | taking q _ => q
  | signalling q _ _ => q
  | _ => 0

end Role

/-- The nodes, who deals with them, and the list that hangs on the word. -/
structure Lists (Thread : Type) where
  root : UInt64
  mem : UInt64 → Option (Waiter Thread)
  pending : List (Thread × UInt64)
  roles : Thread → Role Thread

section
variable {Thread : Type}

namespace Lists

def next (v : Lists Thread) (a : UInt64) : Option UInt64 := (v.mem a).map Waiter.next

/-- The list of the word, or that of a thread. -/
def head (v : Lists Thread) : Option Thread → UInt64
  | none => v.root
  | some t => (v.roles t).queue

def store (v : Lists Thread) (a : UInt64) (node : Option (Waiter Thread)) : Lists Thread :=
  { v with mem := Function.update v.mem a node }

end Lists

/-- An enqueued node that is not signaled: its thread waits, and knows who it is until the
walking thread has taken that. -/
structure Awaits (v : Lists Thread) (t : Thread) (a : UInt64) : Prop where
  role : v.roles t = .waiter a
  node : ∃ node, v.mem a = some node ∧ node.signaled = false ∧
    (node.thread = some t ∨ ∃ w next, v.roles w = .signalling a next t)

/-- What a thread knows about the nodes of its role. -/
def Keeps (v : Lists Thread) (t : Thread) : Role Thread → Prop
  | .holder next me => me ≠ 0 ∧ v.mem me = some ⟨some t, false, next⟩
  | .waiter me => me ≠ 0 ∧ ∃ node, v.mem me = some node ∧
      (node.signaled ∨ (t, me) ∈ v.pending)
  | .taking queue next => queue ≠ 0 ∧ v.next queue = some next
  | .signalling queue next thread =>
    queue ≠ 0 ∧ v.next queue = some next ∧ (thread, queue) ∈ v.pending
  | _ => True

/-- The lists of the word and of the threads that walk. -/
structure Linked (v : Lists Thread) (lists : Option Thread → List UInt64) : Prop where
  chain : ∀ i, Chain 0 v.next (v.head i) (lists i)
  nodup : ∀ i, (lists i).Nodup
  disjoint : ∀ i j a, a ∈ lists i → a ∈ lists j → i = j
  covers : ∀ a, (∃ i, a ∈ lists i) ↔ ∃ t, (t, a) ∈ v.pending
  awaits : ∀ t a, (t, a) ∈ v.pending → Awaits v t a
  keeps : ∀ t, Keeps v t (v.roles t)
  unique : ∀ t u a, (v.roles t).node = some a → (v.roles u).node = some a → t = u

variable {v v' : Lists Thread} {lists : Option Thread → List UInt64} {t u : Thread} {a b : UInt64}
  {role : Role Thread}

namespace Lists

lemma store_self (v : Lists Thread) (a : UInt64) (node : Option (Waiter Thread)) :
    (v.store a node).mem a = node := update_self ..

lemma store_ne (v : Lists Thread) (node : Option (Waiter Thread)) (ne : b ≠ a) :
    (v.store a node).mem b = v.mem b := update_of_ne ne ..

lemma store_eq (v : Lists Thread) (a : UInt64) : v.store a (v.mem a) = v := by
  rw [store, update_eq_self]

end Lists

/-- A role speaks about one node only. -/
lemma Keeps.congr (keeps : Keeps v t role)
    (same : ∀ a, role.address = some a → v'.mem a = v.mem a)
    (kept : ∀ x a, role.address = some a → (x, a) ∈ v.pending → (x, a) ∈ v'.pending) :
    Keeps v' t role := by
  cases role with
  | none => trivial
  | holder next me =>
    obtain ⟨nonnull, live⟩ := keeps
    exact ⟨nonnull, (same me rfl).trans live⟩
  | waiter me =>
    obtain ⟨nonnull, node, live, state⟩ := keeps
    exact ⟨nonnull, node, (same me rfl).trans live, state.imp_right (kept t me rfl)⟩
  | walker queue => trivial
  | taking queue next =>
    obtain ⟨nonnull, link⟩ := keeps
    refine ⟨nonnull, ?_⟩
    rwa [Lists.next, same queue rfl]
  | signalling queue next thread =>
    obtain ⟨nonnull, link, pending⟩ := keeps
    refine ⟨nonnull, ?_, kept thread queue rfl pending⟩
    rwa [Lists.next, same queue rfl]

lemma Keeps.live (keeps : Keeps v t role) (there : role.address = some a) :
    a ≠ 0 ∧ ∃ node, v.mem a = some node := by
  cases role with
  | none => cases there
  | holder next me =>
    cases there
    exact ⟨keeps.1, _, keeps.2⟩
  | waiter me =>
    cases there
    obtain ⟨nonnull, node, live, -⟩ := keeps
    exact ⟨nonnull, node, live⟩
  | walker queue => cases there
  | taking queue next =>
    cases there
    obtain ⟨node, live, -⟩ := map_eq_some_iff.mp keeps.2
    exact ⟨keeps.1, node, live⟩
  | signalling queue next thread =>
    cases there
    obtain ⟨node, live, -⟩ := map_eq_some_iff.mp keeps.2.1
    exact ⟨keeps.1, node, live⟩

lemma address_of_node (node : role.node = some a) : role.address = some a := by
  cases role with
  | holder next me => exact node
  | waiter me => exact node
  | _ => cases node

lemma queue_of_address (there : role.address = some a) : role.node = some a ∨ role.queue = a := by
  cases role with
  | holder next me => exact .inl there
  | waiter me => exact .inl there
  | taking queue next => exact .inr (some.inj there)
  | signalling queue next thread => exact .inr (some.inj there)
  | _ => cases there

namespace Linked

variable (linked : Linked v lists) {i : Option Thread}
include linked

lemma mem_queue (nonnull : (v.roles t).queue ≠ 0) : (v.roles t).queue ∈ lists (some t) := by
  obtain ⟨q, rest, same, -, -⟩ := (linked.chain (some t)).head nonnull
  rw [same]
  exact mem_cons_self

lemma awaits_of_mem (member : a ∈ lists i) : ∃ x, (x, a) ∈ v.pending ∧ Awaits v x a := by
  obtain ⟨x, pending⟩ := (linked.covers a).mp ⟨i, member⟩
  exact ⟨x, pending, linked.awaits x a pending⟩

lemma live_of_mem (member : a ∈ lists i) : ∃ node, v.mem a = some node ∧ node.signaled = false := by
  obtain ⟨x, -, -, node, live, unsignaled, -⟩ := linked.awaits_of_mem member
  exact ⟨node, live, unsignaled⟩

/-- Links that are in a list stay, so the lists do. -/
lemma chain_store {node : Option (Waiter Thread)}
    (link : ∀ i, b ∈ lists i → node.map Waiter.next = v.next b) (i : Option Thread) :
    Chain 0 (v.store b node).next (v.head i) (lists i) := by
  refine (linked.chain i).congr ?_
  intro a member
  rw [Lists.next]
  by_cases changed : a = b
  · subst changed
    rw [Lists.store_self]
    exact link i member
  · rw [Lists.store_ne v node changed]
    rfl

lemma nonnull_of_mem (member : a ∈ lists i) : a ≠ 0 := by
  obtain ⟨x, -, role, -⟩ := linked.awaits_of_mem member
  exact ((linked.keeps x).live (by rw [role]; rfl)).1

lemma not_pending (plays : v.roles t = role) (other : ∀ a, role ≠ .waiter a) (a : UInt64) :
    (t, a) ∉ v.pending := fun pending => other a (plays ▸ (linked.awaits t a pending).role)

/-- A thread that has a node which is in a list waits with it. -/
lemma waiter_of_mem (member : a ∈ lists i)
    (own : (v.roles t).node = some a) : v.roles t = .waiter a := by
  obtain ⟨x, -, role, -⟩ := linked.awaits_of_mem member
  have same : t = x := linked.unique t x a own (by rw [role]; rfl)
  rw [same]
  exact role

/-- A node that a thread accesses is its own or the first of the list that it walks. -/
lemma node_or_mem (there : (v.roles u).address = some a) :
    (v.roles u).node = some a ∨ a ∈ lists (some u) := by
  rcases queue_of_address there with own | queue
  · exact .inl own
  · right
    have nonnull := ((linked.keeps u).live there).1
    rw [← queue] at nonnull ⊢
    exact linked.mem_queue nonnull

/-- A node in the list of a walking thread is accessed by that thread and its own only. -/
lemma only_waiter (member : a ∈ lists (some t))
    (there : (v.roles u).address = some a) : u = t ∨ v.roles u = .waiter a := by
  rcases linked.node_or_mem there with own | other
  · exact .inr (linked.waiter_of_mem member own)
  · exact .inl (some.inj (linked.disjoint _ _ a other member))

lemma alone (outside : ∀ i, a ∉ lists i)
    (own : (v.roles t).node = some a) (there : (v.roles u).address = some a) : u = t := by
  rcases linked.node_or_mem there with node | member
  · exact linked.unique u t a node own
  · exact absurd member (outside _)

lemma holder_outside {next : UInt64}
    (role : v.roles t = .holder next a) (i : Option Thread) : a ∉ lists i := by
  intro member
  have waits := linked.waiter_of_mem member (by rw [role]; rfl)
  rw [role] at waits
  cases waits

lemma signaled_outside {node : Waiter Thread}
    (live : v.mem a = some node) (signaled : node.signaled) (i : Option Thread) :
    a ∉ lists i := by
  intro member
  obtain ⟨other, same, unsignaled⟩ := linked.live_of_mem member
  rw [live] at same
  cases same
  rw [signaled] at unsignaled
  cases unsignaled

end Linked
end

variable {Thread : Type} [DecidableEq Thread]

def Lists.play (v : Lists Thread) (t : Thread) (role : Role Thread) : Lists Thread :=
  { v with roles := Function.update v.roles t role }

/-- What a step of a thread does to the nodes. -/
inductive ListMove (v : Lists Thread) (t : Thread) : Lists Thread → Prop where
  | create {next me : UInt64} (role : v.roles t = .none) (nonnull : me ≠ 0)
      (free : v.mem me = none) :
      ListMove v t ((v.store me (some ⟨some t, false, next⟩)).play t (.holder next me))
  | enqueue {me : UInt64} (role : v.roles t = .holder v.root me) :
      ListMove v t { v.play t (.waiter me) with root := me, pending := (t, me) :: v.pending }
  | discard {next me : UInt64} (role : v.roles t = .holder next me) :
      ListMove v t ((v.store me none).play t .none)
  | leave {me : UInt64} {node : Waiter Thread} (role : v.roles t = .waiter me)
      (live : v.mem me = some node) (signaled : node.signaled) :
      ListMove v t ((v.store me none).play t .none)
  | adopt (role : v.roles t = .none) :
      ListMove v t { v.play t (.walker v.root) with root := 0 }
  | stop (role : v.roles t = .walker 0) : ListMove v t (v.play t .none)
  | next {queue : UInt64} {node : Waiter Thread} (role : v.roles t = .walker queue)
      (nonnull : queue ≠ 0) (live : v.mem queue = some node) :
      ListMove v t (v.play t (.taking queue node.next))
  | take {queue next : UInt64} {node : Waiter Thread} {thread : Thread}
      (role : v.roles t = .taking queue next) (live : v.mem queue = some node)
      (there : node.thread = some thread) :
      ListMove v t ((v.store queue (some { node with thread := none })).play t
        (.signalling queue next thread))
  | signal {queue next : UInt64} {node : Waiter Thread} {thread : Thread}
      (role : v.roles t = .signalling queue next thread) (live : v.mem queue = some node) :
      ListMove v t
        { (v.store queue (some { node with signaled := true })).play t (.walker next) with
          pending := v.pending.filter (·.2 ≠ queue) }

variable {v : Lists Thread} {lists : Option Thread → List UInt64} {t u : Thread} {a b : UInt64}
  {role : Role Thread} {node : Option (Waiter Thread)}

namespace Lists

section
variable (v : Lists Thread)

lemma play_self (t : Thread) (role : Role Thread) :
    (v.play t role).roles t = role := update_self ..

lemma play_ne (role : Role Thread) (ne : u ≠ t) :
    (v.play t role).roles u = v.roles u := update_of_ne ne ..

lemma head_self (t : Thread) (role : Role Thread) : (v.play t role).head (some t) = role.queue := by
  rw [head, play_self]

lemma head_ne (role : Role Thread) {i : Option Thread} (other : i ≠ some t) :
    (v.play t role).head i = v.head i := by
  cases i with
  | none => rfl
  | some u => rw [head, head, play_ne v role fun same => other (congrArg some same)]

end

/-- The lists begin where they did if the role goes on with the same list. -/
lemma head_play (queue : role.queue = (v.roles t).queue) (i : Option Thread) :
    (v.play t role).head i = v.head i := by
  by_cases mine : i = some t
  · subst mine
    exact (head_self v t role).trans queue
  · exact head_ne v role mine

end Lists

namespace Linked

open Once.Lists (head_ne head_play head_self play_ne play_self store_eq store_ne store_self)

section
variable (linked : Linked v lists) {old : Role Thread}
include linked

/-- Only the thread that moves can have got a node. -/
lemma unique_play
    (fresh : ∀ a, role.node = some a → ∀ u, u ≠ t → (v.roles u).node ≠ some a) (x y : Thread)
    (a : UInt64) (first : ((v.play t role).roles x).node = some a)
    (second : ((v.play t role).roles y).node = some a) : x = y := by
  by_cases mineX : x = t <;> by_cases mineY : y = t
  · rw [mineX, mineY]
  · subst mineX
    rw [play_self] at first
    rw [play_ne v role mineY] at second
    exact absurd second (fresh a first y mineY)
  · subst mineY
    rw [play_self] at second
    rw [play_ne v role mineX] at first
    exact absurd first (fresh a second x mineX)
  · rw [play_ne v role mineX] at first
    rw [play_ne v role mineY] at second
    exact linked.unique x y a first second

/-- A thread goes on waiting while another moves that does not signal it. -/
lemma awaits_play {v' : Lists Thread} {x : Thread}
    (roles : v'.roles = update v.roles t role) (idle : ∀ a, (t, a) ∉ v.pending)
    (pending : (x, a) ∈ v.pending) (mem : v'.mem a = v.mem a) (plays : v.roles t = old)
    (moves : ∀ next y, old ≠ .signalling a next y) : Awaits v' x a := by
  obtain ⟨waits, node, stored, unsignaled, known⟩ := linked.awaits x a pending
  have other : x ≠ t := fun same => idle a (same ▸ pending)
  refine ⟨?_, node, mem.trans stored, unsignaled, known.imp_right ?_⟩
  · rw [roles, update_of_ne other]
    exact waits
  · rintro ⟨w, next, signals⟩
    refine ⟨w, next, ?_⟩
    rw [roles, update_of_ne]
    · exact signals
    · rintro rfl
      exact moves next x (plays.symm.trans signals)

lemma keeps_play {v' : Lists Thread}
    (roles : v'.roles = update v.roles t role) (mine : Keeps v' t role)
    (others : ∀ u, u ≠ t → Keeps v u (v.roles u) → Keeps v' u (v.roles u)) (u : Thread) :
    Keeps v' u (v'.roles u) := by
  rw [roles]
  exact forall_update linked.keeps mine others u

/-- A node that is in no list, of the thread that moves, is changed or gone. -/
lemma store_outside (plays : v.roles t = old) (outside : ∀ i, b ∉ lists i)
    (others : ∀ u, u ≠ t → (v.roles u).address ≠ some b) (queue : role.queue = old.queue)
    (moves : ∀ a next x, old ≠ .signalling a next x) (idle : ∀ a, (t, a) ∉ v.pending)
    (mine : Keeps ((v.store b node).play t role) t role)
    (fresh : ∀ a, role.node = some a → ∀ u, u ≠ t → (v.roles u).node ≠ some a) :
    Linked ((v.store b node).play t role) lists where
  chain i := by
    rw [head_play (v := v.store b node) (queue.trans (congrArg Role.queue plays.symm))]
    exact linked.chain_store (fun i member => absurd member (outside i)) i
  nodup := linked.nodup
  disjoint := linked.disjoint
  covers := linked.covers
  awaits x a pending := by
    obtain ⟨i, member⟩ := (linked.covers a).mpr ⟨x, pending⟩
    have kept : a ≠ b := fun same => outside i (same ▸ member)
    exact linked.awaits_play rfl idle pending (store_ne v node kept) plays (moves a)
  keeps := by
    refine linked.keeps_play rfl mine fun u mover keeps => ?_
    refine keeps.congr ?_ (fun x a _ pending => pending)
    intro a there
    refine store_ne v node ?_
    rintro rfl
    exact others u mover there
  unique x y a := linked.unique_play fresh x y a

/-- A thread goes on with the list it walks, without a change to the nodes. -/
lemma replay (plays : v.roles t = old) (queue : role.queue = old.queue)
    (moves : ∀ a next x, old ≠ .signalling a next x) (waits : ∀ a, old ≠ .waiter a)
    (mine : Keeps v t role) (fresh : ∀ a, role.node ≠ some a) : Linked (v.play t role) lists := by
  have same : Linked ((v.store 0 (v.mem 0)).play t role) lists := by
    apply linked.store_outside plays _ _ queue moves (linked.not_pending plays waits)
    · rw [store_eq]
      exact mine.congr (fun _ _ => rfl) (fun _ _ _ pending => pending)
    · exact fun a node => absurd node (fresh a)
    · exact fun i member => linked.nonnull_of_mem member rfl
    · exact fun u _ there => ((linked.keeps u).live there).1 rfl
  rwa [store_eq] at same

lemma create {next me : UInt64} (idle : v.roles t = .none)
    (nonnull : me ≠ 0) (free : v.mem me = none) :
    Linked ((v.store me (some ⟨some t, false, next⟩)).play t (.holder next me)) lists := by
  have unused : ∀ u, (v.roles u).address ≠ some me := by
    intro u there
    obtain ⟨-, node, live⟩ := (linked.keeps u).live there
    rw [free] at live
    cases live
  refine linked.store_outside idle ?_ (fun u _ => unused u) rfl nofun
    (linked.not_pending idle nofun) ⟨nonnull, store_self v me _⟩ ?_
  · intro i member
    obtain ⟨node, live, -⟩ := linked.live_of_mem member
    rw [free] at live
    cases live
  · intro a node u _ own
    cases node
    exact unused u (address_of_node own)

lemma discard {next me : UInt64} (holds : v.roles t = .holder next me) :
    Linked ((v.store me none).play t .none) lists := by
  have own : (v.roles t).node = some me := by rw [holds]; rfl
  refine linked.store_outside holds (linked.holder_outside holds) ?_ rfl nofun
    (linked.not_pending holds nofun) trivial nofun
  intro u other there
  exact other (linked.alone (linked.holder_outside holds) own there)

lemma leave {me : UInt64} {node : Waiter Thread}
    (waits : v.roles t = .waiter me) (live : v.mem me = some node)
    (signaled : node.signaled) : Linked ((v.store me none).play t .none) lists := by
  have own : (v.roles t).node = some me := by rw [waits]; rfl
  have outside := linked.signaled_outside live signaled
  refine linked.store_outside waits outside ?_ rfl nofun ?_ trivial nofun
  · intro u other there
    exact other (linked.alone outside own there)
  · intro a pending
    have awaits := (linked.awaits t a pending).role
    rw [waits] at awaits
    cases awaits
    obtain ⟨i, member⟩ := (linked.covers me).mpr ⟨t, pending⟩
    exact outside i member

lemma stop (walks : v.roles t = .walker 0) : Linked (v.play t .none) lists :=
  linked.replay walks rfl nofun nofun trivial nofun

lemma next {queue : UInt64} {node : Waiter Thread}
    (walks : v.roles t = .walker queue) (nonnull : queue ≠ 0) (live : v.mem queue = some node) :
    Linked (v.play t (.taking queue node.next)) lists := by
  refine linked.replay walks rfl nofun nofun ⟨nonnull, ?_⟩ nofun
  rw [Lists.next, live]
  rfl

lemma take {queue next : UInt64} {node : Waiter Thread}
    {thread : Thread} (takes : v.roles t = .taking queue next) (live : v.mem queue = some node)
    (there : node.thread = some thread) :
    Linked ((v.store queue (some { node with thread := none })).play t
      (.signalling queue next thread)) lists := by
  have keeps := linked.keeps t
  rw [takes] at keeps
  obtain ⟨nonnull, link⟩ := keeps
  have member : queue ∈ lists (some t) := by
    have first := linked.mem_queue (by rw [takes]; exact nonnull)
    rwa [takes] at first
  have lonely : ∀ w more x, v.roles w ≠ .signalling queue more x := by
    intro w more x signals
    rcases linked.only_waiter member (by rw [signals]; rfl) with rfl | waits
    · rw [takes] at signals
      cases signals
    · rw [signals] at waits
      cases waits
  -- the thread that is taken is the one that waits
  have owner : ∀ x, (x, queue) ∈ v.pending → x = thread := by
    intro x pending
    obtain ⟨-, other, stored, -, known | ⟨w, more, signals⟩⟩ := linked.awaits x queue pending
    · rw [live] at stored
      cases stored
      rw [there] at known
      exact (some.inj known).symm
    · exact absurd signals (lonely w more x)
  constructor
  · intro i
    rw [head_play (by rw [Lists.store, takes]; rfl)]
    refine linked.chain_store (fun _ _ => ?_) i
    rw [Lists.next, live]
    rfl
  · exact linked.nodup
  · exact linked.disjoint
  · exact linked.covers
  · intro x a pending
    have idle := linked.not_pending takes nofun
    by_cases changed : a = queue
    · subst changed
      obtain ⟨waits, other, stored, unsignaled, -⟩ := linked.awaits x a pending
      rw [live] at stored
      cases stored
      refine ⟨(play_ne _ _ fun same : x = t => idle a (same ▸ pending)).trans waits, _,
        store_self .., unsignaled, .inr ⟨t, next, ?_⟩⟩
      rw [play_self, owner x pending]
    · exact linked.awaits_play rfl idle pending (store_ne _ _ changed) takes nofun
  · refine linked.keeps_play rfl ?_ fun u mover keeps => ?_
    · obtain ⟨x, pending, -⟩ := linked.awaits_of_mem member
      refine ⟨nonnull, ?_, owner x pending ▸ pending⟩
      rw [Lists.next, live] at link
      exact (congrArg _ (store_self ..)).trans link
    · by_cases same : (v.roles u).address = some queue
      · have waits := (linked.only_waiter member same).resolve_left mover
        rw [waits] at keeps ⊢
        obtain ⟨-, other, stored, state⟩ := keeps
        rw [live] at stored
        cases stored
        exact ⟨nonnull, _, store_self .., state⟩
      · refine keeps.congr ?_ (fun _ _ _ pending => pending)
        intro a at_a
        refine store_ne _ _ ?_
        rintro rfl
        exact same at_a
  · exact linked.unique_play nofun

lemma enqueue {me : UInt64} (holds : v.roles t = .holder v.root me) :
    Linked { v.play t (.waiter me) with root := me, pending := (t, me) :: v.pending }
      (update lists none (me :: lists none)) := by
  have keeps := linked.keeps t
  rw [holds] at keeps
  obtain ⟨nonnull, live⟩ := keeps
  have own : (v.roles t).node = some me := by rw [holds]; rfl
  have outside := linked.holder_outside holds
  have idle := linked.not_pending holds nofun
  -- the new node is in the word's list, the others are where they were
  have members : ∀ i a, a ∈ update lists none (me :: lists none) i ↔
      a ∈ lists i ∨ i = none ∧ a = me := by
    intro i a
    cases i with
    | none => simp [or_comm]
    | some u => simp
  constructor
  · refine (forall_update_iff lists fun i => Chain 0 v.next
      ({ v.play t (.waiter me) with root := me }.head i)).mpr ⟨?_, fun i other => ?_⟩
    · refine Chain.cons (linked.chain none) nonnull ?_
      change (v.mem me).map Waiter.next = some v.root
      rw [live]
      rfl
    · cases i with
      | none => exact absurd rfl other
      | some u =>
        have start : (v.play t (.waiter me)).head (some u) = v.head (some u) :=
          head_play (by rw [holds]; rfl) _
        have kept := linked.chain (some u)
        rw [← start] at kept
        exact kept
  · refine (forall_update_iff lists fun _ => Nodup).mpr ⟨?_, fun i _ => linked.nodup i⟩
    exact nodup_cons.mpr ⟨outside none, linked.nodup none⟩
  · intro i j a inI inJ
    rcases (members i a).mp inI with old | ⟨rfl, rfl⟩
    · rcases (members j a).mp inJ with old' | ⟨rfl, rfl⟩
      · exact linked.disjoint i j a old old'
      · exact absurd old (outside i)
    · rcases (members j a).mp inJ with old' | ⟨rfl, -⟩
      · exact absurd old' (outside j)
      · rfl
  · intro a
    constructor
    · rintro ⟨i, member⟩
      rcases (members i a).mp member with old | ⟨-, rfl⟩
      · obtain ⟨x, pending⟩ := (linked.covers a).mp ⟨i, old⟩
        exact ⟨x, mem_cons_of_mem _ pending⟩
      · exact ⟨t, mem_cons_self⟩
    · rintro ⟨x, pending⟩
      rcases mem_cons.mp pending with new | old
      · cases new
        exact ⟨none, (members none me).mpr (.inr ⟨rfl, rfl⟩)⟩
      · obtain ⟨i, member⟩ := (linked.covers a).mpr ⟨x, old⟩
        exact ⟨i, (members i a).mpr (.inl member)⟩
  · intro x a pending
    rcases mem_cons.mp pending with new | old
    · cases new
      exact ⟨play_self .., _, live, rfl, .inl rfl⟩
    · exact linked.awaits_play rfl idle old rfl holds nofun
  · refine linked.keeps_play rfl ⟨nonnull, _, live, .inr mem_cons_self⟩ fun u _ keeps => ?_
    exact keeps.congr (fun _ _ => rfl) (fun _ _ _ pending => mem_cons_of_mem _ pending)
  · intro x y a
    refine linked.unique_play ?_ x y a
    intro a own' u other there
    cases own'
    exact other (linked.unique u t me there own)

end

/-- The lists after the thread has taken that of the word. -/
def adopted (lists : Option Thread → List UInt64) (t : Thread) : Option Thread → List UInt64 :=
  Function.update (Function.update lists (some t) (lists none)) none []

lemma adopted_none : adopted lists t none = [] := update_self ..

lemma adopted_self : adopted lists t (some t) = lists none := by
  rw [adopted, update_of_ne (some_ne_none t), update_self]

lemma adopted_ne (other : u ≠ t) : adopted lists t (some u) = lists (some u) := by
  rw [adopted, update_of_ne (some_ne_none u), update_of_ne (fun same => other (some.inj same))]

lemma forall_adopted {P : Option Thread → List UInt64 → Prop} (word : P none [])
    (mine : P (some t) (lists none)) (others : ∀ u, u ≠ t → P (some u) (lists (some u)))
    (i : Option Thread) : P i (adopted lists t i) := by
  cases i with
  | none =>
    exact word
  | some u =>
    by_cases mover : u = t
    · subst mover
      rw [adopted_self]
      exact mine
    · rw [adopted_ne mover]
      exact others u mover

lemma mem_adopted (empty : lists (some t) = []) (i : Option Thread) (a : UInt64) :
    a ∈ adopted lists t i ↔
      ∃ j, a ∈ lists j ∧ (i = j ∧ j ≠ none ∨ i = some t ∧ j = none) := by
  cases i with
  | none => simp [adopted_none]
  | some u =>
    by_cases mover : u = t
    · subst mover
      rw [adopted_self]
      constructor
      · intro member
        exact ⟨none, member, .inr ⟨rfl, rfl⟩⟩
      · rintro ⟨j, member, ⟨rfl, -⟩ | ⟨-, rfl⟩⟩
        · rw [empty] at member
          cases member
        · exact member
    · rw [adopted_ne mover]
      constructor
      · intro member
        exact ⟨some u, member, .inl ⟨rfl, some_ne_none u⟩⟩
      · rintro ⟨j, member, ⟨rfl, -⟩ | ⟨same, rfl⟩⟩
        · exact member
        · exact absurd (some.inj same) mover

variable (linked : Linked v lists)
include linked

lemma adopt (idle : v.roles t = .none) :
    Linked { v.play t (.walker v.root) with root := 0 } (adopted lists t) := by
  have empty : lists (some t) = [] := by
    have chain := linked.chain (some t)
    rw [Lists.head, idle] at chain
    exact chain.of_null
  have members := mem_adopted empty
  constructor
  · refine forall_adopted rfl ?_ fun u mover => ?_
    · have chain := linked.chain none
      have start : (v.play t (.walker v.root)).head (some t) = v.root := head_self ..
      rw [Lists.head, ← start] at chain
      exact chain
    · have chain := linked.chain (some u)
      rw [← head_ne v (.walker v.root) fun same => mover (some.inj same)] at chain
      exact chain
  · exact forall_adopted nodup_nil (linked.nodup none) fun u _ => linked.nodup (some u)
  · intro i j a inI inJ
    obtain ⟨i', oldI, fromI⟩ := (members i a).mp inI
    obtain ⟨j', oldJ, fromJ⟩ := (members j a).mp inJ
    obtain rfl := linked.disjoint i' j' a oldI oldJ
    rcases fromI with ⟨rfl, some_thread⟩ | ⟨rfl, rfl⟩
    · rcases fromJ with ⟨rfl, -⟩ | ⟨-, none⟩
      · rfl
      · exact absurd none some_thread
    · rcases fromJ with ⟨-, some_thread⟩ | ⟨rfl, -⟩
      · exact absurd rfl some_thread
      · rfl
  · intro a
    refine Iff.trans ?_ (linked.covers a)
    constructor
    · rintro ⟨i, member⟩
      obtain ⟨j, old, -⟩ := (members i a).mp member
      exact ⟨j, old⟩
    · rintro ⟨j, old⟩
      cases j with
      | none => exact ⟨some t, (members _ a).mpr ⟨none, old, .inr ⟨rfl, rfl⟩⟩⟩
      | some u =>
        exact ⟨some u, (members _ a).mpr ⟨some u, old, .inl ⟨rfl, some_ne_none u⟩⟩⟩
  · intro x a pending
    exact linked.awaits_play rfl (linked.not_pending idle nofun) pending rfl idle nofun
  · refine linked.keeps_play rfl trivial fun u _ keeps => ?_
    exact keeps.congr (fun _ _ => rfl) (fun _ _ _ pending => pending)
  · exact linked.unique_play nofun

lemma signal {queue next : UInt64} {node : Waiter Thread}
    {thread : Thread} (signals : v.roles t = .signalling queue next thread) :
    Linked { (v.store queue (some { node with signaled := true })).play t (.walker next) with
        pending := v.pending.filter (·.2 ≠ queue) }
      (update lists (some t) (lists (some t)).tail) := by
  have keeps := linked.keeps t
  rw [signals] at keeps
  obtain ⟨nonnull, link, -⟩ := keeps
  have walked := linked.chain (some t)
  rw [Lists.head, signals, Role.queue] at walked
  obtain ⟨q, rest, same, link', chain⟩ := walked.head nonnull
  rw [link] at link'
  cases link'
  have member : queue ∈ lists (some t) := by
    rw [same]
    exact mem_cons_self
  obtain ⟨fresh, nodup⟩ := nodup_cons.mp (same ▸ linked.nodup (some t))
  rw [same, tail_cons]
  have mine : update lists (some t) rest (some t) = rest := update_self ..
  have others : ∀ i, i ≠ some t → update lists (some t) rest i = lists i :=
    fun i other => update_of_ne other ..
  have members : ∀ i a, a ∈ update lists (some t) rest i ↔ a ∈ lists i ∧ a ≠ queue := by
    intro i a
    by_cases mover : i = some t
    · subst mover
      rw [mine, same]
      constructor
      · intro inside
        exact ⟨mem_cons_of_mem _ inside, fun eq => fresh (eq ▸ inside)⟩
      · rintro ⟨inside, other⟩
        exact (mem_cons.mp inside).resolve_left other
    · rw [others i mover]
      constructor
      · intro inside
        exact ⟨inside, fun eq => mover (linked.disjoint _ _ queue (eq ▸ inside) member)⟩
      · exact fun inside => inside.1
  have kept : ∀ x a, (x, a) ∈ v.pending.filter (·.2 ≠ queue) ↔ (x, a) ∈ v.pending ∧ a ≠ queue := by
    intro x a
    rw [mem_filter, decide_eq_true_iff]
  constructor
  · intro i
    have links : ∀ a ∈ update lists (some t) rest i,
        (v.store queue (some { node with signaled := true })).next a = v.next a := by
      intro a inside
      rw [Lists.next, store_ne _ _ ((members i a).mp inside).2]
      rfl
    refine Chain.congr links ?_
    by_cases mover : i = some t
    · subst mover
      rw [mine]
      have start : (v.play t (.walker next)).head (some t) = next := head_self ..
      rw [← start] at chain
      exact chain
    · rw [others i mover]
      have old := linked.chain i
      rw [← head_ne v (.walker next) mover] at old
      exact old
  · intro i
    by_cases mover : i = some t
    · subst mover
      rw [mine]
      exact nodup
    · rw [others i mover]
      exact linked.nodup i
  · intro i j a inI inJ
    exact linked.disjoint i j a ((members i a).mp inI).1 ((members j a).mp inJ).1
  · intro a
    constructor
    · rintro ⟨i, inside⟩
      obtain ⟨old, other⟩ := (members i a).mp inside
      obtain ⟨x, pending⟩ := (linked.covers a).mp ⟨i, old⟩
      exact ⟨x, (kept x a).mpr ⟨pending, other⟩⟩
    · rintro ⟨x, pending⟩
      obtain ⟨old, other⟩ := (kept x a).mp pending
      obtain ⟨i, inside⟩ := (linked.covers a).mpr ⟨x, old⟩
      exact ⟨i, (members i a).mpr ⟨inside, other⟩⟩
  · intro x a pending
    obtain ⟨old, different⟩ := (kept x a).mp pending
    refine linked.awaits_play rfl (linked.not_pending signals nofun) old
      (store_ne _ _ different) signals fun more y signals' => ?_
    cases signals'
    exact different rfl
  · refine linked.keeps_play rfl trivial fun u mover keeps => ?_
    by_cases there : (v.roles u).address = some queue
    · have waits := (linked.only_waiter member there).resolve_left mover
      rw [waits]
      exact ⟨nonnull, _, store_self .., .inl rfl⟩
    · have away : ∀ a, (v.roles u).address = some a → a ≠ queue :=
        fun a at_a eq => there (eq ▸ at_a)
      exact keeps.congr (fun a at_a => store_ne _ _ (away a at_a))
        (fun x a at_a pending => (kept x a).mpr ⟨pending, away a at_a⟩)
  · exact linked.unique_play nofun

/-- Whatever a thread does to the nodes, the lists hold those that are pending. -/
lemma move {v' : Lists Thread} (move : ListMove v t v') : ∃ lists', Linked v' lists' := by
  cases move with
  | create role nonnull free => exact ⟨_, linked.create role nonnull free⟩
  | enqueue role => exact ⟨_, linked.enqueue role⟩
  | discard role => exact ⟨_, linked.discard role⟩
  | leave role live signaled => exact ⟨_, linked.leave role live signaled⟩
  | adopt role => exact ⟨_, linked.adopt role⟩
  | stop role => exact ⟨_, linked.stop role⟩
  | next role nonnull live => exact ⟨_, linked.next role nonnull live⟩
  | take role live there => exact ⟨_, linked.take role live there⟩
  | signal role live => exact ⟨_, linked.signal role⟩

end Linked
end Once
