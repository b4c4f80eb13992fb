import BpfSysroot.ArcPhases

/-!
# Steps of threads that share `Arc`s

Every allocation is in one of the phases, in every state that is reached. A step of a thread
trades some of its shares of one allocation for others, and takes the allocation to the phase
that these make up.
-/

namespace ArcCounting

open Holdings Interleaving List Function Option
open Phase (live_of_tokens of_final of_lock of_strong of_unique of_weak)

/-- Shares of one allocation. -/
def parts (ks : List Share) (a : Nat) : Multiset (Share × Nat) :=
  (ks : Multiset Share).map (·, a)

@[simp]
lemma parts_nil (a : Nat) : parts [] a = 0 := rfl

@[simp]
lemma parts_cons (k : Share) (ks : List Share) (a : Nat) :
    parts (k :: ks) a = {(k, a)} + parts ks a := by
  simp [parts, ← Multiset.cons_coe]

lemma count_parts (ks : List Share) (a : Nat) (k : Share) :
    (parts ks a).count (k, a) = ks.count k :=
  (Multiset.count_map_eq_count' _ _ (Prod.mk_left_injective a) k).trans (Multiset.coe_count ..)

lemma count_parts_of_ne (ks : List Share) {a b : Nat} (other : b ≠ a) (k : Share) :
    (parts ks a).count (k, b) = 0 := by
  refine Multiset.count_eq_zero.mpr fun mem => ?_
  obtain ⟨_, _, same⟩ := Multiset.mem_map.mp mem
  exact other (Prod.mk.inj same).2.symm

/-- What is known of the values that a thread has loaded. -/
def Pc.Ok : Pc → Prop
  | .upgrade _ n => n < maxRefcount
  | .weakCount _ weak => weak ≠ 0
  | _ => True

variable {Thread T : Type} {s s' : State Thread T} {t : Thread} {a bound bound' : Nat} {l : Local}
  {pc : Pc} {k : Share} {gotten : List Share} {kept : Multiset (Share × Nat)} {p p' : Phase}
  {inner inner' : ArcInner T}

lemma access_live (heap : s.heap a = .live inner)
    (f : ArcInner T → State Thread T) : s.access a f = f inner := by
  rw [State.access, heap]

lemma check_of {p : Prop} [Decidable p] (holds : p) : s.check p = s := if_pos holds

lemma below_inner (below : s.below) (heap : s.heap a = .live inner) (some : a < s.next) :
    inner.strong < maxRefcount ∧ (inner.weak < maxRefcount ∨ inner.weak = usizeMax) := by
  have below := of_decide_eq_true below a some
  rw [heap] at below
  exact of_decide_eq_true below

lemma shares_update [DecidableEq Thread] (l : Local) :
    (fun u => (update s.threads t l u).shares) =
      update (fun u => (s.threads u).shares) t l.shares := by
  funext u
  by_cases same : u = t
  · subst same
    simp
  · simp [update_of_ne same]

lemma pcs_update [DecidableEq Thread] {threads : Thread → Local} (pcs : ∀ u, (threads u).pc.Ok)
    (ok : l.pc.Ok) (u : Thread) : (update threads t l u).pc.Ok := by
  by_cases same : u = t
  · subst same
    rw [update_self]
    exact ok
  · rw [update_of_ne same]
    exact pcs u

variable [Fintype Thread]

def State.shares (s : State Thread T) : Multiset (Share × Nat) :=
  pool fun t => (s.threads t).shares

structure Describes (p : Phase) (s : State Thread T) (a : Nat) : Prop where
  slot : p.Is (s.heap a)
  tokens : ∀ k, s.shares.count (k, a) = p.tokens k
  destroyed : s.log.count (.dropped a) + s.log.count (.moved a) = p.destroyed
  released : s.log.count (.freed a) = p.released

/-- What holds in every state; `bound` is on the weak counts. -/
structure Core (bound : Nat) (s : State Thread T) : Prop where
  sound : s.failed = false
  running : s.aborted = false
  fresh : ∀ a, s.heap a = .unallocated ↔ s.next ≤ a
  pcs : ∀ t, (s.threads t).pc.Ok
  phases : ∀ a, ∃ p, Describes p s a
  small : ∀ a, s.shares.count (.weak, a) < bound

/-- A thread holds a share of an allocation. -/
abbrev State.Has (s : State Thread T) (t : Thread) (k : Share) (a : Nat)
    (kept : Multiset (Share × Nat)) : Prop :=
  (s.threads t).shares = parts [k] a + kept

/-- What a share of a thread says of the allocation. -/
structure Held (bound : Nat) (s : State Thread T) (t : Thread) (k : Share) (a : Nat)
    (kept : Multiset (Share × Nat)) (p : Phase) (inner : ArcInner T) : Prop where
  core : Core bound s
  before : s.Has t k a kept
  described : Describes p s a
  some : p.tokens k ≠ 0
  heap : s.heap a = .live inner
  lt : a < s.next
  strong : inner.strong = p.strong
  weak : inner.weak = p.weak
  alive : inner.data.isSome = p.alive

lemma Core.fresh_update (core : Core bound s) {slot : Slot T} (some : a < s.next)
    (changed : slot ≠ .unallocated) (b : Nat) :
    update s.heap a slot b = .unallocated ↔ s.next ≤ b := by
  by_cases same : b = a
  · subst same
    rw [update_self]
    exact ⟨fun gone => absurd gone changed, fun above => absurd some (not_lt.mpr above)⟩
  · rw [update_of_ne same]
    exact core.fresh b

lemma Core.mono (core : Core bound s) (grows : bound ≤ bound') : Core bound' s :=
  { core with small := fun a => lt_of_lt_of_le (core.small a) grows }

lemma Core.record (core : Core bound s) (n : Nat) : Core bound (s.record (.counted n)) where
  sound := core.sound
  running := core.running
  fresh := core.fresh
  pcs := core.pcs
  phases a := by
    obtain ⟨p, described⟩ := core.phases a
    refine ⟨p, described.slot, described.tokens, ?_, ?_⟩
    · simpa [State.record] using described.destroyed
    · simpa [State.record] using described.released
  small := core.small

lemma core_init : Core maxRefcount (init : State Thread T) := by
  have shares : (init : State Thread T).shares = 0 := Finset.sum_eq_zero fun t _ => rfl
  refine ⟨rfl, rfl, fun a => ?_, fun t => trivial, fun a => ⟨.unallocated, ?_⟩, fun a => ?_⟩
  · simp [init]
  · refine ⟨rfl, fun k => ?_, rfl, rfl⟩
    rw [shares]
    rfl
  · rw [shares]
    simp [maxRefcount]

lemma Core.holds (core : Core bound s) (before : s.Has t k a kept) :
    ∃ p inner, Held bound s t k a kept p inner := by
  obtain ⟨p, described⟩ := core.phases a
  have some : p.tokens k ≠ 0 := by
    rw [← described.tokens k]
    refine Multiset.count_ne_zero.mpr (mem_pool.mpr ⟨t, ?_⟩)
    rw [before]
    simp
  obtain ⟨inner, heap, strong, weak, alive⟩ := described.slot.inner (live_of_tokens some)
  refine ⟨p, inner, core, before, described, some, heap, ?_, strong, weak, alive⟩
  by_contra above
  cases heap.symm.trans ((core.fresh a).mpr (Nat.le_of_not_lt above))

/-- A weak count that is not locked is small. -/
lemma Core.weak_le (core : Core bound s) (described : Describes p s a)
    (few : p.weak ≤ p.tokens .weak + 1) : p.weak ≤ bound := by
  have small := core.small a
  rw [described.tokens] at small
  omega

/-- The weak count next to a weak handle is small. -/
lemma Held.weak_le (h : Held bound s t .weak a kept p inner) : inner.weak ≤ bound := by
  rw [h.weak]
  refine h.core.weak_le h.described ?_
  rcases of_weak h.some with ⟨k, m, rfl⟩ | ⟨m, rfl⟩ | ⟨m, rfl⟩ | ⟨m, rfl⟩ <;>
    simp [Phase.weak, Phase.tokens]

lemma Core.deref (core : Core bound s) (before : s.Has t .strong a l.handles) :
    Core bound (s.access a fun inner => s.check inner.data.isSome) := by
  obtain ⟨p, inner, h⟩ := core.holds before
  rw [access_live h.heap, check_of (h.alive.trans (Phase.alive_of_strong h.some))]
  exact core

lemma Core.weakCount (core : Core maxRefcount s) (before : s.Has t .strong a l.handles) :
    Core maxRefcount (weakCount s a) := by
  obtain ⟨p, inner, h⟩ := core.holds before
  rw [ArcCounting.weakCount, access_live h.heap]
  split
  · exact core.record 0
  next unlocked =>
    rcases of_strong h.some with ⟨k, m, rfl⟩ | ⟨k, rfl⟩
    · rw [check_of (h.weak ▸ Nat.succ_ne_zero m)]
      exact core.record _
    · exact absurd h.weak unlocked

lemma Core.bounded (core : Core (maxRefcount + 1) s) (below : s.below) :
    Core maxRefcount s := by
  refine { core with small := fun a => ?_ }
  obtain ⟨p, described⟩ := core.phases a
  have small := core.small a
  rw [described.tokens] at small ⊢
  by_cases none : p.tokens .weak = 0
  · rw [none]
    simp [maxRefcount]
  · obtain ⟨inner, heap, -, weak, -⟩ := described.slot.inner (live_of_tokens none)
    have lt : a < s.next := by
      by_contra above
      cases heap.symm.trans ((core.fresh a).mpr (Nat.le_of_not_lt above))
    have most := (below_inner below heap lt).2
    rw [weak] at most
    rcases of_weak none with ⟨k, m, rfl⟩ | ⟨m, rfl⟩ | ⟨m, rfl⟩ | ⟨m, rfl⟩ <;>
    · simp only [Phase.weak, Phase.tokens, usizeMax, maxRefcount] at most small ⊢
      omega

variable [DecidableEq Thread]

lemma Core.exchange (core : Core bound s) {given : List Share} {events : List Event}
    (threads : s'.threads = update s.threads t l) (log : s'.log = s.log ++ events)
    (heap : ∀ b, b ≠ a → s'.heap b = s.heap b) (sound : s'.failed = false)
    (running : s'.aborted = false) (fresh : ∀ b, s'.heap b = .unallocated ↔ s'.next ≤ b)
    (before : (s.threads t).shares = parts given a + kept)
    (after : l.shares = parts gotten a + kept) (ok : l.pc.Ok) (old : Describes p s a)
    (slot : p'.Is (s'.heap a)) (step : Phase.Step p given gotten p') (grows : bound ≤ bound')
    (few : gotten.count .weak + bound ≤ given.count .weak + bound')
    (destroyed : p'.destroyed =
      p.destroyed + (events.count (.dropped a) + events.count (.moved a)))
    (released : p'.released = p.released + events.count (.freed a))
    (about : ∀ b, b ≠ a → .dropped b ∉ events ∧ .moved b ∉ events ∧ .freed b ∉ events) :
    Core bound' s' := by
  obtain ⟨frame, shares, pool_eq⟩ :=
    Holdings.exchange (fun u => (s.threads u).shares) t (parts gotten a) before
  change s.shares = parts given a + frame at shares
  have shares' : s'.shares = parts gotten a + frame := by
    rw [State.shares, threads, shares_update, after]
    exact pool_eq
  constructor
  · exact sound
  · exact running
  · exact fresh
  · rw [threads]
    exact pcs_update core.pcs ok
  · intro b
    by_cases same : b = a
    · subst same
      refine ⟨p', slot, fun k => ?_, ?_, ?_⟩
      · have old := old.tokens k
        have trade := step.tokens k
        rw [shares, Multiset.count_add, count_parts] at old
        rw [shares', Multiset.count_add, count_parts]
        omega
      · have old := old.destroyed
        rw [log, count_append, count_append]
        omega
      · have old := old.released
        rw [log, count_append]
        omega
    · obtain ⟨q, described⟩ := core.phases b
      obtain ⟨dropped, moved, freed⟩ := about b same
      refine ⟨q, ?_, fun k => ?_, ?_, ?_⟩
      · rw [heap b same]
        exact described.slot
      · have tokens := described.tokens k
        rw [shares, Multiset.count_add, count_parts_of_ne _ same] at tokens
        rw [shares', Multiset.count_add, count_parts_of_ne _ same]
        exact tokens
      · rw [log, count_append, count_append, count_eq_zero.mpr dropped, count_eq_zero.mpr moved]
        exact described.destroyed
      · rw [log, count_append, count_eq_zero.mpr freed]
        exact described.released
  · intro b
    have small := core.small b
    rw [shares, Multiset.count_add] at small
    rw [shares', Multiset.count_add]
    by_cases same : b = a
    · subst same
      rw [count_parts] at small ⊢
      omega
    · rw [count_parts_of_ne _ same] at small ⊢
      omega

section
variable (h : Held bound s t k a kept p inner)
include h

lemma Held.puts (step : Phase.Step p [k] gotten p')
    (after : l.shares = parts gotten a + kept) (ok : l.pc.Ok) (slot : p'.Is (.live inner'))
    (destroyed : p'.destroyed = p.destroyed) (released : p'.released = p.released) :
    Core (bound + 1) ((s.put a inner').goes t l) := by
  have few := step.weak_le
  refine h.core.exchange rfl (append_nil _).symm (fun b other => ?_) h.core.sound h.core.running
    (h.core.fresh_update h.lt nofun) h.before after ok h.described ?_ step (Nat.le_succ _)
    (by omega) destroyed released fun _ _ => ⟨nofun, nofun, nofun⟩
  · exact update_of_ne other _ _
  · change p'.Is (update s.heap a (.live inner') a)
    rw [update_self]
    exact slot

lemma Held.goes (step : Phase.Step p [k] gotten p')
    (after : l.shares = parts gotten a + kept) (ok : l.pc.Ok) (slot : p'.Is (.live inner))
    (destroyed : p'.destroyed = p.destroyed) (released : p'.released = p.released) :
    Core (bound + 1) (s.goes t l) := by
  have few := step.weak_le
  rw [← h.heap] at slot
  exact h.core.exchange rfl (append_nil _).symm (fun _ _ => rfl) h.core.sound h.core.running
    h.core.fresh h.before after ok h.described slot step (Nat.le_succ _) (by omega) destroyed
    released fun _ _ => ⟨nofun, nofun, nofun⟩

lemma Held.stays (after : l.shares = parts [k] a + kept)
    (ok : l.pc.Ok) : Core (bound + 1) (s.goes t l) :=
  h.goes (.stays p k) after ok ⟨live_of_tokens h.some, h.strong, h.weak, h.alive⟩ rfl rfl

end

lemma Held.keeps (h : Held bound s t k a l.handles p inner) (same : pc.shares = {(k, a)})
    (ok : pc.Ok) : Core (bound + 1) (s.goes t (l.at_ pc)) :=
  h.stays (by simp [same]) ok

lemma Core.allocates (core : Core bound s) {v : T} (step : Phase.Step .unallocated [] [k] p)
    (after : l.shares = parts [k] s.next + (s.threads t).shares) (ok : l.pc.Ok) :
    Core bound ((s.allocate v).goes t l) := by
  obtain ⟨q, described⟩ := core.phases s.next
  obtain rfl : q = .unallocated := by
    have slot := described.slot
    rw [(core.fresh s.next).mpr le_rfl] at slot
    exact slot
  have slot : p.Is (update s.heap s.next (.live ⟨1, 1, some v⟩) s.next) := by
    rw [update_self]
    cases step <;> exact ⟨rfl, rfl, rfl, rfl⟩
  refine core.exchange rfl (append_nil _).symm (fun b other => ?_) core.sound core.running
    (fun b => ?_) (zero_add _).symm after ok described slot step le_rfl ?_ ?_ ?_
    fun _ _ => ⟨nofun, nofun, nofun⟩
  · exact update_of_ne other _ _
  · change update s.heap s.next (.live ⟨1, 1, some v⟩) b = .unallocated ↔ s.next + 1 ≤ b
    by_cases same : b = s.next
    · subst same
      rw [update_self]
      exact ⟨nofun, fun above => absurd above (Nat.not_succ_le_self _)⟩
    · rw [update_of_ne same, core.fresh b]
      omega
  · cases step <;> exact le_rfl
  · cases step <;> rfl
  · cases step <;> rfl

lemma Core.takes (core : Core bound s) {event : Event} (f : T → State Thread T → State Thread T)
    (before : s.Has t .final a kept) (after : l.shares = parts [.husk] a + kept) (ok : l.pc.Ok)
    (destroys : event = .dropped a ∨ event = .moved a) :
    ∃ v taken, s.take a event f = f v taken ∧ Core bound (taken.goes t l) := by
  obtain ⟨p, inner, h⟩ := core.holds before
  obtain ⟨m, rfl⟩ := of_final h.some
  obtain ⟨v, data⟩ := isSome_iff_exists.mp h.alive
  refine ⟨v, (s.put a { inner with data := none }).record event, ?_, ?_⟩
  · rw [State.take, access_live h.heap, data]
  · have slot : (Phase.husk m).Is
        (update s.heap a (.live { inner with data := none }) a) := by
      rw [update_self]
      exact ⟨rfl, h.strong, h.weak, rfl⟩
    refine core.exchange rfl rfl (fun b other => ?_) core.sound core.running
      (core.fresh_update h.lt nofun) before after ok h.described slot (.destroy m) le_rfl
      le_rfl ?_ ?_ ?_
    · exact update_of_ne other _ _
    · rcases destroys with rfl | rfl <;> simp [Phase.destroyed]
    · rcases destroys with rfl | rfl <;> simp [Phase.released]
    · intro b other
      rcases destroys with rfl | rfl <;> simp [other]

lemma ok_resume (next : Option Nat) : (resume next).Ok := by
  cases next <;> trivial

lemma successor_eq {n : Nat} (small : n ≤ maxRefcount) : successor n = n + 1 :=
  Nat.mod_eq_of_lt (by rw [maxRefcount] at small; omega)

lemma predecessor_succ {n : Nat} (small : n ≤ maxRefcount) : predecessor (n + 1) = n := by
  rw [predecessor, usizeMax]
  rw [maxRefcount] at small
  omega

lemma Core.clone (core : Core maxRefcount s) (below : s.below)
    (at_pc : l.pc = .idle) (before : s.Has t .strong a l.handles) :
    Core (maxRefcount + 1) (clone s t l a) := by
  have after : ((l.addArc a).addArc a).shares = parts [.strong, .strong] a + l.handles := by
    simp [Local.shares, at_pc, Pc.shares]
  have ok : ((l.addArc a).addArc a).pc.Ok := by
    simp [at_pc, Pc.Ok]
  obtain ⟨p, inner, h⟩ := core.holds before
  have small := le_of_lt (below_inner below h.heap h.lt).1
  rw [ArcCounting.clone, access_live h.heap, successor_eq small, if_neg (not_lt.mpr small)]
  have more := congrArg (· + 1) h.strong
  rcases of_strong h.some with ⟨k, m, rfl⟩ | ⟨k, rfl⟩
  · exact h.puts (.clone k m) after ok ⟨rfl, more, h.weak, h.alive⟩ rfl rfl
  · exact h.puts (.cloneLocked (k + 1)) after ok ⟨rfl, more, h.weak, h.alive⟩ rfl rfl

/-- The drop of an `Arc`, in a call of its own or in `make_mut`. -/
lemma Core.dropArc (core : Core maxRefcount s) (below : s.below) {next : Option Nat}
    (before : s.Has t .strong a (made next + l.handles)) :
    Core (maxRefcount + 1) (dropArc s t l a next) := by
  have resumed : (l.at_ (resume next)).shares = parts [] a + (made next + l.handles) := by
    simp
  have ok := ok_resume next
  have final : (l.at_ (.dropValue a next)).shares = parts [.final] a + (made next + l.handles) := by
    simp [Pc.shares]
  obtain ⟨p, inner, h⟩ := core.holds before
  have counts {n : Nat} (strong : inner.strong = n + 1) :
      ArcCounting.dropArc s t l a next = (s.put a { inner with strong := n }).goes t
        (l.at_ (if n = 0 then .dropValue a next else resume next)) := by
    have small := (below_inner below h.heap h.lt).1
    rw [ArcCounting.dropArc, access_live h.heap, check_of (strong ▸ Nat.succ_ne_zero n), strong,
      predecessor_succ (by omega)]
    by_cases last : n = 0
    · rw [if_neg (by simp [last]), if_pos last]
    · rw [if_pos (by simp [last]), if_neg last]
  rcases of_strong h.some with ⟨k, m, rfl⟩ | ⟨k, rfl⟩
  · rw [counts h.strong]
    cases k with
    | zero => exact h.puts (.dropLast m) final trivial ⟨rfl, rfl, h.weak, h.alive⟩ rfl rfl
    | succ k => exact h.puts (.drop k m) resumed ok ⟨rfl, rfl, h.weak, h.alive⟩ rfl rfl
  · rw [counts h.strong]
    exact h.puts (.dropLocked k) resumed ok ⟨rfl, rfl, h.weak, h.alive⟩ rfl rfl

/-- The drop of a `Weak`, or of the weak count that the strong handles have together. -/
lemma Core.dropWeak (core : Core maxRefcount s) {next : Option Nat}
    (kind : k = .weak ∨ k = .husk) (before : s.Has t k a (made next + l.handles)) :
    Core (maxRefcount + 1) (dropWeak s t l a next) := by
  have resumed : (l.at_ (resume next)).shares = parts [] a + (made next + l.handles) := by
    simp
  have ok := ok_resume next
  have last : (l.at_ (.dealloc a next)).shares = parts [.free] a + (made next + l.handles) := by
    simp [Pc.shares]
  obtain ⟨p, inner, h⟩ := core.holds before
  have counts {n : Nat} (weak : inner.weak = n + 1) (small : inner.weak ≤ maxRefcount) :
      ArcCounting.dropWeak s t l a next = (s.put a { inner with weak := n }).goes t
        (l.at_ (if n = 0 then .dealloc a next else resume next)) := by
    rw [ArcCounting.dropWeak, access_live h.heap, check_of (weak ▸ Nat.succ_ne_zero n), weak,
      predecessor_succ (by omega)]
    by_cases last : n = 0
    · rw [if_pos (by simp [last]), if_pos last]
    · rw [if_neg (by simp [last]), if_neg last]
  rcases kind with rfl | rfl
  · rcases of_weak h.some with ⟨k, m, rfl⟩ | ⟨m, rfl⟩ | ⟨m, rfl⟩ | ⟨m, rfl⟩ <;>
      rw [counts h.weak h.weak_le]
    · exact h.puts (.weakDrop k m) resumed ok ⟨rfl, h.strong, rfl, h.alive⟩ rfl rfl
    · exact h.puts (.weakDropFinal m) resumed ok ⟨rfl, h.strong, rfl, h.alive⟩ rfl rfl
    · exact h.puts (.weakDropHusk m) resumed ok ⟨rfl, h.strong, rfl, h.alive⟩ rfl rfl
    · cases m with
      | zero => exact h.puts .weakDropLast last trivial ⟨rfl, h.strong, rfl, h.alive⟩ rfl rfl
      | succ m =>
        exact h.puts (.weakDropOrphaned m) resumed ok ⟨rfl, h.strong, rfl, h.alive⟩ rfl rfl
  · obtain ⟨m, rfl⟩ := Phase.of_husk h.some
    rw [counts h.weak (h.weak.trans_le (core.weak_le h.described le_rfl))]
    cases m with
    | zero => exact h.puts .giveUpLast last trivial ⟨rfl, h.strong, rfl, h.alive⟩ rfl rfl
    | succ m => exact h.puts (.giveUp m) resumed ok ⟨rfl, h.strong, rfl, h.alive⟩ rfl rfl

lemma Core.weakClone (core : Core maxRefcount s) (at_pc : l.pc = .idle)
    (before : s.Has t .weak a l.handles) : Core (maxRefcount + 1) (weakClone s t l a) := by
  have after : ((l.addWeak a).addWeak a).shares = parts [.weak, .weak] a + l.handles := by
    simp [Local.shares, at_pc, Pc.shares]
  have ok : ((l.addWeak a).addWeak a).pc.Ok := by
    simp [at_pc, Pc.Ok]
  obtain ⟨p, inner, h⟩ := core.holds before
  rw [ArcCounting.weakClone, access_live h.heap, successor_eq h.weak_le,
    if_neg (not_lt.mpr h.weak_le)]
  have more := congrArg (· + 1) h.weak
  rcases of_weak h.some with ⟨k, m, rfl⟩ | ⟨m, rfl⟩ | ⟨m, rfl⟩ | ⟨m, rfl⟩
  · exact h.puts (.weakClone k (m + 1)) after ok ⟨rfl, h.strong, more, h.alive⟩ rfl rfl
  · exact h.puts (.weakCloneFinal (m + 1)) after ok ⟨rfl, h.strong, more, h.alive⟩ rfl rfl
  · exact h.puts (.weakCloneHusk (m + 1)) after ok ⟨rfl, h.strong, more, h.alive⟩ rfl rfl
  · exact h.puts (.weakCloneOrphaned m) after ok ⟨rfl, h.strong, more, h.alive⟩ rfl rfl

lemma Core.sends (core : Core bound s) {other : Thread} {l l' : Local}
    {x : Share × Nat} (before : (s.threads t).shares = {x} + l.shares)
    (after : l'.shares = {x} + ((s.goes t l).threads other).shares) (ok : l.pc.Ok)
    (ok' : l'.pc.Ok) : Core bound ((s.goes t l).goes other l') := by
  have shares : ((s.goes t l).goes other l').shares = s.shares := by
    have given := pool_give (fun u => (s.threads u).shares) t other before
    rw [← shares_update] at given
    rw [State.shares, State.goes, shares_update, after]
    exact given
  constructor
  · exact core.sound
  · exact core.running
  · exact core.fresh
  · exact pcs_update (pcs_update core.pcs ok) ok'
  · intro a
    obtain ⟨p, described⟩ := core.phases a
    refine ⟨p, described.slot, ?_, described.destroyed, described.released⟩
    rw [shares]
    exact described.tokens
  · rw [shares]
    exact core.small

section
variable {spurious : Bool} {cloneValue : T → T}

/-- The strong count is taken from one to zero. -/
lemma Held.last (h : Held bound s t .strong a l.handles p inner) (one : inner.strong = 1)
    (final : pc.shares = {(.final, a)}) (ok : pc.Ok) :
    Core (bound + 1) ((s.put a { inner with strong := 0 }).goes t (l.at_ pc)) := by
  rcases of_strong h.some with ⟨k, m, rfl⟩ | ⟨k, rfl⟩
  · obtain rfl : k = 0 := Nat.succ.inj (h.strong.symm.trans one)
    exact h.puts (.dropLast m) (by simp [final]) ok ⟨rfl, rfl, h.weak, h.alive⟩ rfl rfl
  · cases h.strong.symm.trans one

lemma Held.locks (h : Held bound s t .strong a l.handles p inner) (one : inner.weak = 1) :
    Core (bound + 1)
      ((s.put a { inner with weak := usizeMax }).goes t (l.at_ (.uniqueLoad a))) := by
  rcases of_strong h.some with ⟨k, m, rfl⟩ | ⟨k, rfl⟩
  · obtain rfl : m = 0 := Nat.succ.inj (h.weak.symm.trans one)
    exact h.puts (.lock k) (by simp [Pc.shares]) trivial ⟨rfl, h.strong, rfl, h.alive⟩ rfl rfl
  · cases h.weak.symm.trans one

lemma Core.call (core : Core maxRefcount s) (below : s.below)
    (at_pc : (s.threads t).pc = .idle) {c : Call Thread T}
    (done : call s t (s.threads t) c = some s') : Core (maxRefcount + 1) s' := by
  have more := Nat.le_succ maxRefcount
  have arc {a : Nat} {f : Local → State Thread T}
      (done : ((s.threads t).takeArc a).map f = some s') :
      ∃ l, l.pc = .idle ∧ s.Has t .strong a l.handles ∧ s' = f l := by
    obtain ⟨l, taken, rfl⟩ := map_eq_some_iff.mp done
    have held := Local.takeArc_eq_some taken
    rw [held] at at_pc
    exact ⟨l, at_pc, by rw [State.Has, held]; simp [Local.shares_of_idle at_pc], rfl⟩
  have weak {a : Nat} {f : Local → State Thread T}
      (done : ((s.threads t).takeWeak a).map f = some s') :
      ∃ l, l.pc = .idle ∧ s.Has t .weak a l.handles ∧ s' = f l := by
    obtain ⟨l, taken, rfl⟩ := map_eq_some_iff.mp done
    have held := Local.takeWeak_eq_some taken
    rw [held] at at_pc
    exact ⟨l, at_pc, by rw [State.Has, held]; simp [Local.shares_of_idle at_pc], rfl⟩
  cases c with
  | new v =>
    cases done
    refine (core.allocates .new ?_ ?_).mono more
    · simp [Local.shares, at_pc, Pc.shares]
    · simp [at_pc, Pc.Ok]
  | deref a =>
    obtain ⟨l, idle, before, rfl⟩ := arc done
    exact (core.deref before).mono more
  | clone a =>
    obtain ⟨l, idle, before, rfl⟩ := arc done
    exact core.clone below idle before
  | drop a =>
    obtain ⟨l, idle, before, rfl⟩ := arc done
    refine core.dropArc below ?_
    rw [made, zero_add]
    exact before
  | downgrade a =>
    obtain ⟨l, idle, before, rfl⟩ := arc done
    obtain ⟨p, inner, h⟩ := core.holds before
    rw [access_live h.heap]
    exact h.keeps rfl trivial
  | tryUnwrap a =>
    obtain ⟨l, idle, before, rfl⟩ := arc done
    obtain ⟨p, inner, h⟩ := core.holds before
    rw [access_live h.heap]
    split
    next one =>
      exact h.last one rfl trivial
    · exact core.mono more
  | getMut a =>
    obtain ⟨l, idle, before, rfl⟩ := arc done
    obtain ⟨p, inner, h⟩ := core.holds before
    rw [access_live h.heap]
    split
    next one =>
      exact h.locks one
    · exact core.mono more
  | makeMut a =>
    obtain ⟨l, idle, before, rfl⟩ := arc done
    obtain ⟨p, inner, h⟩ := core.holds before
    rw [access_live h.heap]
    split
    next one =>
      exact h.last one rfl trivial
    · exact h.keeps rfl trivial
  | weakCount a =>
    obtain ⟨l, idle, before, rfl⟩ := arc done
    exact (core.weakCount before).mono more
  | weakClone a =>
    obtain ⟨l, idle, before, rfl⟩ := weak done
    exact core.weakClone idle before
  | upgrade a =>
    obtain ⟨l, idle, before, rfl⟩ := weak done
    obtain ⟨p, inner, h⟩ := core.holds before
    rw [access_live h.heap]
    exact h.keeps rfl (below_inner below h.heap h.lt).1
  | weakDrop a =>
    obtain ⟨l, idle, before, rfl⟩ := weak done
    refine core.dropWeak (.inl rfl) ?_
    rw [made, zero_add]
    exact before
  | weakWeakCount a =>
    obtain ⟨l, idle, before, rfl⟩ := weak done
    obtain ⟨p, inner, h⟩ := core.holds before
    rw [access_live h.heap]
    refine h.keeps rfl ?_
    rw [h.weak]
    rcases of_weak h.some with ⟨k, m, rfl⟩ | ⟨m, rfl⟩ | ⟨m, rfl⟩ | ⟨m, rfl⟩ <;>
      exact Nat.succ_ne_zero _
  | sendArc a other =>
    obtain ⟨l, idle, before, rfl⟩ := arc done
    have ok : l.pc.Ok := by
      rw [idle]
      trivial
    refine (core.sends ?_ (Local.shares_addArc _ a) ok (pcs_update core.pcs ok other)).mono more
    simp [before, Local.shares_of_idle idle]
  | sendWeak a other =>
    obtain ⟨l, idle, before, rfl⟩ := weak done
    have ok : l.pc.Ok := by
      rw [idle]
      trivial
    refine (core.sends ?_ (Local.shares_addWeak _ a) ok (pcs_update core.pcs ok other)).mono more
    simp [before, Local.shares_of_idle idle]

section
variable (core : Core maxRefcount s)
include core

lemma Core.downgrades {cur : Nat} (before : s.Has t .strong a l.handles)
    (done : advance cloneValue s t l spurious (.downgrade a cur) = some s') :
    Core (maxRefcount + 1) s' := by
  obtain ⟨p, inner, h⟩ := core.holds before
  rw [advance, access_live h.heap] at done
  cases done
  split
  · exact h.keeps rfl trivial
  next unlocked =>
    split
    next seen =>
      rcases of_strong h.some with ⟨k, m, rfl⟩ | ⟨k, rfl⟩
      · refine h.puts (.downgrade k m) ?_ trivial ⟨rfl, h.strong, ?_, h.alive⟩ rfl rfl
        · simp [Pc.shares]
        · rw [← seen.2, h.weak]
          rfl
      · exact absurd (seen.2.symm.trans h.weak) unlocked
    · exact h.keeps rfl trivial

/-- `is_unique`, with the lock -/
lemma Core.uniqueLoads (before : s.Has t .lock a l.handles)
    (done : advance cloneValue s t l spurious (.uniqueLoad a) = some s') :
    Core (maxRefcount + 1) s' := by
  obtain ⟨p, inner, h⟩ := core.holds before
  rw [advance, access_live h.heap] at done
  cases done
  obtain ⟨k, rfl⟩ := of_lock h.some
  rw [h.strong]
  cases k with
  | zero =>
    exact h.goes .see (by simp [Pc.shares, Phase.strong]) trivial
      ⟨rfl, h.strong, h.weak, h.alive⟩ rfl rfl
  | succ k =>
    refine h.keeps ?_ trivial
    simp [Pc.shares, Phase.strong]

lemma Core.uniqueStores {unique : Bool}
    (before : (s.threads t).shares = (Pc.uniqueStore a unique).shares + l.handles)
    (done : advance cloneValue s t l spurious (.uniqueStore a unique) = some s') :
    Core (maxRefcount + 1) s' := by
  cases unique with
  | false =>
    obtain ⟨p, inner, h⟩ := core.holds before
    rw [advance, access_live h.heap] at done
    cases done
    obtain ⟨k, rfl⟩ := of_lock h.some
    exact h.puts (.unlock k) (by simp [Pc.shares]) trivial ⟨rfl, h.strong, rfl, h.alive⟩ rfl rfl
  | true =>
    obtain ⟨p, inner, h⟩ := core.holds before
    rw [advance, access_live h.heap] at done
    cases done
    obtain rfl := Phase.of_seen h.some
    exact h.puts .unlockSeen (by simp [Pc.shares]) trivial ⟨rfl, h.strong, rfl, h.alive⟩ rfl rfl

/-- `make_mut` clones the value. -/
lemma Core.copies (at_pc : (s.threads t).pc = .copy a)
    (done : advance cloneValue s t (s.threads t) spurious (.copy a) = some s') :
    Core (maxRefcount + 1) s' := by
  have before : s.Has t .strong a (s.threads t).handles := by
    simp [State.Has, Local.shares, at_pc, Pc.shares]
  obtain ⟨p, inner, h⟩ := core.holds before
  obtain ⟨v, data⟩ := isSome_iff_exists.mp (h.alive.trans (Phase.alive_of_strong h.some))
  rw [advance, access_live h.heap, data] at done
  cases done
  refine (core.allocates .newUnique ?_ ?_).mono (Nat.le_succ _)
  · rw [before]
    simp [Pc.shares, made]
  · trivial

/-- `make_mut` looks for weak handles. -/
lemma Core.mutLoads (before : s.Has t .final a l.handles)
    (done : advance cloneValue s t l spurious (.mutLoad a) = some s') :
    Core (maxRefcount + 1) s' := by
  obtain ⟨p, inner, h⟩ := core.holds before
  rw [advance, access_live h.heap] at done
  cases done
  split
  · exact h.keeps rfl trivial
  next alone =>
    have alone := not_not.mp alone
    obtain ⟨m, rfl⟩ := of_final h.some
    obtain rfl : m = 0 := Nat.succ.inj (h.weak.symm.trans alone)
    exact h.goes .only (by simp [Pc.shares]) trivial ⟨rfl, h.strong, h.weak, h.alive⟩ rfl rfl

omit core [Fintype Thread] in
lemma goes_allocate (l : Local) {l' : Local} {v : T} :
    ((s.goes t l).allocate v).goes t l' = (s.allocate v).goes t l' := by
  simp [State.goes, State.allocate, State.put]

/-- `make_mut` moves the value to a new allocation. -/
lemma Core.mutReads (before : s.Has t .final a l.handles)
    (done : advance cloneValue s t l spurious (.mutRead a) = some s') :
    Core (maxRefcount + 1) s' := by
  have husk : (l.at_ (.dropWeak a none)).shares = parts [.husk] a + l.handles := by
    simp [Pc.shares, made]
  obtain ⟨v, taken, same, core'⟩ := core.takes (fun v s =>
    (s.allocate v).goes t (l.at_ (.dropWeak a (.some s.next)))) before husk trivial (.inr rfl)
  rw [advance, same] at done
  cases done
  rw [← goes_allocate (l.at_ (.dropWeak a none))]
  refine (core'.allocates .newUnique ?_ ?_).mono (Nat.le_succ _)
  · simp [State.goes, Pc.shares, made]
  · trivial

/-- `make_mut` restores the strong count. -/
lemma Core.mutStores (before : s.Has t .only a l.handles)
    (done : advance cloneValue s t l spurious (.mutStore a) = some s') :
    Core (maxRefcount + 1) s' := by
  obtain ⟨p, inner, h⟩ := core.holds before
  rw [advance, access_live h.heap] at done
  cases done
  obtain rfl := Phase.of_only h.some
  exact h.puts .restore (by simp [Pc.shares]) trivial ⟨rfl, rfl, h.weak, h.alive⟩ rfl rfl

lemma Core.frees {next : Option Nat} (before : s.Has t .free a (made next + l.handles))
    (done : advance cloneValue s t l spurious (.dealloc a next) = some s') :
    Core (maxRefcount + 1) s' := by
  obtain ⟨p, inner, h⟩ := core.holds before
  rw [advance, access_live h.heap] at done
  cases done
  obtain rfl := Phase.of_free h.some
  have after : (l.at_ (resume next)).shares = parts [] a + (made next + l.handles) := by
    simp
  refine core.exchange rfl rfl (fun b other => ?_) core.sound core.running
    (core.fresh_update h.lt nofun) before after (ok_resume next) h.described ?_ .free
    (Nat.le_succ _) (Nat.le_succ _) ?_ ?_ ?_
  · exact update_of_ne other _ _
  · change Phase.freed.Is (update s.heap a .freed a)
    rw [update_self]
    rfl
  · rfl
  · simp [Phase.released]
  · intro b other
    simp [other]

lemma Core.upgrades (below : s.below) {n : Nat} (before : s.Has t .weak a l.handles)
    (small : n < maxRefcount) (done : advance cloneValue s t l spurious (.upgrade a n) = some s') :
    Core (maxRefcount + 1) s' := by
  obtain ⟨p, inner, h⟩ := core.holds before
  rw [advance, if_neg (Nat.lt_asymm small)] at done
  split at done
  · cases done
    exact h.stays (by simp [Pc.shares]) trivial
  next nonzero =>
    rw [access_live h.heap] at done
    cases done
    split
    next seen =>
      have positive : p.strong ≠ 0 := by
        rw [← h.strong, seen.2]
        exact nonzero
      rcases of_weak h.some with ⟨k, m, rfl⟩ | ⟨m, rfl⟩ | ⟨m, rfl⟩ | ⟨m, rfl⟩
      · refine h.puts (.upgrade k (m + 1)) (by simp [Pc.shares]) trivial
          ⟨rfl, ?_, h.weak, h.alive⟩ rfl rfl
        rw [← seen.2, h.strong]
        rfl
      · exact absurd rfl positive
      · exact absurd rfl positive
      · exact absurd rfl positive
    · exact h.keeps rfl (below_inner below h.heap h.lt).1

lemma Core.weakCounts {count : Nat} (before : s.Has t .weak a l.handles) (some : count ≠ 0)
    (done : advance cloneValue s t l spurious (.weakCount a count) = .some s') :
    Core (maxRefcount + 1) s' := by
  obtain ⟨p, inner, h⟩ := core.holds before
  have idle := h.stays (by simp [Pc.shares] : ((l.addWeak a).at_ .idle).shares = _) trivial
  rw [advance, access_live h.heap] at done
  cases done
  split
  · exact idle.record 0
  · dsimp only
    rw [check_of some]
    exact idle.record _

lemma Core.advance (below : s.below) {spurious : Bool}
    (done : advance cloneValue s t (s.threads t) spurious (s.threads t).pc = some s') :
    Core (maxRefcount + 1) s' := by
  have ok := core.pcs t
  have before : (s.threads t).shares = (s.threads t).pc.shares + (s.threads t).handles := rfl
  generalize at_pc : (s.threads t).pc = pc at done before ok
  cases pc with
  | idle | borrowed =>
    cases done
  | downgrade =>
    exact core.downgrades before done
  | unwrap a =>
    obtain ⟨v, taken, same, core'⟩ := core.takes _ before
      (by simp [Pc.shares, made] : ((s.threads t).at_ (.dropWeak a none)).shares = _) trivial
      (.inr rfl)
    rw [ArcCounting.advance, same] at done
    cases done
    exact core'.mono (Nat.le_succ _)
  | uniqueLoad =>
    exact core.uniqueLoads before done
  | uniqueStore =>
    exact core.uniqueStores before done
  | copy =>
    exact core.copies at_pc done
  | mutLoad =>
    exact core.mutLoads before done
  | mutRead =>
    exact core.mutReads before done
  | mutStore =>
    exact core.mutStores before done
  | dropArc a next =>
    cases done
    exact core.dropArc below (before.trans (add_assoc ..))
  | dropValue a next =>
    obtain ⟨v, taken, same, core'⟩ := core.takes _ (before.trans (add_assoc ..))
      (by simp [Pc.shares, made] : ((s.threads t).at_ (.dropWeak a next)).shares = _) trivial
      (.inl rfl)
    rw [ArcCounting.advance, same] at done
    cases done
    exact core'.mono (Nat.le_succ _)
  | dropWeak a next =>
    cases done
    exact core.dropWeak (.inr rfl) (before.trans (add_assoc ..))
  | dealloc a next =>
    exact core.frees (before.trans (add_assoc ..)) done
  | upgrade =>
    exact core.upgrades below before ok done
  | weakCount =>
    exact core.weakCounts before ok done

end

lemma Core.writes (core : Core bound s) (before : s.Has t .unique a (s.threads t).handles)
    (v : T) :
    Core (bound + 1) (s.access a fun inner =>
      (s.put a { inner with data := some v }).check inner.data.isSome) := by
  obtain ⟨p, inner, h⟩ := core.holds before
  obtain rfl := of_unique h.some
  have there : inner.data.isSome := h.alive
  rw [access_live h.heap, check_of there]
  have same (s : State Thread T) : s.goes t (s.threads t) = s := by
    simp [State.goes]
  rw [← same (s.put a _)]
  exact h.puts (.stays _ .unique) before (core.pcs t) ⟨rfl, h.strong, h.weak, rfl⟩ rfl rfl

lemma Core.releases (core : Core bound s) (before : s.Has t .unique a l.handles) :
    Core (bound + 1) (s.goes t ((l.addArc a).at_ .idle)) := by
  obtain ⟨p, inner, h⟩ := core.holds before
  obtain rfl := of_unique h.some
  exact h.goes .release (by simp [Pc.shares]) trivial ⟨rfl, h.strong, h.weak, h.alive⟩ rfl rfl

end

lemma Core.step (core : Core maxRefcount s) (below : s.below) {cloneValue : T → T}
    {label : Thread × Action Thread T} (done : step cloneValue s label = some s') :
    Core (maxRefcount + 1) s' := by
  obtain ⟨t, action⟩ := label
  have before : (s.threads t).shares = (s.threads t).pc.shares + (s.threads t).handles := rfl
  rw [ArcCounting.step, core.running] at done
  rw [if_neg nofun] at done
  split at done
  next at_pc =>
    exact core.call below at_pc done
  · exact core.advance below done
  next at_pc =>
    rw [at_pc] at before
    cases done
    exact core.writes before _
  next at_pc =>
    rw [at_pc] at before
    cases done
    exact core.releases before
  · cases done

lemma Core.counted (core : Core maxRefcount s) (below : s.below) {cloneValue : T → T}
    {label : Thread × Action Thread T} (done : counted cloneValue s label = some s') :
    Core maxRefcount s' ∧ s'.below := by
  rw [ArcCounting.counted, filter_eq_some_iff] at done
  exact ⟨(core.step below done.1).bounded done.2, done.2⟩

end ArcCounting
