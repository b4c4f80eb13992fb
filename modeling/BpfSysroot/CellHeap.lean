import Mathlib

/-!
# Programs over a heap of cells

A heap maps addresses to cells. Programs read, write, allocate and free cells;
they end with a value, with a panic that the program's text provides for, or
with a violation: a dangling address or a condition that must always hold.
`Ends x m Q` says that on a heap that contains the cells `m` and possibly
others, `x` returns, leaves the others alone, and turns `m` into cells that
satisfy `Q`. Nothing is lost either: the heap afterwards consists of those cells
and the others.
-/

namespace CellHeap

structure Heap (N : Type) where
  cell : Nat → Option N
  next : Nat

inductive Failure (P : Type)
  | violation
  | panic (reason : P)
  deriving DecidableEq

/-- Programs that may panic for a reason in `P`. -/
abbrev Prog (P N A : Type) := StateT (Heap N) (Except (Failure P)) A

variable {P N A B : Type}

def Heap.empty : Heap N := ⟨fun _ => none, 0⟩

def Heap.update (h : Heap N) (a : Nat) (n : Option N) : Heap N :=
  { h with cell := fun b => if b = a then n else h.cell b }

def violation : Prog P N A := fun _ => .error .violation

def check (p : Prop) [Decidable p] : Prog P N Unit := if p then pure () else violation

/-- A value that must be there. -/
def need (o : Option A) : Prog P N A :=
  match o with
  | some a => pure a
  | none => violation

def read (a : Nat) : Prog P N N := fun h =>
  match h.cell a with
  | some n => .ok (n, h)
  | none => .error .violation

def write (a : Nat) (n : N) : Prog P N Unit := fun h =>
  match h.cell a with
  | some _ => .ok ((), h.update a (some n))
  | none => .error .violation

def alloc (n : N) : Prog P N Nat := fun h =>
  .ok (h.next, { h.update h.next (some n) with next := h.next + 1 })

def free (a : Nat) : Prog P N Unit := fun h =>
  match h.cell a with
  | some _ => .ok ((), h.update a none)
  | none => .error .violation

/-- A bound on the number of cells, for loops that visit each cell at most once. -/
def cellBound : Prog P N Nat := fun h => .ok (h.next, h)

/-- Cells with their addresses. -/
abbrev Cells (N : Type) := Multiset (Nat × N)

/-- The heap consists of exactly these cells. -/
structure Exactly (h : Heap N) (m : Cells N) : Prop where
  nodup : (m.map Prod.fst).Nodup
  mem_iff : ∀ a n, (a, n) ∈ m ↔ h.cell a = some n
  bound : ∀ a n, (a, n) ∈ m → a < h.next

def Ends (x : Prog P N A) (m : Cells N) (Q : A → Cells N → Prop) : Prop :=
  ∀ h rest, Exactly h (m + rest) → ∃ a h' m', x h = .ok (a, h') ∧ Exactly h' (m' + rest) ∧ Q a m'

namespace Exactly
variable {h : Heap N} {m rest : Cells N} {a : Nat} {n n' : N}

lemma cell_eq (e : Exactly h m) (hm : (a, n) ∈ m) : h.cell a = some n := (e.mem_iff a n).mp hm

lemma card_le (e : Exactly h m) : m.card ≤ h.next := by
  have below : m.map Prod.fst ≤ Multiset.range h.next := by
    rw [Multiset.le_iff_subset e.nodup]
    intro b hb
    obtain ⟨c, hc, rfl⟩ := Multiset.mem_map.mp hb
    exact Multiset.mem_range.mpr (e.bound c.1 c.2 hc)
  have := Multiset.card_le_card below
  rwa [Multiset.card_map, Multiset.card_range] at this

lemma store {next : Nat} (nodup : (rest.map Prod.fst).Nodup) (fresh : ∀ k, (a, k) ∉ rest)
    (stay : ∀ b ≠ a, ∀ k, (b, k) ∈ rest ↔ h.cell b = some k)
    (bound : ∀ b k, (b, k) ∈ (a, n) ::ₘ rest → b < next) :
    Exactly { h.update a (some n) with next := next } ((a, n) ::ₘ rest) := by
  refine ⟨?_, fun b k => ?_, bound⟩
  · rw [Multiset.map_cons, Multiset.nodup_cons]
    refine ⟨fun there => ?_, nodup⟩
    obtain ⟨c, hc, rfl⟩ := Multiset.mem_map.mp there
    exact fresh c.2 hc
  · rw [Multiset.mem_cons, Prod.mk.injEq, Heap.update]
    dsimp only
    by_cases same : b = a
    · subst same
      simp [fresh, eq_comm]
    · simp [same, stay b same k]

lemma alloc (e : Exactly h m) (n : N) :
    Exactly { h.update h.next (some n) with next := h.next + 1 } ((h.next, n) ::ₘ m) := by
  refine store e.nodup (fun k hk => (e.bound _ k hk).ne rfl) (fun b _ k => e.mem_iff b k) ?_
  intro b k hk
  rcases Multiset.mem_cons.mp hk with same | other
  · rw [(Prod.mk.inj same).1]
    exact Nat.lt_succ_self _
  · exact (e.bound b k other).trans (Nat.lt_succ_self _)

variable (e : Exactly h ((a, n) ::ₘ rest))
include e

lemma notMem_rest : a ∉ rest.map Prod.fst := by
  have := e.nodup
  rw [Multiset.map_cons, Multiset.nodup_cons] at this
  exact this.1

lemma ne_of_mem {b : Nat} {k : N} (hb : (b, k) ∈ rest) : b ≠ a := by
  rintro rfl
  exact e.notMem_rest (Multiset.mem_map_of_mem Prod.fst hb)

lemma write (n' : N) : Exactly (h.update a (some n')) ((a, n') ::ₘ rest) := by
  have nodup := e.nodup
  rw [Multiset.map_cons, Multiset.nodup_cons] at nodup
  refine store nodup.2 (fun k hk => e.ne_of_mem hk rfl) (fun b ne k => ?_) (fun b k hk => ?_)
  · rw [← e.mem_iff b k]
    simp [ne]
  · rcases Multiset.mem_cons.mp hk with same | other
    · rw [(Prod.mk.inj same).1]
      exact e.bound a n (Multiset.mem_cons_self _ _)
    · exact e.bound b k (Multiset.mem_cons_of_mem other)

lemma free : Exactly (h.update a none) rest := by
  refine ⟨?_, ?_, ?_⟩
  · have := e.nodup
    rw [Multiset.map_cons, Multiset.nodup_cons] at this
    exact this.2
  · intro b k
    rw [Heap.update]
    dsimp only
    by_cases same : b = a
    · subst same
      have absent : (b, k) ∉ rest := fun hk => e.ne_of_mem hk rfl
      simp [absent]
    · rw [if_neg same, ← e.mem_iff b k]
      simp [same]
  · intro b k hk
    exact e.bound b k (Multiset.mem_cons_of_mem hk)

end Exactly

variable {m r : Cells N} {Q : A → Cells N → Prop} {R : B → Cells N → Prop}

lemma ends_pure {a : A} (h : Q a m) : Ends (pure a : Prog P N A) m Q :=
  fun heap _ e => ⟨a, heap, m, rfl, e, h⟩

lemma Ends.mono {x : Prog P N A} {Q' : A → Cells N → Prop} (h : Ends x m Q)
    (hq : ∀ a m', Q a m' → Q' a m') : Ends x m Q' := by
  intro heap rest e
  obtain ⟨a, heap', m', hx, e', q⟩ := h heap rest e
  exact ⟨a, heap', m', hx, e', hq a m' q⟩

lemma Ends.bind {x : Prog P N A} {k : A → Prog P N B} (h : Ends x m Q)
    (hk : ∀ a m', Q a m' → Ends (k a) m' R) : Ends (x >>= k) m R := by
  intro heap rest e
  obtain ⟨a, heap', m', hx, e', q⟩ := h heap rest e
  obtain ⟨b, heap'', m'', hy, e'', q'⟩ := hk a m' q heap' rest e'
  refine ⟨b, heap'', m'', ?_, e'', q'⟩
  change (x heap >>= fun p => k p.1 p.2) = _
  rw [hx]
  exact hy

/-- Other cells stay as they are. -/
lemma Ends.frame {x : Prog P N A} (h : Ends x m Q) (r : Cells N) :
    Ends x (m + r) (fun a m' => ∃ m₀, m' = m₀ + r ∧ Q a m₀) := by
  intro heap rest e
  rw [add_assoc] at e
  obtain ⟨a, heap', m', hx, e', q⟩ := h heap (r + rest) e
  exact ⟨a, heap', m' + r, hx, by rwa [add_assoc], m', rfl, q⟩

/-- On the cells `m`, the program returns `a` and turns them into `m'`. -/
abbrev Gives (x : Prog P N A) (m : Cells N) (a : A) (m' : Cells N) : Prop :=
  Ends x m (fun b m'' => b = a ∧ m'' = m')

section
variable {x : Prog P N A} {k : A → Prog P N B} {a : A} {m' : Cells N}

lemma Gives.bind (h : Gives x m a m') (hk : Ends (k a) m' R) : Ends (x >>= k) m R := by
  apply Ends.bind h
  rintro _ _ ⟨rfl, rfl⟩
  exact hk

lemma Gives.frame (h : Gives x m a m') (r : Cells N) : Gives x (m + r) a (m' + r) := by
  apply (Ends.frame h r).mono
  rintro _ _ ⟨_, rfl, rfl, rfl⟩
  exact ⟨rfl, rfl⟩

/-- The program works on some of the cells. -/
lemma Gives.framed {m₀ m₁ : Cells N} (h : Gives x m₀ a m₁) (r : Cells N) (split : m = m₀ + r)
    (join : m' = m₁ + r) : Gives x m a m' := by
  rw [split, join]
  exact h.frame r

lemma gives_pure (a : A) : Gives (pure a : Prog P N A) m a m := ends_pure ⟨rfl, rfl⟩

lemma gives_check {p : Prop} [Decidable p] (h : p) : Gives (check p : Prog P N Unit) m () m := by
  rw [check, if_pos h]
  exact gives_pure ()

lemma gives_need (a : A) : Gives (need (some a) : Prog P N A) m a m := gives_pure a

end

variable {a : Nat} {n : N}

lemma mem_here {c : Nat × N} : c ∈ {c} + m :=
  Multiset.mem_add.mpr (.inl (Multiset.mem_singleton_self c))

lemma mem_behind {c : Nat × N} (there : c ∈ m) (r : Cells N) : c ∈ r + m :=
  Multiset.mem_add.mpr (.inr there)

lemma gives_read (hm : (a, n) ∈ m) : Gives (read a : Prog P N N) m n m := by
  intro heap rest e
  have cell := e.cell_eq (Multiset.mem_add.mpr (.inl hm))
  exact ⟨n, heap, m, by rw [read, cell], e, rfl, rfl⟩

lemma gives_write (n' : N) :
    Gives (write a n' : Prog P N Unit) ({(a, n)} + r) () ({(a, n')} + r) := by
  intro heap rest e
  rw [Multiset.singleton_add, Multiset.cons_add] at e
  have cell := e.cell_eq (Multiset.mem_cons_self _ _)
  refine ⟨(), heap.update a (some n'), {(a, n')} + r, by rw [write, cell], ?_, rfl, rfl⟩
  rw [Multiset.singleton_add, Multiset.cons_add]
  exact e.write n'

lemma ends_alloc {k : Nat → Prog P N B} (hk : ∀ a, Ends (k a) ({(a, n)} + m) R) :
    Ends (alloc n >>= k) m R := by
  have here : Ends (alloc n : Prog P N Nat) m (fun a m' => m' = {(a, n)} + m) := by
    intro heap rest e
    refine ⟨heap.next, _, {(heap.next, n)} + m, rfl, ?_, rfl⟩
    rw [Multiset.singleton_add, Multiset.cons_add]
    exact e.alloc n
  apply here.bind
  rintro a _ rfl
  exact hk a

lemma gives_free : Gives (free a : Prog P N Unit) ({(a, n)} + r) () r := by
  intro heap rest e
  rw [Multiset.singleton_add, Multiset.cons_add] at e
  have cell := e.cell_eq (Multiset.mem_cons_self _ _)
  exact ⟨(), heap.update a none, r, by rw [free, cell], e.free, rfl, rfl⟩

lemma ends_cellBound {k : Nat → Prog P N B} (hk : ∀ n, m.card ≤ n → Ends (k n) m R) :
    Ends (cellBound >>= k) m R := by
  have here : Ends (cellBound : Prog P N Nat) m (fun n m' => m.card ≤ n ∧ m' = m) := by
    intro heap rest e
    have bound := e.card_le
    rw [Multiset.card_add] at bound
    exact ⟨heap.next, heap, m, rfl, e, by omega, rfl⟩
  apply here.bind
  rintro n _ ⟨bound, rfl⟩
  exact hk n bound

end CellHeap
