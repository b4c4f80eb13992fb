import BpfSysroot.Alternation
import BpfSysroot.BTreeMap

/-!
# B-trees as values

The tree that the nodes in a heap stand for, with the address of each node. `cells` gives the nodes
of a tree as they must be in the heap, with the links to the parents. `walk` lists what an iterator
passes by: the edges of the leaves, and the pairs between any two of them. A `Ctx` is a tree with a
hole, which is how a node is seen by loops that go up.
-/

namespace BTree

open CellHeap Alternation List

/-- Trees with `n` levels of nodes. There is nothing below the edges of a leaf. -/
def Tree (E : Type) : Nat → Type
  | 0 => Unit
  | n + 1 => Nat × Alternation (Tree E n) E

variable {E : Type} {n h H : Nat}

instance : Subsingleton (Tree E 0) := inferInstanceAs (Subsingleton Unit)

namespace Tree

def node (addr : Nat) (body : Alternation (Tree E n) E) : Tree E (n + 1) := (addr, body)

def addr (t : Tree E (n + 1)) : Nat := Prod.fst (show Nat × Alternation (Tree E n) E from t)

def body (t : Tree E (n + 1)) : Alternation (Tree E n) E :=
  Prod.snd (show Nat × Alternation (Tree E n) E from t)

section
variable (a : Nat) (body : Alternation (Tree E n) E)

@[simp]
lemma addr_node : (node a body).addr = a := rfl

@[simp]
lemma body_node : (node a body).body = body := rfl

lemma exists_node (t : Tree E (n + 1)) : ∃ a body, t = node a body := ⟨t.addr, t.body, rfl⟩

def leaf (addr : Nat) (kvs : List E) : Tree E 1 := node addr ⟨(), kvs.map (·, ())⟩

@[simp]
lemma seps_leaf (a : Nat) (kvs : List E) : (leaf a kvs).body.seps = kvs := by
  simp [leaf, seps, Function.comp_def]

@[simp]
lemma len_leaf (a : Nat) (kvs : List E) : (leaf a kvs).body.len = kvs.length := by
  rw [← length_seps, seps_leaf]

lemma node_eq_leaf (a : Nat) (body : Alternation (Tree E 0) E) :
    node a body = leaf a body.seps := by
  apply congrArg (node a)
  apply ext_seps
  exact (seps_leaf a body.seps).symm

lemma exists_leaf (t : Tree E 1) : ∃ a kvs, t = leaf a kvs :=
  ⟨t.addr, t.body.seps, node_eq_leaf t.addr t.body⟩

def entries : {n : Nat} → Tree E n → List E
  | 0, _ => []
  | _ + 1, t => t.body.weave entries

@[simp]
lemma entries_node : entries (node a body) = body.weave entries := rfl

end

@[simp]
lemma entries_leaf (a : Nat) (kvs : List E) : entries (leaf a kvs) = kvs := by
  simp [leaf, entries, weave, flatMap_map]

/-- The edges of the leaves, with the pairs between them. -/
def walk : {h : Nat} → Tree E (h + 1) → Alternation Handle E
  | 0, t => t.body.enumerate (fun i => ⟨⟨0, t.addr⟩, i⟩) 0
  | _ + 1, t => t.body.bind walk

@[simp]
lemma walk_node (a : Nat) (body : Alternation (Tree E (h + 1)) E) :
    walk (node a body) = body.bind walk := rfl

@[simp]
lemma seps_walk (t : Tree E (h + 1)) : t.walk.seps = t.entries := by
  induction h with
  | zero =>
    obtain ⟨a, kvs, rfl⟩ := t.exists_leaf
    simp [walk]
  | succ h ih =>
    obtain ⟨a, body, rfl⟩ := t.exists_node
    rw [walk_node, seps_bind]
    exact congrArg (body.weave ·) (funext ih)

/-- An edge of a leaf has the pairs with smaller indices to its left. -/
lemma walk_leaf_eq {a : Nat} {kvs : List E} {left : List (Handle × E)} {edge : Handle}
    {right : List (E × Handle)} (same : (leaf a kvs).walk = lead left ⟨edge, right⟩) :
    edge = ⟨⟨0, a⟩, left.length⟩ ∧ kvs = left.map Prod.snd ++ right.map Prod.fst := by
  constructor
  · have := enumerate_eq_lead _ _ _ same
    rwa [zero_add] at this
  · have := congrArg seps same
    rwa [seps_walk, entries_leaf, seps_lead] at this

lemma exists_walk_leaf (a : Nat) (before behind : List E) :
    ∃ left right, (leaf a (before ++ behind)).walk = lead left ⟨⟨⟨0, a⟩, before.length⟩, right⟩ ∧
      left.map Prod.snd = before ∧ right.map Prod.fst = behind := by
  have length : (leaf a (before ++ behind)).walk.len = before.length + behind.length := by
    rw [← length_seps, seps_walk, entries_leaf, length_append]
  obtain ⟨left, edge, right, same, count⟩ :=
    (leaf a (before ++ behind)).walk.exists_lead before.length (by omega)
  obtain ⟨rfl, pairs⟩ := walk_leaf_eq same
  obtain ⟨rfl, rfl⟩ := append_inj pairs (by simp [count])
  exact ⟨left, right, by simp [same], rfl, rfl⟩

/-- The numbers of pairs in the nodes: at least `least` in the root. -/
def Sized : {n : Nat} → (least : Nat) → Tree E n → Prop
  | 0, _, _ => True
  | _ + 1, least, t =>
    least ≤ t.body.len ∧ t.body.len ≤ capacity ∧ ∀ c ∈ t.body.items, Sized minLen c

lemma sized_leaf {least a : Nat} {kvs : List E} :
    Sized least (leaf a kvs) ↔ least ≤ kvs.length ∧ kvs.length ≤ capacity := by
  simp [Sized]

end Tree

open BTree.Tree

section
variable {K V : Type}

def edges : {n : Nat} → List (Tree E n) → List Nat
  | 0, _ => []
  | _ + 1, ts => ts.map addr

@[simp]
lemma edges_zero (ts : List (Tree E 0)) : edges ts = [] := rfl

@[simp]
lemma edges_nil : edges ([] : List (Tree E n)) = [] := by
  cases n <;> rfl

@[simp]
lemma edges_cons (t : Tree E (n + 1)) (ts : List (Tree E (n + 1))) :
    edges (t :: ts) = t.addr :: edges ts := rfl

@[simp]
lemma edges_append (ts us : List (Tree E n)) : edges (ts ++ us) = edges ts ++ edges us := by
  cases n with
  | zero => rfl
  | succ n => exact map_append

@[simp]
lemma length_edges_succ (ts : List (Tree E (n + 1))) : (edges ts).length = ts.length :=
  length_map _

/-- The cells of consecutive children of a node. -/
def kidsOf {C N : Type} (cells : Option (Nat × Nat) → C → Cells N) (parent : Nat) :
    Nat → List C → Cells N
  | _, [] => 0
  | start, t :: ts => cells (some (parent, start)) t + kidsOf cells parent (start + 1) ts

/-- The nodes of a tree whose root has the given link to its parent. -/
def cells : {n : Nat} → Option (Nat × Nat) → Tree (K × V) n → Cells (Node K V)
  | 0, _, _ => 0
  | _ + 1, link, t =>
    {(t.addr, ⟨link, t.body.seps, edges t.body.items⟩)} + kidsOf cells t.addr 0 t.body.items

def kids (parent start : Nat) (ts : List (Tree (K × V) n)) : Cells (Node K V) :=
  kidsOf cells parent start ts

variable {link : Option (Nat × Nat)} {a start : Nat}

lemma cells_node (body : Alternation (Tree (K × V) n) (K × V)) :
    cells link (node a body) =
      {(a, ⟨link, body.seps, edges body.items⟩)} + kids a 0 body.items := rfl

@[simp]
lemma kids_cons (t : Tree (K × V) n) (ts : List (Tree (K × V) n)) :
    kids a start (t :: ts) = cells (some (a, start)) t + kids a (start + 1) ts := rfl

end

/-- A tree of height `H` with a hole for one of height `h`. -/
inductive Ctx (E : Type) : Nat → Nat → Type
  | top {H : Nat} : Ctx E H H
  | step {h H : Nat} (addr : Nat) (left : List (Tree E (h + 1) × E))
      (right : List (E × Tree E (h + 1))) (up : Ctx E (h + 1) H) : Ctx E h H

/-- The fewest pairs that the root of a map may have. -/
def rootLeast (height : Nat) : Nat := if height = 0 then 0 else 1

namespace Ctx

def plug : {h : Nat} → Ctx E h H → Tree E (h + 1) → Tree E (H + 1)
  | _, top, t => t
  | _, step addr left right up, t => up.plug (node addr (lead left ⟨t, right⟩))

/-- What a walk passes before the hole. -/
def lefts : {h : Nat} → Ctx E h H → List (Handle × E)
  | _, top => []
  | _, step _ left _ up => up.lefts ++ leads walk left

/-- What a walk passes behind the hole. -/
def rights : {h : Nat} → Ctx E h H → List (E × Handle)
  | _, top => []
  | _, step _ _ right up => afters walk right ++ up.rights

section
variable (ctx : Ctx E h H) (t : Tree E (h + 1))

lemma walk_plug : (ctx.plug t).walk = lead ctx.lefts (t.walk.extend ctx.rights) := by
  induction ctx with
  | top => simp [plug, lefts, rights]
  | step addr left right up ih =>
    rw [plug, ih, walk_node, bind_focus, extend_lead, lead_lead, extend_extend, lefts, rights]

lemma entries_plug :
    (ctx.plug t).entries = ctx.lefts.map Prod.snd ++ (t.entries ++ ctx.rights.map Prod.fst) := by
  rw [← seps_walk, walk_plug, seps_lead, seps_extend, seps_walk]

lemma exists_leaf {left : List (Handle × E)}
    {edge : Handle} {right : List (E × Handle)} (same : t.walk = lead left ⟨edge, right⟩) :
    ∃ (ctx' : Ctx E 0 H) (a : Nat) (kvs : List E) (left' : List (Handle × E))
      (right' : List (E × Handle)), ctx.plug t = ctx'.plug (leaf a kvs) ∧
      (leaf a kvs).walk = lead left' ⟨edge, right'⟩ ∧
      ctx.lefts ++ left = ctx'.lefts ++ left' ∧ right ++ ctx.rights = right' ++ ctx'.rights := by
  induction h generalizing left right with
  | zero =>
    obtain ⟨a, kvs, rfl⟩ := t.exists_leaf
    exact ⟨ctx, a, kvs, left, right, rfl, same, rfl, rfl⟩
  | succ h ih =>
    obtain ⟨a, body, rfl⟩ := t.exists_node
    obtain ⟨left₀, c, right₀, left₁, right₁, rfl, inner, rfl, rfl⟩ := bind_eq_lead walk body same
    obtain ⟨ctx', a', kvs, left', right', plugged, there, atLeft, atRight⟩ :=
      ih (ctx.step a left₀ right₀) c inner
    refine ⟨ctx', a', kvs, left', right', plugged, there, ?_, ?_⟩
    · rw [← atLeft, lefts, append_assoc]
    · rw [← atRight, rights, append_assoc]

end

variable {K V : Type}

/-- The link of the node in the hole. -/
def link : {h : Nat} → Ctx E h H → Option (Nat × Nat)
  | _, top => none
  | _, step addr left _ _ => some (addr, left.length)

end Ctx
end BTree
