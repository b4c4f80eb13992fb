import BpfSysroot.BTreeNodeSpecs

/-!
# What the edits of nodes do

The nodes of a tree seen from one of its places, and one rule for each operation of `BTreeNode`
that an insertion consists of: on which nodes it runs, what it returns and what the nodes are then.
-/

namespace BTree

open CellHeap Alternation BTree.Tree List

variable {K V E B : Type} {n h H a start : Nat} {link link' : Option (Nat × Nat)}

section

@[simp]
lemma kids_zero (ts : List (Tree (K × V) 0)) : kids a start ts = 0 := by
  induction ts generalizing start with
  | nil => rfl
  | cons t ts ih => rw [kids_cons, ih, cells, add_zero]

lemma kids_append (ts us : List (Tree (K × V) n)) :
    kids a start (ts ++ us) = kids a start ts + kids a (start + ts.length) us := by
  induction ts generalizing start with
  | nil => exact (zero_add _).symm
  | cons t ts ih =>
    rw [cons_append, kids_cons, kids_cons, ih, ← add_assoc, length_cons,
      add_right_comm start, add_assoc start]

variable (A C : Alternation (Tree (K × V) n) (K × V)) (t : Tree (K × V) (n + 1))

lemma cells_join (e : K × V) :
    cells link (node a (A.join e C)) =
      {(a, ⟨link, A.seps ++ e :: C.seps, edges A.items ++ edges C.items⟩)} +
      (kids a 0 A.items + kids a (A.len + 1) C.items) := by
  rw [cells_node, seps_join, items_join, edges_append, kids_append, zero_add, length_items]

lemma cells_leaf (A : Alternation (Tree (K × V) 0) (K × V)) :
    cells link (node a A) = {(a, ⟨link, A.seps, []⟩)} := by
  rw [cells_node, kids_zero, add_zero, edges_zero]

lemma kids_single (t : Tree (K × V) n) :
    kids a start (items ⟨t, ([] : List ((K × V) × _))⟩) = cells (some (a, start)) t := add_zero _

lemma cells_focus (left : List (Tree (K × V) (n + 1) × (K × V)))
    (right : List ((K × V) × Tree (K × V) (n + 1))) :
    cells link (node a (lead left ⟨t, right⟩)) =
      {(a, ⟨link, left.map Prod.snd ++ right.map Prod.fst,
        edges (left.map Prod.fst) ++ t.addr :: edges (right.map Prod.snd)⟩)} +
      (kids a 0 (left.map Prod.fst) + cells (some (a, left.length)) t +
        kids a (left.length + 1) (right.map Prod.snd)) := by
  rw [cells_node, items_lead, seps_lead, items_mk, seps_mk, edges_append, edges_cons, kids_append,
    kids_cons, length_map, zero_add, add_assoc (kids _ _ _)]

lemma head_mem_cells : (t.addr, ⟨link, t.body.seps, edges t.body.items⟩) ∈ cells link t := mem_here

end

/-- The cells of trees, whatever the links of their roots. -/
inductive Loose : List (Tree (K × V) n) → Cells (Node K V) → Prop
  | nil : Loose [] 0
  | cons {t : Tree (K × V) n} {ts : List (Tree (K × V) n)} {m : Cells (Node K V)}
      (link : Option (Nat × Nat)) (rest : Loose ts m) : Loose (t :: ts) (cells link t + m)

lemma loose_kids (ts : List (Tree (K × V) n)) : Loose ts (kids a start ts) := by
  induction ts generalizing start with
  | nil => exact .nil
  | cons t ts ih => exact .cons _ ih

namespace Ctx

def least : {h : Nat} → Ctx E h H → Nat
  | h, top => rootLeast h
  | _, step .. => minLen

/-- The numbers of pairs in the nodes around the hole, if a node of the right size is in it. -/
def Sized : {h : Nat} → Ctx E h H → Prop
  | _, top => True
  | _, step _ left right up =>
    (up.least ≤ left.length + right.length ∧ left.length + right.length ≤ capacity ∧
      (∀ x ∈ left, Tree.Sized minLen x.1) ∧ ∀ x ∈ right, Tree.Sized minLen x.2) ∧ up.Sized

lemma sized_plug {ctx : Ctx E h H} {t : Tree E (h + 1)} :
    Tree.Sized (rootLeast H) (ctx.plug t) ↔ ctx.Sized ∧ Tree.Sized ctx.least t := by
  induction ctx with
  | top => simp [plug, Sized, least]
  | step addr left right up ih =>
    rw [plug, ih, Tree.Sized]
    simp only [body_node, len_lead, len_mk, items_lead, items_mk, mem_append, mem_cons, mem_map]
    constructor
    · rintro ⟨outer, low, high, all⟩
      exact ⟨⟨⟨low, high, fun x hx => all _ (.inl ⟨x, hx, rfl⟩),
        fun x hx => all _ (.inr (.inr ⟨x, hx, rfl⟩))⟩, outer⟩, all _ (.inr (.inl rfl))⟩
    · rintro ⟨⟨⟨low, high, onLeft, onRight⟩, outer⟩, here⟩
      refine ⟨outer, low, high, ?_⟩
      rintro c (⟨x, hx, rfl⟩ | rfl | ⟨x, hx, rfl⟩)
      exacts [onLeft x hx, here, onRight x hx]

/-- The nodes around the hole, for a node at a given address in it. -/
def cells : {h : Nat} → Ctx (K × V) h H → Nat → Cells (Node K V)
  | _, top, _ => 0
  | _, step addr left right up, a =>
    {(addr, ⟨up.link, left.map Prod.snd ++ right.map Prod.fst,
      edges (left.map Prod.fst) ++ a :: edges (right.map Prod.snd)⟩)} +
    (kids addr 0 (left.map Prod.fst) + kids addr (left.length + 1) (right.map Prod.snd)) +
    up.cells addr

lemma cells_plug (ctx : Ctx (K × V) h H) (t : Tree (K × V) (h + 1)) :
    BTree.cells none (ctx.plug t) = ctx.cells t.addr + BTree.cells ctx.link t := by
  induction ctx with
  | top => simp [plug, cells, link]
  | step addr left right up ih =>
    rw [plug, ih, cells_focus, addr_node, cells, link]
    abel

end Ctx

variable {m : Cells (Node K V)} {idx : Nat}

lemma gives_sliceInsert {xs front back : List E} {x : E} (split : xs = front ++ back)
    (here : idx = front.length) : Gives (sliceInsert xs idx x) m (front ++ x :: back) m := by
  subst split here
  apply (gives_check (by rw [length_append]; omega)).bind
  have inserted : (front ++ back).insertIdx front.length x = front ++ x :: back := by
    induction front with
    | nil => rfl
    | cons y front ih => exact congrArg (y :: ·) ih
  rw [inserted]
  exact gives_pure _

variable {front back : List (K × V)}

lemma gives_replaceKv {r : NodeRef} {N : Node K V} {old new : K × V}
    (split : N.kvs = front ++ old :: back) (here : idx = front.length) :
    Gives (replaceKv ⟨r, idx⟩ new) ({(r.node, N)} + m) old
      ({(r.node, { N with kvs := front ++ new :: back })} + m) := by
  apply (gives_read (n := N) mem_here).bind
  rw [split, here, getElem?_append_right le_rfl]
  apply (gives_need old).bind
  rw [set_append_right _ _ le_rfl, Nat.sub_self]
  exact (gives_write _).bind (gives_pure _)

section
variable {height : Nat} (N : Node K V)

lemma gives_correctParentLink {t : Tree (K × V) (h + 1)} (child : N.edges[start]? = some t.addr) :
    Gives (correctParentLink ⟨⟨height, a⟩, start⟩) ({(a, N)} + cells link t) ()
      ({(a, N)} + cells (some (a, start)) t) := by
  apply (gives_descend (n := ⟨height, a⟩) t.addr mem_here child).bind
  have set : Gives (setParentLink ⟨height - 1, t.addr⟩ (some (a, start))) (cells link t) ()
      (cells (some (a, start)) t) := (gives_read (head_mem_cells t)).bind (gives_write _)
  exact set.framed _ (add_comm _ _) (add_comm _ _)

/-- The links of some children are wrong before, and right afterwards. -/
lemma gives_correctChildrensParentLinks {ts : List (Tree (K × V) (h + 1))}
    (front back : List Nat) (loose : Loose ts m) (children : N.edges = front ++ (edges ts ++ back))
    (begins : front.length = start) (bound : start + ts.length ≤ N.kvs.length + 1) :
    Gives (correctChildrensParentLinks ⟨height, a⟩ start ts.length) ({(a, N)} + m) ()
      ({(a, N)} + kids a start ts) := by
  induction loose generalizing start front with
  | nil => exact gives_pure ()
  | @cons t ts m link loose ih =>
    rw [length_cons] at bound ⊢
    have child : N.edges[start]? = some t.addr := by
      rw [children, getElem?_append_right begins.le, begins, Nat.sub_self]
      rfl
    apply (gives_newEdge (n := ⟨height, a⟩) mem_here (by omega)).bind
    rw [← add_assoc]
    apply ((gives_correctParentLink N child).frame m).bind
    have rest := ih (front ++ [t.addr]) (by simp [children]) (by rw [length_append, begins])
      (by rw [length_singleton]; omega)
    exact rest.framed (cells (some (a, start)) t) (add_right_comm _ _ _) (by rw [kids_cons]; abel)

end

variable {R : B → Cells (Node K V) → Prop}

section
variable {k : NodeRef → Code K V B}

lemma ends_newLeaf (hk : ∀ a, Ends (k ⟨0, a⟩) (cells none (leaf a []) + m) R) :
    Ends (newLeaf >>= k) m R := by
  unfold newLeaf
  rw [bind_assoc]
  apply ends_alloc
  intro a
  exact hk a

lemma ends_pushInternalLevel {T : Tree (K × V) (H + 1)}
    (hk : ∀ p, Ends (k ⟨H + 1, p⟩) (cells none (node p ⟨T, []⟩) + m) R) :
    Ends (pushInternalLevel ⟨H, T.addr⟩ >>= k) (cells none T + m) R := by
  unfold pushInternalLevel
  rw [bind_assoc]
  apply ends_alloc
  intro p
  rw [bind_assoc]
  apply (gives_firstEdge (n := ⟨H + 1, p⟩) mem_here).bind
  rw [bind_assoc, ← add_assoc]
  apply ((gives_correctParentLink _ rfl).frame m).bind
  have := hk p
  rwa [cells_node, kids_single] at this

end

variable {kv e : K × V}

section
variable {A : Alternation (Tree (K × V) (h + 1)) (K × V)} (c : Tree (K × V) (h + 1))

lemma gives_push (room : A.len < capacity) :
    Gives (push ⟨h + 1, a⟩ kv ⟨h, c.addr⟩) (cells link (node a A) + cells link' c) ()
      (cells link (node a (A.join kv ⟨c, []⟩))) := by
  rw [cells_node, add_assoc]
  apply (gives_check rfl).bind
  apply (gives_read mem_here).bind
  apply (gives_check (by rwa [length_seps])).bind
  set N : Node K V := ⟨link, A.seps ++ [kv], edges A.items ++ [c.addr]⟩
  apply (gives_write N).bind
  apply (gives_newEdge (n := ⟨h + 1, a⟩) mem_here (by simp [N])).bind
  have child : N.edges[A.len + 1]? = some c.addr := by simp [N, length_items]
  rw [length_seps]
  apply (gives_correctParentLink N child).framed (kids a 0 A.items) (by abel)
  rw [cells_join, kids_single]
  change {(a, N)} + _ = _
  abel

lemma gives_insertFit {left : List (Tree (K × V) (h + 1) × (K × V))} {t : Tree (K × V) (h + 1)}
    {right : List ((K × V) × Tree (K × V) (h + 1))} (room : left.length + right.length < capacity) :
    Gives (insertFit ⟨⟨h + 1, a⟩, left.length⟩ kv ⟨h, c.addr⟩)
      (cells link (node a (lead left ⟨t, right⟩)) + cells link' c) ()
      (cells link (node a (lead left ⟨t, (kv, c) :: right⟩))) := by
  rw [cells_focus, add_assoc]
  apply (gives_read mem_here).bind
  apply (gives_check (by simpa using room)).bind
  apply (gives_check rfl).bind
  apply (gives_sliceInsert rfl (by simp)).bind
  have children (xs ys : List Nat) : xs ++ t.addr :: ys = (xs ++ [t.addr]) ++ ys := by simp
  apply (gives_sliceInsert (children _ _) (by simp)).bind
  set N : Node K V := ⟨link, left.map Prod.snd ++ kv :: right.map Prod.fst,
    edges (left.map Prod.fst) ++ [t.addr] ++ c.addr :: edges (right.map Prod.snd)⟩
  apply (gives_write N).bind
  have count : (left.map Prod.snd ++ right.map Prod.fst).length + 1 - left.length =
      (c :: right.map Prod.snd).length := by
    simp
    omega
  rw [count]
  have loose : Loose (c :: right.map Prod.snd)
      (cells link' c + kids a (left.length + 1) (right.map Prod.snd)) := .cons link' (loose_kids _)
  apply (gives_correctChildrensParentLinks N (edges (left.map Prod.fst) ++ [t.addr]) [] loose
    (by simp [N]) (by simp) (by simp [N]; omega)).framed
      (kids a 0 (left.map Prod.fst) + cells (some (a, left.length)) t) (by abel)
  rw [cells_focus, map_cons, map_cons, edges_cons]
  simp only [N, append_assoc, singleton_append]
  abel

end

lemma gives_insertFitLeaf {left : List (Tree (K × V) 0 × (K × V))} {c c' : Tree (K × V) 0}
    {right : List ((K × V) × Tree (K × V) 0)} (room : left.length + right.length < capacity) :
    Gives (insertFitLeaf ⟨⟨0, a⟩, left.length⟩ kv) (cells link (node a (lead left ⟨c, right⟩)))
      ⟨⟨0, a⟩, left.length⟩ (cells link (node a (lead left ⟨c, (kv, c') :: right⟩))) := by
  simp only [cells_leaf, seps_lead, seps_mk, map_cons]
  apply (gives_read (Multiset.mem_singleton_self _)).bind
  apply (gives_check (by simpa using room)).bind
  apply (gives_sliceInsert rfl (length_map _).symm).bind
  apply (gives_write (r := 0) _).bind
  exact gives_pure _

variable {k : SplitResult K V → Code K V B}

lemma gives_splitLeafData {es : List Nat} (here : idx = front.length) :
    Gives (splitLeafData ⟨⟨h, a⟩, idx⟩) ({(a, ⟨link, front ++ e :: back, es⟩)} + m)
      (e, back) ({(a, ⟨link, front, es⟩)} + m) := by
  subst here
  apply (gives_read mem_here).bind
  rw [getElem?_append_right le_rfl, Nat.sub_self, take_left, append_cons, drop_left' (by simp)]
  apply (gives_need e).bind
  apply (gives_write _).bind
  exact gives_pure _

lemma ends_splitLeaf {A C : Alternation (Tree (K × V) 0) (K × V)}
    (hk : ∀ b, Ends (k ⟨⟨0, a⟩, e, ⟨0, b⟩⟩) (cells link (node a A) + cells none (node b C) + m) R) :
    Ends (splitLeaf ⟨⟨0, a⟩, A.len⟩ >>= k) (cells link (node a (A.join e C)) + m) R := by
  unfold splitLeaf
  rw [bind_assoc, cells_join, add_assoc]
  apply (gives_splitLeafData (length_seps A).symm).bind
  rw [bind_assoc]
  apply ends_alloc
  intro b
  have := hk b
  rw [cells_leaf, cells_leaf, add_right_comm, add_comm] at this
  simpa using this

lemma ends_splitInternal {A C : Alternation (Tree (K × V) (h + 1)) (K × V)}
    (hk : ∀ b, Ends (k ⟨⟨h + 1, a⟩, e, ⟨h + 1, b⟩⟩)
      (cells link (node a A) + cells none (node b C) + m) R) :
    Ends (splitInternal ⟨⟨h + 1, a⟩, A.len⟩ >>= k) (cells link (node a (A.join e C)) + m) R := by
  have children : (edges A.items).length = A.len + 1 := by rw [length_edges_succ, length_items]
  unfold splitInternal
  rw [bind_assoc, cells_join, add_assoc]
  apply (gives_splitLeafData (length_seps A).symm).bind
  rw [bind_assoc]
  apply (gives_read mem_here).bind
  rw [bind_assoc]
  apply (gives_check (by simp [length_seps, length_items]; omega)).bind
  rw [bind_assoc, take_left' children, drop_left' children]
  apply (gives_write _).bind
  rw [bind_assoc]
  apply ends_alloc
  intro b
  rw [bind_assoc]
  set N : Node K V := ⟨none, C.seps, edges C.items⟩
  have regroup (x y z v w : Cells (Node K V)) : x + (y + (z + v + w)) = x + v + (y + z + w) := by
    abel
  rw [regroup, length_seps, ← length_items]
  apply ((gives_correctChildrensParentLinks N [] [] (loose_kids C.items) (by simp [N]) rfl
    (by simp [N, length_seps, length_items])).frame _).bind
  have split := hk b
  rw [add_assoc, add_left_comm] at split
  exact split

end BTree
