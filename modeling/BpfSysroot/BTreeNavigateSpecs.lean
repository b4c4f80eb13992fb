import BpfSysroot.BTreeSpans

/-!
# Walking from edge to edge

A leaf edge is given by its number, and a pair by the number of the leaf edge before it. Going
forward from the edge `i` leads to the pair `i` and to the edge `i + 1`, as long as the nodes above
these edges are in the heap; other nodes may have been freed.
-/

namespace BTree

open CellHeap Alternation BTree.Tree List

variable {K V E B : Type} {h H : Nat}

section

/-- The leaf edge with number `i`. -/
def EdgeAt (T : Tree E (H + 1)) (edge : Handle) (i : Nat) : Prop := T.walk.items[i]? = some edge

/-- The pair with number `i`. -/
inductive KvAt : Tree E (H + 1) → Handle → Nat → E → Prop
  | mk {h : Nat} (ctx : Ctx E h H) (a : Nat) (A : Alternation (Tree E h) E) (e : E)
      (B : Alternation (Tree E h) E) :
    KvAt (ctx.plug (node a (A.join e B))) ⟨⟨h, a⟩, A.len⟩ (ctx.off + (node a A).entries.length) e

lemma len_walk (t : Tree E (h + 1)) : t.walk.len = t.entries.length := by
  rw [← length_seps, seps_walk]

lemma edgeAt_head (T : Tree E (H + 1)) : EdgeAt T T.walk.head 0 := rfl

lemma edgeAt_last (T : Tree E (H + 1)) : EdgeAt T T.walk.last T.entries.length := by
  obtain ⟨left, same, length⟩ := T.walk.exists_last
  exact getElem?_items.mpr ⟨left, [], same, by rw [length, len_walk]⟩

variable {T : Tree E (H + 1)} {i : Nat} {edge : Handle}

lemma EdgeAt.le (at_ : EdgeAt T edge i) : i ≤ T.entries.length := by
  obtain ⟨bound, -⟩ := List.getElem?_eq_some_iff.mp at_
  rw [length_items, len_walk] at bound
  omega

lemma edgeAt_plug {t : Tree E (h + 1)} (ctx : Ctx E h H)
    (at_ : EdgeAt t edge i) : EdgeAt (ctx.plug t) edge (ctx.off + i) := by
  obtain ⟨left, right, same, rfl⟩ := getElem?_items.mp at_
  refine getElem?_items.mpr ⟨ctx.lefts ++ left, right ++ ctx.rights, ?_, length_append⟩
  rw [ctx.walk_plug, same, extend_lead, lead_lead]
  rfl

lemma edgeAt_leaf (a : Nat) (front back : List E) :
    EdgeAt (leaf a (front ++ back)) ⟨⟨0, a⟩, front.length⟩ front.length := by
  obtain ⟨left, right, same, rfl, -⟩ := exists_walk_leaf a front back
  exact getElem?_items.mpr ⟨left, right, same, (length_map _).symm⟩

/-- Every leaf edge is in a leaf, behind some of its pairs. -/
lemma EdgeAt.exists_leaf (at_ : EdgeAt T edge i) :
    ∃ (ctx : Ctx E 0 H) (a : Nat) (front back : List E), T = ctx.plug (leaf a (front ++ back)) ∧
      edge = ⟨⟨0, a⟩, front.length⟩ ∧ i = ctx.off + front.length := by
  obtain ⟨left, right, same, rfl⟩ := getElem?_items.mp at_
  obtain ⟨ctx, a, kvs, left', right', plugged, inLeaf, lefts, -⟩ := Ctx.top.exists_leaf T same
  obtain ⟨rfl, rfl⟩ := walk_leaf_eq inLeaf
  refine ⟨ctx, a, _, _, plugged, by rw [length_map], ?_⟩
  rw [length_map, Ctx.off, ← length_append, ← lefts]
  rfl

/-- The same, with the pairs of the leaf on both sides. -/
lemma EdgeAt.exists_focus (at_ : EdgeAt T edge i) :
    ∃ (ctx : Ctx E 0 H) (a : Nat) (left : List (Tree E 0 × E)) (c : Tree E 0)
      (right : List (E × Tree E 0)), T = ctx.plug (node a (lead left ⟨c, right⟩)) ∧
      edge = ⟨⟨0, a⟩, left.length⟩ ∧ i = ctx.off + left.length := by
  obtain ⟨ctx, a, front, back, rfl, rfl, rfl⟩ := at_.exists_leaf
  obtain ⟨left, c, right, same, length⟩ :=
    (leaf a (front ++ back)).body.exists_lead front.length (by simp)
  exact ⟨ctx, a, left, c, right, by rw [← same]; rfl, by rw [length], by rw [length]⟩

lemma KvAt.entries {kv : Handle} {e : E} (at_ : KvAt T kv i e) :
    ∃ front back, T.entries = front ++ e :: back ∧ front.length = i := by
  obtain ⟨ctx, a, A, e, B⟩ := at_
  refine ⟨ctx.lefts.map Prod.snd ++ A.weave Tree.entries,
    B.weave Tree.entries ++ ctx.rights.map Prod.fst, ?_, ?_⟩
  · rw [ctx.entries_plug]
    simp
  · rw [length_append, length_map]
    rfl

lemma KvAt.getElem? {kv : Handle} {e : E} (at_ : KvAt T kv i e) : T.entries[i]? = some e := by
  obtain ⟨front, back, entries, rfl⟩ := at_.entries
  simp [entries]

end

section
variable {M : Cells (Node K V)} {T : Tree (K × V) (H + 1)} {i off : Nat}
  {link : Option (Nat × Nat)}
variable {ctx : Ctx (K × V) h H} {t c : Tree (K × V) (h + 1)} {a : Nat}
  {right : List ((K × V) × Tree (K × V) (h + 1))} {left : List (Tree (K × V) (h + 1) × (K × V))}

/-- The nodes above the leaf edge `i` are in the heap. -/
def Above (M : Cells (Node K V)) (T : Tree (K × V) (H + 1)) (i : Nat) : Prop :=
  ∀ x ∈ spans 0 none T, x.2.1 ≤ i → i ≤ x.2.2 → x.1 ∈ M

lemma Above.plug (above : Above M (ctx.plug t) i) :
    ∀ x ∈ spans ctx.off ctx.link t, x.2.1 ≤ i → i ≤ x.2.2 → x.1 ∈ M := by
  intro x hx
  apply above
  rw [ctx.spans_plug]
  exact Multiset.mem_add.mpr (.inr hx)

lemma mem_spans_self (t : Tree (K × V) (h + 1)) :
    ((t.addr, ⟨link, t.body.seps, edges t.body.items⟩), (off, off + t.entries.length)) ∈
      spans off link t := by
  exact Multiset.mem_add.mpr (.inl (Multiset.mem_singleton_self _))

lemma Above.node (above : Above M (ctx.plug t) i) (low : ctx.off ≤ i)
    (high : i ≤ ctx.off + t.entries.length) :
    (t.addr, ⟨ctx.link, t.body.seps, edges t.body.items⟩) ∈ M :=
  above.plug _ (mem_spans_self t) low high

/-- The nodes below a node that start with the same leaf edge. -/
def Starts (M : Cells (Node K V)) (off : Nat) (link : Option (Nat × Nat))
    (t : Tree (K × V) (h + 1)) : Prop :=
  ∀ x ∈ spans off link t, x.2.1 ≤ off → off ≤ x.2.2 → x.1 ∈ M

/-- The nodes below a node that end with the same leaf edge. -/
def Stops (M : Cells (Node K V)) (off : Nat) (link : Option (Nat × Nat))
    (t : Tree (K × V) (h + 1)) : Prop :=
  ∀ x ∈ spans off link t, x.2.1 ≤ off + t.entries.length → off + t.entries.length ≤ x.2.2 → x.1 ∈ M

lemma Starts.self (there : Starts M off link t) :
    (t.addr, ⟨link, t.body.seps, edges t.body.items⟩) ∈ M :=
  there _ (mem_spans_self t) le_rfl (Nat.le_add_right _ _)

lemma Stops.self (there : Stops M off link t) :
    (t.addr, ⟨link, t.body.seps, edges t.body.items⟩) ∈ M :=
  there _ (mem_spans_self t) (Nat.le_add_right _ _) le_rfl

lemma Starts.child (there : Starts M off link (node a ⟨c, right⟩)) :
    Starts M off (some (a, 0)) c := by
  intro x hx
  apply there
  rw [spans_node, items_mk, spanKids_cons, Multiset.mem_add, Multiset.mem_add]
  exact .inr (.inl hx)

lemma Stops.child (there : Stops M off link (node a (lead left ⟨c, []⟩))) :
    Stops M (off + width (left.map Prod.fst)) (some (a, left.length)) c := by
  intro x hx
  rw [Stops, length_entries_focus, map_nil, width_nil, add_zero, ← add_assoc] at there
  apply there
  rw [spans_focus, Multiset.mem_add, Multiset.mem_add, Multiset.mem_add]
  exact .inr (.inl (.inr hx))

lemma gives_firstChild (there : Starts M off link (node a ⟨c, right⟩)) :
    Gives (descend ⟨⟨h + 1, a⟩, 0⟩) M ⟨h, c.addr⟩ M :=
  gives_descend c.addr there.self rfl

lemma gives_lastChild (there : Stops M off link (node a (lead left ⟨c, []⟩))) :
    Gives (descend ⟨⟨h + 1, a⟩, (lead left ⟨c, []⟩).seps.length⟩) M ⟨h, c.addr⟩ M := by
  have self := there.self
  exact gives_descend c.addr self (by simp)

lemma last_walk_leaf (a : Nat) (kvs : List E) :
    (leaf a kvs).walk.last = ⟨⟨0, a⟩, kvs.length⟩ := by
  have last := edgeAt_last (leaf a kvs)
  have same := edgeAt_leaf a kvs []
  rw [append_nil] at same
  rw [EdgeAt, entries_leaf, same] at last
  exact (Option.some.inj last).symm

section
variable (t : Tree (K × V) (h + 1))

lemma gives_firstLeafEdgeAt (there : Starts M off link t) :
    Gives (firstLeafEdgeAt h ⟨h, t.addr⟩) M t.walk.head M := by
  induction h generalizing off link with
  | zero => exact gives_firstEdge there.self
  | succ h ih =>
    obtain ⟨a, ⟨c, right⟩, rfl⟩ := t.exists_node
    apply (gives_firstEdge there.self).bind
    apply (gives_firstChild there).bind
    rw [walk_node, head_bind]
    exact ih c there.child

lemma gives_lastLeafEdgeAt (there : Stops M off link t) :
    Gives (lastLeafEdgeAt h ⟨h, t.addr⟩) M t.walk.last M := by
  induction h generalizing off link with
  | zero =>
    obtain ⟨a, kvs, rfl⟩ := t.exists_leaf
    have edge := gives_lastEdge (n := ⟨0, a⟩) there.self
    rwa [seps_leaf, ← last_walk_leaf a kvs] at edge
  | succ h ih =>
    obtain ⟨a, body, rfl⟩ := t.exists_node
    obtain ⟨left, c, rfl⟩ := body.exists_snoc
    apply (gives_lastEdge there.self).bind
    apply (gives_lastChild there).bind
    rw [walk_node, last_bind, last_lead]
    exact ih c there.child

lemma gives_fullRangeAt {off' : Nat} {link' : Option (Nat × Nat)} (s t : Tree (K × V) (h + 1))
    (first : Starts M off link s) (last : Stops M off' link' t) :
    Gives (fullRangeAt h ⟨h, s.addr⟩ ⟨h, t.addr⟩) M (s.walk.head, t.walk.last) M := by
  induction h generalizing off off' link link' with
  | zero =>
    obtain ⟨a, kvs, rfl⟩ := t.exists_leaf
    have edge := gives_lastEdge (n := ⟨0, a⟩) last.self
    rw [seps_leaf, ← last_walk_leaf a kvs] at edge
    exact (gives_firstEdge first.self).bind (edge.bind (gives_pure _))
  | succ h ih =>
    obtain ⟨a, ⟨c, right⟩, rfl⟩ := s.exists_node
    obtain ⟨a', body, rfl⟩ := t.exists_node
    obtain ⟨left, d, rfl⟩ := body.exists_snoc
    apply (gives_firstEdge first.self).bind
    apply (gives_lastEdge last.self).bind
    apply (gives_firstChild first).bind
    apply (gives_lastChild last).bind
    rw [walk_node, walk_node, head_bind, last_bind, last_lead]
    exact ih c d first.child last.child

lemma starts_cells : Starts (cells link t) 0 link t := by
  intro x hx _ _
  rw [← map_fst_spans 0]
  exact Multiset.mem_map_of_mem Prod.fst hx

lemma stops_cells : Stops (cells link t) 0 link t := by
  intro x hx _ _
  rw [← map_fst_spans 0]
  exact Multiset.mem_map_of_mem Prod.fst hx

end

lemma gives_fullRange (T : Tree (K × V) (H + 1)) :
    Gives (fullRange ⟨H, T.addr⟩) (cells none T) (T.walk.head, T.walk.last) (cells none T) :=
  gives_fullRangeAt T T (starts_cells T) (stops_cells T)

end

section
variable {M : Cells (Node K V)} {T : Tree (K × V) (H + 1)} {i : Nat}

def Ctx.depth : {h : Nat} → Ctx E h H → Nat
  | _, .top => 0
  | _, .step _ _ _ up => up.depth + 1

variable {edge : Handle} {k : Option Handle → Code K V B} {R : B → Cells (Node K V) → Prop}

end

variable {M : Cells (Node K V)} {T : Tree (K × V) (H + 1)} {kv : Handle} {i : Nat} {e : K × V}

lemma length_entries_join (a : Nat) (A B : Alternation (Tree E h) E) (e : E) :
    (node a (A.join e B)).entries.length =
      (node a A).entries.length + 1 + (node a B).entries.length := by
  rw [entries_node, weave_join, length_append, length_cons, entries_node, entries_node]
  omega

lemma edgeAt_node_zero (a : Nat) (A B : Alternation (Tree E 0) E) (e : E) :
    EdgeAt (node a (A.join e B)) ⟨⟨0, a⟩, A.len⟩ (node a A).entries.length ∧
      EdgeAt (node a (A.join e B)) ⟨⟨0, a⟩, A.len + 1⟩ ((node a A).entries.length + 1) := by
  rw [node_eq_leaf, node_eq_leaf a A, seps_join, entries_leaf, ← length_seps]
  refine ⟨edgeAt_leaf a A.seps (e :: B.seps), ?_⟩
  have behind := edgeAt_leaf a (A.seps ++ [e]) B.seps
  rwa [← append_cons, length_append] at behind

lemma gives_nextLeafEdge (at_ : KvAt T kv i e) (above : Above M T (i + 1)) :
    ∃ edge, EdgeAt T edge (i + 1) ∧ Gives (nextLeafEdge kv) M edge M := by
  obtain @⟨h, ctx, a, A, e, C⟩ := at_
  have size := length_entries_join a A C e
  have self := above.node (by omega) (by omega)
  have right : Gives (rightEdge ⟨⟨h, a⟩, A.len⟩) M ⟨⟨h, a⟩, A.len + 1⟩ M :=
    gives_newEdge self (by simp [length_seps])
  cases h with
  | zero => exact ⟨_, edgeAt_plug ctx (edgeAt_node_zero a A C e).2, right⟩
  | succ h =>
    -- the child behind the pair, in its own context
    obtain ⟨c, behind⟩ := C
    have inner : ctx.plug (node a (A.join e ⟨c, behind⟩)) =
        (ctx.step a (A.before e) behind).plug c := by
      rw [← lead_before]
      rfl
    have off : (ctx.step a (A.before e) behind).off = ctx.off + (node a A).entries.length + 1 := by
      rw [Ctx.off_step, map_fst_before, width_items]
      rfl
    refine ⟨c.walk.head, ?_, ?_⟩
    · rw [inner, ← off]
      exact edgeAt_plug _ (edgeAt_head c)
    · apply right.bind
      have child : (edges (A.join e ⟨c, behind⟩).items)[A.len + 1]? = some c.addr := by
        simp [length_items]
      apply (gives_descend c.addr self child).bind
      rw [inner, ← off] at above
      exact gives_firstLeafEdgeAt c above.plug

lemma gives_nextBackLeafEdge (at_ : KvAt T kv i e) (above : Above M T i) :
    ∃ edge, EdgeAt T edge i ∧ Gives (nextBackLeafEdge kv) M edge M := by
  obtain @⟨h, ctx, a, A, e, C⟩ := at_
  have size := length_entries_join a A C e
  have self := above.node (by omega) (by omega)
  have left : Gives (leftEdge ⟨⟨h, a⟩, A.len⟩) M ⟨⟨h, a⟩, A.len⟩ M :=
    gives_newEdge self (by simp [length_seps])
  cases h with
  | zero => exact ⟨_, edgeAt_plug ctx (edgeAt_node_zero a A C e).1, left⟩
  | succ h =>
    obtain ⟨before, c, rfl⟩ := A.exists_snoc
    have inner : ctx.plug (node a ((lead before ⟨c, []⟩).join e C)) =
        (ctx.step a before (C.after e)).plug c := by
      rw [lead_join]
      rfl
    have off : ctx.off + (node a (lead before ⟨c, []⟩)).entries.length =
        (ctx.step a before (C.after e)).off + c.entries.length := by
      rw [Ctx.off_step, length_entries_focus, map_nil, width_nil]
      omega
    refine ⟨c.walk.last, ?_, ?_⟩
    · rw [inner, off]
      exact edgeAt_plug _ (edgeAt_last c)
    · apply left.bind
      apply (gives_descend c.addr self (by simp)).bind
      rw [inner, off] at above
      exact gives_lastLeafEdgeAt c above.plug

/-- The node of a pair is above both edges beside the pair. -/
lemma KvAt.gives_intoKv {j : Nat} (at_ : KvAt T kv i e) (above : Above M T j) (low : i ≤ j)
    (high : j ≤ i + 1) : Gives (intoKv kv) M e M := by
  obtain @⟨h, ctx, a, A, e, C⟩ := at_
  have size := length_entries_join a A C e
  apply BTree.gives_intoKv (above.node (by omega) (by omega))
  simp [← length_seps]

end BTree
