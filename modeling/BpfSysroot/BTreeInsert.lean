import BpfSysroot.BTreeNodeEdits
import BpfSysroot.BTreeSearch

/-!
# Inserting a pair

A pair goes into the leaf where its key belongs. A node that is full is cut in two halves that are
both large enough, and the pair between them goes up with the right half, at last into a new root.
-/

namespace BTree

open CellHeap Alternation BTree.Tree List

variable {K V E : Type} {h H a : Nat} {link : Option (Nat × Nat)} {m : Cells (Node K V)}
  {kv : K × V}

section
variable {C : Type} (A B : Alternation C E) (e : E)

@[simp]
lemma length_after : (A.after e).length = A.len + 1 := rfl

@[simp]
lemma length_before : (A.before e).length = A.len + 1 := by
  rw [← length_map Prod.snd, map_snd_before, length_append, length_seps]
  rfl

lemma lead_append_after (left : List (C × E)) (c : C) (right : List (E × C)) :
    lead left ⟨c, right ++ B.after e⟩ = (lead left ⟨c, right⟩).join e B := by
  rw [lead_join]
  rfl

lemma lead_before_append (left : List (C × E)) :
    lead (A.before e ++ left) B = A.join e (lead left B) := by
  rw [← lead_lead, lead_before]

lemma exists_join {i : Nat} (bound : i < A.len) :
    ∃ (L R : Alternation C E) (e : E), A = L.join e R ∧ L.len = i := by
  obtain ⟨left, c, _ | ⟨x, right⟩, rfl, rfl⟩ := A.exists_lead i bound.le
  · exact absurd bound (by simp)
  · exact ⟨lead left ⟨c, []⟩, ⟨x.2, right⟩, x.1, by rw [lead_join]; rfl, len_lead ..⟩

end

/-- A full node is cut behind the place of the new pair, or before it. -/
lemma splitpoint_spec : ∀ i ≤ capacity, (splitpoint i).1 < capacity ∧
    (i ≤ (splitpoint i).1 ∧ (splitpoint i).2 = .left i ∧
        minLen ≤ (splitpoint i).1 + 1 ∧ (splitpoint i).1 + minLen < capacity ∨
      (splitpoint i).1 < i ∧ (splitpoint i).2 = .right (i - ((splitpoint i).1 + 1)) ∧
        minLen ≤ (splitpoint i).1 ∧ (splitpoint i).1 + minLen ≤ capacity) := by
  decide

namespace Ctx

/-- The pairs of the tree, for those of the tree in the hole. -/
def fill (ctx : Ctx E h H) (kvs : List E) : List E :=
  ctx.lefts.map Prod.snd ++ (kvs ++ ctx.rights.map Prod.fst)

/-- The address of the root, for that of the node in the hole. -/
def root : {h : Nat} → Ctx E h H → Nat → Nat
  | _, top, a => a
  | _, step addr _ _ up, _ => up.root addr

@[simp]
lemma fill_top (kvs : List E) : (top : Ctx E H H).fill kvs = kvs := by simp [fill, lefts, rights]

lemma fill_step (addr : Nat) (left : List (Tree E (h + 1) × E)) (l r : Tree E (h + 1)) (e : E)
    (right : List (E × Tree E (h + 1))) (up : Ctx E (h + 1) H) :
    (step addr left right up).fill (l.entries ++ e :: r.entries) =
      up.fill (node addr (lead left ⟨l, (e, r) :: right⟩)).entries := by
  rw [fill, fill, ← seps_walk (node _ _), walk_node, bind_focus, seps_lead, seps_extend, seps_walk,
    lefts, rights, ← seps_walk r]
  simp [afters, seps, Alternation.after]

lemma addr_plug (ctx : Ctx E h H) (t : Tree E (h + 1)) : (ctx.plug t).addr = ctx.root t.addr := by
  induction ctx with
  | top => rfl
  | step addr left right up ih => exact ih _

lemma depth_le_card (ctx : Ctx (K × V) h H) (a : Nat) : ctx.depth ≤ (ctx.cells a).card := by
  induction ctx generalizing a with
  | top => exact Nat.zero_le _
  | step addr left right up ih =>
    have := ih addr
    rw [depth, cells, Multiset.card_add, Multiset.card_add, Multiset.card_singleton]
    omega

end Ctx

/-- What an insertion leaves, up to the node in the hole: a whole tree, or two halves of it. -/
def Inserted (ctx : Ctx (K × V) h H) (a : Nat) (kvs : List (K × V)) :
    InsertResult K V → Cells (Node K V) → Prop
  | .fit _, c => ∃ T : Tree (K × V) (H + 1), T.addr = ctx.root a ∧ c = cells none T ∧
      Sized (rootLeast H) T ∧ T.entries = ctx.fill kvs
  | .split s, c => ∃ l r : Tree (K × V) (h + 1), l.addr = a ∧ s = ⟨⟨h, a⟩, s.kv, ⟨h, r.addr⟩⟩ ∧
      c = cells ctx.link l + (cells none r + ctx.cells a) ∧ Sized minLen l ∧ Sized minLen r ∧
      l.entries ++ s.kv :: r.entries = kvs

lemma root_mem (t : Tree (K × V) (h + 1)) :
    (t.addr, ⟨link, t.body.seps, edges t.body.items⟩) ∈ cells link t + m :=
  Multiset.mem_add.mpr (.inl (head_mem_cells t))

section
variable {body A C : Alternation (Tree (K × V) h) (K × V)} {ctx : Ctx (K × V) h H}

lemma head_mem (body : Alternation (Tree (K × V) h) (K × V)) :
    (a, ⟨link, body.seps, edges body.items⟩) ∈ cells link (node a body) + m :=
  root_mem (node a body)

lemma inserted_fit {handle : Handle} (around : ctx.Sized) (sized : Sized ctx.least (node a body)) :
    Inserted ctx a (node a body).entries (.fit handle)
      (cells ctx.link (node a body) + ctx.cells a) :=
  ⟨ctx.plug (node a body), ctx.addr_plug _, by rw [ctx.cells_plug, add_comm]; rfl,
    Ctx.sized_plug.mpr ⟨around, sized⟩, ctx.entries_plug _⟩

lemma inserted_split {e : K × V} {b : Nat} (same : body = A.join e C)
    (total : A.len + C.len = capacity) (enoughA : minLen ≤ A.len) (enoughC : minLen ≤ C.len)
    (children : ∀ t ∈ body.items, Sized minLen t) :
    Inserted ctx a (node a body).entries (.split ⟨⟨h, a⟩, e, ⟨h, b⟩⟩)
      (cells ctx.link (node a A) + (cells none (node b C) + ctx.cells a)) := by
  subst same
  rw [items_join] at children
  refine ⟨node a A, node b C, rfl, rfl, rfl, ⟨enoughA, ?_, ?_⟩, ⟨enoughC, ?_, ?_⟩, ?_⟩
  · exact (Nat.le_add_right _ _).trans total.le
  · exact fun t ht => children t (mem_append_left _ ht)
  · exact (Nat.le_add_left _ _).trans total.le
  · exact fun t ht => children t (mem_append_right _ ht)
  · rw [entries_node, entries_node, entries_node, weave_join]

variable {left : List (Tree (K × V) h × (K × V))} {c : Tree (K × V) h}
  {right : List ((K × V) × Tree (K × V) h)}

/-- `insert` of a leaf and of an internal node: `child` is the tree that goes with the pair, and
`result` says what became of the node. -/
lemma ends_insert {X B : Type} {splitNode : Handle → Code K V (SplitResult K V)}
    {fit : Handle → Code K V X} {whole : Handle → X → B} {halves : SplitResult K V → X → B}
    (result : B → InsertResult K V) (hwhole : ∀ kv x, result (whole kv x) = .fit kv)
    (hhalves : ∀ s x, result (halves s x) = .split s) (child : Tree (K × V) h)
    (splits : ∀ {A C : Alternation (Tree (K × V) h) (K × V)} {e : K × V}
      {k : SplitResult K V → Code K V B} {m : Cells (Node K V)} {R : B → Cells (Node K V) → Prop},
      (∀ b, Ends (k ⟨⟨h, a⟩, e, ⟨h, b⟩⟩)
        (cells ctx.link (node a A) + cells none (node b C) + m) R) →
      Ends (splitNode ⟨⟨h, a⟩, A.len⟩ >>= k) (cells ctx.link (node a (A.join e C)) + m) R)
    (fits : ∀ {a : Nat} {link : Option (Nat × Nat)} {left : List (Tree (K × V) h × (K × V))}
      {c : Tree (K × V) h} {right : List ((K × V) × Tree (K × V) h)},
      left.length + right.length < capacity → Ends (fit ⟨⟨h, a⟩, left.length⟩)
        (cells link (node a (lead left ⟨c, right⟩)) + cells none child)
        (fun _ m => m = cells link (node a (lead left ⟨c, (kv, child) :: right⟩))))
    (around : ctx.Sized) (least : ctx.least ≤ left.length + right.length)
    (bound : left.length + right.length ≤ capacity)
    (children : ∀ t ∈ items (lead left ⟨c, (kv, child) :: right⟩), Sized minLen t) :
    Ends (do
        if (← len ⟨h, a⟩) < capacity then
          let x ← fit ⟨⟨h, a⟩, left.length⟩
          return whole (← newKv ⟨h, a⟩ left.length) x
        else
          check (left.length ≤ capacity)
          let (middleKvIdx, insertion) := splitpoint left.length
          let result ← splitNode (← newKv ⟨h, a⟩ middleKvIdx)
          let insertionEdge ← match insertion with
            | .left insertIdx => newEdge result.left insertIdx
            | .right insertIdx => newEdge result.right insertIdx
          let x ← fit insertionEdge
          return halves result x)
      (cells ctx.link (node a (lead left ⟨c, right⟩)) + (cells none child + ctx.cells a))
      (fun b => Inserted ctx a (node a (lead left ⟨c, (kv, child) :: right⟩)).entries
        (result b)) := by
  apply (gives_len (n := ⟨h, a⟩) (head_mem _)).bind
  simp only [seps_lead, seps_mk, length_append, length_map]
  split
  next room =>
    rw [← add_assoc]
    apply ((fits room).frame _).bind
    rintro x _ ⟨_, rfl, rfl⟩
    apply (gives_newKv (n := ⟨h, a⟩) (head_mem _) (by simp)).bind
    apply ends_pure
    rw [hwhole]
    exact inserted_fit around ⟨by simp; omega, by simp; omega, children⟩
  next crowded =>
    have full : left.length + right.length = capacity := by omega
    apply (gives_check (by omega)).bind
    have cut := splitpoint_spec left.length (by omega)
    generalize splitpoint left.length = point at cut ⊢
    obtain ⟨mid, insertion⟩ := point
    obtain ⟨inside, sides⟩ := cut
    have inside : mid < (lead left ⟨c, right⟩).len := by simpa [full] using inside
    apply (gives_newKv (n := ⟨h, a⟩) (head_mem _) (by rwa [length_seps])).bind
    obtain ⟨A, C, e, same, rfl⟩ := exists_join _ inside
    rw [same]
    apply splits
    intro b
    dsimp only at sides
    obtain ⟨right', rfl, rfl⟩ | ⟨left', rfl, rfl⟩ := join_eq_lead same.symm
    · simp only [length_append, length_after, len_lead, len_mk] at full sides
      obtain ⟨-, rfl, enough, enough'⟩ | ⟨late, -⟩ := sides
      · rw [add_assoc]
        apply (gives_newEdge (n := ⟨h, a⟩) (head_mem _) (by simp)).bind
        rw [← add_assoc, add_add_add_comm]
        apply ((fits (by omega)).frame _).bind
        rintro x _ ⟨_, rfl, rfl⟩
        apply ends_pure
        rw [hhalves]
        apply inserted_split (lead_append_after C e left c (_ :: right')) _ _ (by omega) children
        all_goals
          simp
          omega
      · omega
    · simp only [length_append, length_before] at full sides
      obtain ⟨early, -⟩ | ⟨-, rfl, enough, enough'⟩ := sides
      · omega
      · rw [Nat.add_sub_cancel_left, add_assoc (cells _ _), add_left_comm]
        apply (gives_newEdge (n := ⟨h, b⟩) (head_mem _) (by simp)).bind
        rw [← add_assoc, add_add_add_comm]
        apply ((fits (by omega)).frame _).bind
        rintro x _ ⟨_, rfl, rfl⟩
        apply ends_pure
        rw [hhalves, add_left_comm]
        apply inserted_split (lead_before_append A _ e left') _ enough _ children
        all_goals
          simp
          omega

end

lemma insertInternal_spec {ctx : Ctx (K × V) (h + 1) H}
    {left : List (Tree (K × V) (h + 1) × (K × V))} {t : Tree (K × V) (h + 1)}
    {right : List ((K × V) × Tree (K × V) (h + 1))} {child : Tree (K × V) (h + 1)}
    (around : (ctx.step a left right).Sized) (sized : Sized minLen t)
    (sized' : Sized minLen child) :
    Ends (insertInternal ⟨⟨h + 1, a⟩, left.length⟩ kv ⟨h, child.addr⟩)
      (cells ctx.link (node a (lead left ⟨t, right⟩)) + (cells none child + ctx.cells a))
      (Inserted ctx a (node a (lead left ⟨t, (kv, child) :: right⟩)).entries) := by
  obtain ⟨⟨least, bound, onLeft, onRight⟩, above⟩ := around
  have children : ∀ c ∈ items (lead left ⟨t, (kv, child) :: right⟩), Sized minLen c := by
    simp only [items_lead, items_mk, map_cons, mem_append, mem_cons, mem_map]
    rintro c (⟨x, hx, rfl⟩ | rfl | rfl | ⟨x, hx, rfl⟩)
    exacts [onLeft x hx, sized, sized', onRight x hx]
  apply (gives_check rfl).bind
  apply ends_insert id (fun _ _ => rfl) (fun _ _ => rfl) child ends_splitInternal _ above least
    bound
    children
  intro a link left c right room
  exact (gives_insertFit child room).mono fun _ _ => And.right

lemma insertUpwards_spec (ctx : Ctx (K × V) h H) (l r : Tree (K × V) (h + 1)) (e : K × V)
    {fuel : Nat} (enough : ctx.depth < fuel) (around : ctx.Sized) (sizedL : Sized minLen l)
    (sizedR : Sized minLen r) :
    Ends (insertUpwards fuel ⟨⟨h, l.addr⟩, e, ⟨h, r.addr⟩⟩)
      (cells ctx.link l + (cells none r + ctx.cells l.addr))
      (Inserted (h := H) Ctx.top (ctx.root l.addr) (ctx.fill (l.entries ++ e :: r.entries))) := by
  obtain _ | fuel := fuel
  · exact absurd enough (Nat.not_lt_zero _)
  apply (gives_ascend (n := ⟨_, l.addr⟩) (root_mem l)).bind
  induction ctx generalizing fuel e with
  | top => exact ends_pure ⟨l, r, rfl, rfl, rfl, sizedL, sizedR, (Ctx.fill_top _).symm⟩
  | step addr left right up ih =>
    have whole : cells (Ctx.step addr left right up).link l +
        (cells none r + (Ctx.step addr left right up).cells l.addr) =
        cells up.link (node addr (lead left ⟨l, right⟩)) + (cells none r + up.cells addr) := by
      rw [cells_focus, Ctx.cells, Ctx.link]
      abel
    rw [whole, Ctx.fill_step]
    apply (insertInternal_spec around sizedL sizedR).bind
    rintro (_ | s) c
    · rintro ⟨T, addr, cells, sized, entries⟩
      exact ends_pure ⟨T, addr, cells, sized, entries.trans (Ctx.fill_top _).symm⟩
    · rintro ⟨l, r, rfl, same, rfl, sizedL, sizedR, entries⟩
      obtain _ | fuel := fuel
      · exact absurd enough (by simp [Ctx.depth])
      rw [same, ← entries]
      apply (gives_ascend (n := ⟨_, l.addr⟩) (root_mem l)).bind
      exact ih l r s.kv around.2 sizedL sizedR fuel (Nat.lt_of_succ_lt_succ enough)

lemma entries_zero (a : Nat) (body : Alternation (Tree E 0) E) :
    (node a body).entries = body.seps := by
  rw [node_eq_leaf, entries_leaf]

section
variable {ctx : Ctx (K × V) 0 H} {left : List (Tree (K × V) 0 × (K × V))} {c : Tree (K × V) 0}
  {right : List ((K × V) × Tree (K × V) 0)}

lemma insertLeaf_spec (around : ctx.Sized) (least : ctx.least ≤ left.length + right.length)
    (bound : left.length + right.length ≤ capacity) :
    Ends (insertLeaf ⟨⟨0, a⟩, left.length⟩ kv)
      (cells ctx.link (node a (lead left ⟨c, right⟩)) + ctx.cells a)
      (fun r => Inserted ctx a (node a (lead left ⟨c, (kv, c) :: right⟩)).entries r.1) := by
  rw [← zero_add (ctx.cells a)]
  apply ends_insert Prod.fst (fun _ _ => rfl) (fun _ _ => rfl) c ends_splitLeaf _ around least bound
    fun _ _ => trivial
  intro a link left c' right room
  have empty : cells none c = (0 : Cells (Node K V)) := rfl
  rw [empty, add_zero]
  exact (gives_insertFitLeaf room).mono fun _ _ => And.right

lemma insertRecursing_spec
    (sized : Sized (rootLeast H) (ctx.plug (node a (lead left ⟨c, right⟩)))) :
    Ends (insertRecursing ⟨⟨0, a⟩, left.length⟩ kv)
      (cells none (ctx.plug (node a (lead left ⟨c, right⟩))))
      (fun r => Inserted (h := H) Ctx.top (ctx.root a)
        (ctx.fill (left.map Prod.snd ++ kv :: right.map Prod.fst)) r.1) := by
  obtain ⟨around, least, bound, -⟩ := Ctx.sized_plug.mp sized
  rw [body_node, len_lead] at bound least
  rw [ctx.cells_plug, add_comm]
  apply (insertLeaf_spec around least bound).bind
  rw [entries_zero, seps_lead, seps_mk, map_cons]
  rintro ⟨_ | s, ptr⟩ c'
  · rintro ⟨T, addr, cells, sized, entries⟩
    exact ends_pure ⟨T, addr, cells, sized, entries.trans (Ctx.fill_top _).symm⟩
  · rintro ⟨l, r, rfl, same, rfl, sizedL, sizedR, entries⟩
    apply ends_cellBound
    intro n enough
    have fuel : ctx.depth < n := by
      have := ctx.depth_le_card l.addr
      obtain ⟨a, body, rfl⟩ := l.exists_node
      rw [Multiset.card_add, Multiset.card_add, cells_leaf, Multiset.card_singleton] at enough
      omega
    rw [same, ← entries]
    exact (insertUpwards_spec ctx l r s.kv fuel around sizedL sizedR).bind
      fun r m grown => ends_pure grown

/-- The pairs of a tree, from a place in a leaf. -/
lemma entries_focus : (ctx.plug (node a (lead left ⟨c, right⟩))).entries =
    ctx.lefts.map Prod.snd ++ left.map Prod.snd ++
      (right.map Prod.fst ++ ctx.rights.map Prod.fst) := by
  rw [ctx.entries_plug, entries_zero]
  simp

end

lemma KvAt.gives_replaceKv {T : Tree (K × V) (H + 1)} {handle : Handle} {i : Nat} {e : K × V}
    (at_ : KvAt T handle i e) (sized : Sized (rootLeast H) T) (e' : K × V) :
    ∃ T' : Tree (K × V) (H + 1), T'.addr = T.addr ∧ Sized (rootLeast H) T' ∧
      (∃ front back, T.entries = front ++ e :: back ∧ T'.entries = front ++ e' :: back) ∧
      Gives (replaceKv handle e') (cells none T) e (cells none T') := by
  obtain ⟨ctx, a, A, e, C⟩ := at_
  obtain ⟨around, least, bound, children⟩ := Ctx.sized_plug.mp sized
  refine ⟨ctx.plug (node a (A.join e' C)), ?_, ?_, ?_, ?_⟩
  · rw [ctx.addr_plug, ctx.addr_plug]
    rfl
  · refine Ctx.sized_plug.mpr ⟨around, ?_, ?_, ?_⟩
    all_goals simp_all [← length_seps]
  · exact ⟨ctx.lefts.map Prod.snd ++ A.weave Tree.entries,
      C.weave Tree.entries ++ ctx.rights.map Prod.fst, by simp [ctx.entries_plug],
      by simp [ctx.entries_plug]⟩
  · rw [ctx.cells_plug, ctx.cells_plug, cells_join, cells_join, addr_node, addr_node,
      add_comm (ctx.cells a), add_comm (ctx.cells a)]
    exact Gives.frame (BTree.gives_replaceKv (r := ⟨_, a⟩)
      (N := ⟨ctx.link, A.seps ++ e :: C.seps, edges A.items ++ edges C.items⟩) rfl
      (length_seps A).symm) _

end BTree
