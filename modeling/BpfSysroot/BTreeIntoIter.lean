import BpfSysroot.BTreeNavigateSpecs
import BpfSysroot.BTreeInvariant
import BpfSysroot.DoubleEnded

/-!
# Iterators that free the tree on the way

An owning iterator stands at two leaf edges. The nodes it still owns are those that span a leaf
edge between the two: a step forward frees the nodes whose last edge is left behind, a step back
those whose first edge is. When the edges have met, the nodes above that edge are left.
-/

namespace BTree

open CellHeap Alternation BTree.Tree List DoubleEnded

variable {K V B : Type} {h H : Nat}

section
variable {f b f' b' : Nat} {m : Multiset (Span K V)}

/-- The nodes that span a leaf edge from `f` to `b`. -/
def live (f b : Nat) (m : Multiset (Span K V)) : Cells (Node K V) :=
  (m.filter (fun x => f ≤ x.2.2 ∧ x.2.1 ≤ b)).map Prod.fst

lemma live_add (m m' : Multiset (Span K V)) : live f b (m + m') = live f b m + live f b m' := by
  rw [live, Multiset.filter_add, Multiset.map_add]
  rfl

lemma live_singleton {x : Span K V} (low : f ≤ x.2.2) (high : x.2.1 ≤ b) :
    live f b {x} = {x.1} := by
  rw [live, Multiset.filter_singleton, if_pos ⟨low, high⟩, Multiset.map_singleton]

lemma live_eq_zero (dead : ∀ x ∈ m, x.2.2 < f ∨ b < x.2.1) : live f b m = 0 := by
  rw [live, Multiset.filter_eq_nil.mpr, Multiset.map_zero]
  intro x hx
  have := dead x hx
  omega

lemma live_congr (same : ∀ x ∈ m, (f ≤ x.2.2 ∧ x.2.1 ≤ b) ↔ (f' ≤ x.2.2 ∧ x.2.1 ≤ b')) :
    live f b m = live f' b' m := by
  rw [live, Multiset.filter_congr same]
  rfl

lemma mem_live {x : Span K V} (there : x ∈ m) (low : f ≤ x.2.2) (high : x.2.1 ≤ b) :
    x.1 ∈ live f b m :=
  Multiset.mem_map_of_mem Prod.fst (Multiset.mem_filter.mpr ⟨there, low, high⟩)

lemma above_live {T : Tree (K × V) (H + 1)} {i : Nat} (low : f ≤ i) (high : i ≤ b) :
    Above (live f b (spans 0 none T)) T i :=
  fun _ there below above => mem_live there (low.trans above) (below.trans high)

lemma live_whole (T : Tree (K × V) (H + 1)) :
    live 0 T.entries.length (spans 0 none T) = cells none T := by
  have all : ∀ x ∈ spans 0 none T, 0 ≤ x.2.2 ∧ x.2.1 ≤ T.entries.length := by
    intro x hx
    have := spans_bounds T x hx
    omega
  rw [live, Multiset.filter_eq_self.mpr all, map_fst_spans]

end

section
variable {link : Option (Nat × Nat)} {a : Nat} {r : Cells (Node K V)}

lemma gives_deallocateAndAscend (body : Alternation (Tree (K × V) h) (K × V)) :
    Gives (deallocateAndAscend ⟨h, a⟩) ({(a, ⟨link, body.seps, edges body.items⟩)} + r)
      (link.map (fun link => ⟨⟨h + 1, link.1⟩, link.2⟩)) r := by
  have layout : h = 0 ↔ edges body.items = [] := by
    cases h with
    | zero => simp
    | succ h => simp [items]
  apply (gives_ascend mem_here).bind
  have freed : Gives (deallocate ⟨h, a⟩) ({(a, ⟨link, body.seps, edges body.items⟩)} + r) () r := by
    apply (gives_read mem_here).bind
    exact (gives_check layout).bind gives_free
  exact freed.bind (gives_pure _)

lemma spans_extend {off : Nat} (A : Alternation (Tree (K × V) h) (K × V))
    (right : List ((K × V) × Tree (K × V) h)) :
    spans off link (node a (A.extend right)) =
      {((a, ⟨link, (A.extend right).seps, edges (A.extend right).items⟩),
        (off, off + (node a (A.extend right)).entries.length))} +
      (spanKids a 0 off A.items + spanKids a (A.len + 1)
        (off + (node a A).entries.length + 1) (right.map Prod.snd)) := by
  have split : spanKids a 0 off (A.items ++ right.map Prod.snd) = _ := spanKids_append _ _
  rw [length_items, width_items, zero_add, ← add_assoc] at split
  rw [spans_node, items_extend, split, entries_node a A]

/-- A node in its place, the nodes around it that span a leaf edge from `f` to `b`, and `r`. -/
def around (f b : Nat) (ctx : Ctx (K × V) h H) (a : Nat)
    (body : Alternation (Tree (K × V) h) (K × V)) (r : Cells (Node K V)) : Cells (Node K V) :=
  live f b (ctx.spans a (node a body).entries.length) +
    ({(a, ⟨ctx.link, body.seps, edges body.items⟩)} + r)

section
variable {f b : Nat}

/-- The children of a node that all lie before the edges, or behind them. -/
lemma live_spanKids {i off : Nat} {kids : List (Tree (K × V) h)}
    (dead : off + width kids ≤ f ∨ b < off) : live f b (spanKids a i off kids) = 0 := by
  apply live_eq_zero
  intro y hy
  have := kid_bounds kids y hy
  omega

lemma length_entries_extend (a : Nat) (A : Alternation (Tree (K × V) h) (K × V))
    (right : List ((K × V) × Tree (K × V) h)) :
    (node a (A.extend right)).entries.length =
      (node a A).entries.length + width (right.map Prod.snd) := by
  rw [entries_node, weave_extend, length_append, width_right]
  rfl

/-- The nodes that are left when the node above the next pair has been found. -/
lemma live_forward (ctx : Ctx (K × V) h H) (A : Alternation (Tree (K × V) h) (K × V))
    (x : (K × V) × Tree (K × V) h) (right : List ((K × V) × Tree (K × V) h))
    (here : f = ctx.off + (node a A).entries.length) (more : f < b) :
    around f b ctx a (A.extend (x :: right))
        (live f b (spanKids a (A.len + 1) (f + 1) ((x :: right).map Prod.snd))) =
      live (f + 1) b (spans 0 none (ctx.plug (node a (A.extend (x :: right))))) := by
  have size := length_entries_extend a A (x :: right)
  rw [map_cons, width_cons] at size
  have outer : live (f + 1) b (ctx.spans a (node a (A.extend (x :: right))).entries.length) =
      live f b (ctx.spans a (node a (A.extend (x :: right))).entries.length) := by
    apply live_congr
    intro y hy
    have := ctx.spans_bounds a _ y hy
    omega
  have behind : live (f + 1) b (spanKids a 0 ctx.off A.items) = 0 := by
    apply live_spanKids
    rw [width_items, ← entries_node a A]
    omega
  have ahead : live (f + 1) b (spanKids a (A.len + 1) (f + 1) ((x :: right).map Prod.snd)) =
      live f b (spanKids a (A.len + 1) (f + 1) ((x :: right).map Prod.snd)) := by
    apply live_congr
    intro y hy
    have := kid_bounds _ y hy
    omega
  rw [around, ctx.spans_plug, spans_extend, ← here, live_add, live_add, live_add, addr_node, outer,
    behind, ahead, zero_add, live_singleton (by dsimp only; omega) (by dsimp only; omega)]

/-- The nodes around a node that spans one of the edges, seen from its parent. -/
lemma live_up (addr : Nat) (left : List (Tree (K × V) (h + 1) × (K × V)))
    (right : List ((K × V) × Tree (K × V) (h + 1))) (up : Ctx (K × V) (h + 1) H) (size : Nat)
    (low : f ≤ up.off + width (left.map Prod.fst) + size)
    (high : up.off + width (left.map Prod.fst) ≤ b) :
    live f b ((Ctx.step addr left right up).spans a size) =
      live f b (up.spans addr
        (width (left.map Prod.fst) + size + width (right.map Prod.snd))) +
      ({(addr, ⟨up.link, left.map Prod.snd ++ right.map Prod.fst,
        edges (left.map Prod.fst) ++ a :: edges (right.map Prod.snd)⟩)} +
        (live f b (spanKids addr 0 up.off (left.map Prod.fst)) +
          live f b (spanKids addr (left.length + 1)
            (up.off + width (left.map Prod.fst) + (size + 1)) (right.map Prod.snd)))) := by
  rw [Ctx.spans, live_add, live_add, live_add, live_singleton (by dsimp only; omega)
    (by dsimp only; omega)]
  abel

lemma adjacentKvDealloc_right (ctx : Ctx (K × V) h H) (a : Nat)
    (A : Alternation (Tree (K × V) h) (K × V)) (right : List ((K × V) × Tree (K × V) h))
    (fuel : Nat) (enough : ctx.depth < fuel) (here : f = ctx.off + (node a A).entries.length)
    (more : f < b) (bound : b ≤ (ctx.plug (node a (A.extend right))).entries.length) :
    Ends (adjacentKvDealloc rightKv fuel ⟨⟨h, a⟩, A.len⟩)
      (around f b ctx a (A.extend right)
        (live f b (spanKids a (A.len + 1) (f + 1) (right.map Prod.snd))))
      (fun kv m => (∃ e, KvAt (ctx.plug (node a (A.extend right))) kv f e) ∧
        m = live (f + 1) b (spans 0 none (ctx.plug (node a (A.extend right))))) := by
  induction fuel generalizing h a with
  | zero => exact absurd enough (Nat.not_lt_zero _)
  | succ fuel ih =>
    apply (gives_rightKv (mem_behind mem_here _)).bind
    cases right with
    | cons x right =>
      rw [if_pos (by simp [length_seps])]
      exact ends_pure ⟨⟨x.1, here ▸ KvAt.mk ctx a A x.1 ⟨x.2, right⟩⟩,
        live_forward ctx A x right here more⟩
    | nil =>
      rw [if_neg (by simp [length_seps])]
      rw [add_comm]
      apply (gives_deallocateAndAscend (A.extend [])).bind
      rw [extend_nil] at bound ⊢
      cases ctx with
      | top =>
        have : f = (node a A).entries.length := here.trans (zero_add _)
        exact absurd bound (not_le.mpr (this ▸ more))
      | step addr left right up =>
        have along : lead left ⟨node a A, right⟩ = (lead left ⟨node a A, []⟩).extend right := by
          rw [extend_lead]
          rfl
        have next := ih up addr (lead left ⟨node a A, []⟩) right (Nat.lt_of_succ_lt_succ enough)
          (by rw [here, Ctx.off_step, length_entries_focus, add_assoc]; rfl)
        rw [← along, len_lead, around, length_entries_focus, seps_lead, items_lead,
          edges_append] at next
        rw [Ctx.off_step] at here
        rw [live_up addr left right up _ here.le (by omega), live_spanKids (.inl (by omega)),
          zero_add, ← add_assoc _ _ 1, ← here]
        exact next bound

lemma length_entries_lead (a : Nat) (left : List (Tree (K × V) h × (K × V)))
    (C : Alternation (Tree (K × V) h) (K × V)) :
    (node a (lead left C)).entries.length =
      width (left.map Prod.fst) + (node a C).entries.length := by
  rw [entries_node, weave_lead, length_append, width_left]
  rfl

lemma spans_lead {off : Nat} (left : List (Tree (K × V) h × (K × V)))
    (C : Alternation (Tree (K × V) h) (K × V)) :
    spans off link (node a (lead left C)) =
      {((a, ⟨link, (lead left C).seps, edges (lead left C).items⟩),
        (off, off + (node a (lead left C)).entries.length))} +
      (spanKids a 0 off (left.map Prod.fst) +
        spanKids a left.length (off + width (left.map Prod.fst)) C.items) := by
  have split : spanKids a 0 off (left.map Prod.fst ++ C.items) = _ := spanKids_append _ _
  rw [length_map, zero_add] at split
  rw [spans_node, items_lead, split]

section
variable (ctx : Ctx (K × V) h H)
include ctx

lemma live_backward (left : List (Tree (K × V) h × (K × V)))
    (C : Alternation (Tree (K × V) h) (K × V))
    (here : b + 1 = ctx.off + width (left.map Prod.fst)) (some : ctx.off ≤ b) (more : f ≤ b) :
    around f (b + 1) ctx a (lead left C)
        (live f (b + 1) (spanKids a 0 ctx.off (left.map Prod.fst))) =
      live f b (spans 0 none (ctx.plug (node a (lead left C)))) := by
  have size := length_entries_lead a left C
  have outer : live f b (ctx.spans a (node a (lead left C)).entries.length) =
      live f (b + 1) (ctx.spans a (node a (lead left C)).entries.length) := by
    apply live_congr
    intro y hy
    have := ctx.spans_bounds a _ y hy
    omega
  have ahead :
      live f b (spanKids a left.length (ctx.off + width (left.map Prod.fst)) C.items) = 0 :=
    live_spanKids (.inr (by omega))
  have behind : live f b (spanKids a 0 ctx.off (left.map Prod.fst)) =
      live f (b + 1) (spanKids a 0 ctx.off (left.map Prod.fst)) := by
    apply live_congr
    intro y hy
    have := kid_bounds _ y hy
    omega
  rw [around, ctx.spans_plug, spans_lead, live_add, live_add, live_add, addr_node, outer, behind,
    ahead, add_zero, live_singleton (by dsimp only; omega) (by omega)]

lemma adjacentKvDealloc_left (a : Nat)
    (left : List (Tree (K × V) h × (K × V))) (C : Alternation (Tree (K × V) h) (K × V))
    (fuel : Nat) (enough : ctx.depth < fuel) (here : b + 1 = ctx.off + width (left.map Prod.fst))
    (more : f ≤ b) :
    Ends (adjacentKvDealloc leftKv fuel ⟨⟨h, a⟩, left.length⟩)
      (around f (b + 1) ctx a (lead left C)
        (live f (b + 1) (spanKids a 0 ctx.off (left.map Prod.fst))))
      (fun kv m => (∃ e, KvAt (ctx.plug (node a (lead left C))) kv b e) ∧
        m = live f b (spans 0 none (ctx.plug (node a (lead left C))))) := by
  induction fuel generalizing h a with
  | zero => exact absurd enough (Nat.not_lt_zero _)
  | succ fuel ih =>
    apply (gives_leftKv (mem_behind mem_here _) (by simp [length_seps])).bind
    rcases eq_nil_or_concat left with rfl | ⟨left, ⟨c, e⟩, rfl⟩
    · rw [add_comm]
      apply (gives_deallocateAndAscend C).bind
      cases ctx with
      | top => exact absurd here (Nat.succ_ne_zero b)
      | step addr left right up =>
        rw [Ctx.off_step, map_nil, width_nil] at here
        have next := ih up addr left ⟨node a C, right⟩ (Nat.lt_of_succ_lt_succ enough) here
        rw [around, length_entries_focus, seps_lead, items_lead, edges_append] at next
        rw [live_up addr left right up _ (by omega) here.ge, live_spanKids (i := left.length + 1)
          (.inr (by omega)), add_zero]
        exact next
    · simp only [concat_eq_append] at here ⊢
      have along : lead (left ++ [(c, e)]) C = (lead left ⟨c, []⟩).join e C := by
        rw [← lead_lead, lead_join]
        rfl
      have found := KvAt.mk ctx a (lead left ⟨c, []⟩) e C
      rw [← along, len_lead, len_mk, length_nil, add_zero, length_entries_focus] at found
      rw [length_append, length_singleton, Nat.add_sub_cancel]
      refine ends_pure ⟨⟨e, ?_⟩, ?_⟩
      · convert found using 1
        simp at here ⊢
        omega
      · apply live_backward ctx _ C (by simpa using here) _ more
        simp at here
        omega

lemma gives_deallocateUpwards (a : Nat)
    (body : Alternation (Tree (K × V) h) (K × V)) (fuel : Nat) (enough : ctx.depth < fuel)
    (low : ctx.off ≤ f) (high : f ≤ ctx.off + (node a body).entries.length) :
    Gives (deallocateUpwards fuel ⟨h, a⟩) (around f f ctx a body 0) () 0 := by
  induction fuel generalizing h a with
  | zero => exact absurd enough (Nat.not_lt_zero _)
  | succ fuel ih =>
    rw [around, add_comm (live _ _ _)]
    apply (gives_deallocateAndAscend body).bind
    cases ctx with
    | top => exact gives_pure ()
    | step addr left right up =>
      rw [Ctx.off_step] at low high
      have next := ih up addr (lead left ⟨node a body, right⟩) (Nat.lt_of_succ_lt_succ enough)
        (by omega) (by rw [length_entries_focus]; omega)
      rw [around, length_entries_focus, seps_lead, items_lead, edges_append] at next
      -- the edges have met, so no sibling is left
      rw [live_up addr left right up _ high low, live_spanKids (.inl low),
        live_spanKids (.inr (by omega))]
      exact next

/-- The nodes above the hole are still there, so there is enough fuel to go up. -/
lemma depth_le_card (size : Nat) (low : f ≤ ctx.off + size)
    (high : ctx.off ≤ b) : ctx.depth ≤ (live f b (ctx.spans a size)).card := by
  induction ctx generalizing a size with
  | top => exact Nat.zero_le _
  | step addr left right up ih =>
    rw [Ctx.off_step] at low high
    have outer := ih (a := addr) (width (left.map Prod.fst) + size + width (right.map Prod.snd))
      (by omega) (by omega)
    rw [Ctx.spans, live_add, live_add, live_singleton (by dsimp only; omega) (by dsimp only; omega),
      Multiset.card_add, Multiset.card_add, Multiset.card_singleton, Ctx.depth]
    omega

end

/-- A leaf that spans the edge `f`, below nodes that are all still there. -/
lemma live_leaf (ctx : Ctx (K × V) 0 H) (A : Alternation (Tree (K × V) 0) (K × V))
    (low : f ≤ ctx.off + (node a A).entries.length) (high : ctx.off ≤ b) :
    live f b (spans 0 none (ctx.plug (node a A))) = around f b ctx a A 0 ∧
      ctx.depth < (around f b ctx a A 0).card := by
  constructor
  · rw [around, ctx.spans_plug, live_add, spans_node, spanKids_zero, add_zero, add_zero, addr_node,
      live_singleton low high]
  · rw [around, Multiset.card_add]
    exact Nat.lt_succ_of_le (depth_le_card ctx _ low high)

end

variable {T : Tree (K × V) (H + 1)} {edge : Handle} {f b : Nat}
  {k : Handle × (K × V) → Code K V B} {R : B → Cells (Node K V) → Prop}

lemma ends_nextUncheckedOwned (at_ : EdgeAt T edge f) (more : f < b) (bound : b ≤ T.entries.length)
    (hk : ∀ edge' e, EdgeAt T edge' (f + 1) → T.entries[f]? = some e →
      Ends (k (edge', e)) (live (f + 1) b (spans 0 none T)) R) :
    Ends (nextUncheckedOwned edge >>= k) (live f b (spans 0 none T)) R := by
  obtain ⟨ctx, a, left, c, right, rfl, rfl, here⟩ := at_.exists_focus
  have along : lead left ⟨c, right⟩ = (lead left ⟨c, []⟩).extend right := by
    rw [extend_lead]
    rfl
  have place : f = ctx.off + (node a (lead left ⟨c, []⟩)).entries.length := by
    rw [here, length_entries_focus, width_zero, length_map]
    rfl
  have size := length_entries_extend a (lead left ⟨c, []⟩) right
  rw [← along] at size
  obtain ⟨start, shallow⟩ := live_leaf (a := a) (f := f) (b := b) ctx
    (lead left ⟨c, right⟩) (by omega) (by omega)
  have step (fuel : Nat) (enough : ctx.depth < fuel) := adjacentKvDealloc_right ctx a
    (lead left ⟨c, []⟩) right fuel enough place more (by rwa [← along])
  rw [← along, len_lead] at step
  unfold nextUncheckedOwned nextKvUncheckedDealloc
  rw [bind_assoc, bind_assoc]
  rw [start]
  apply ends_cellBound
  intro fuel deep
  have found := step fuel (by omega)
  rw [spanKids_zero] at found
  apply found.bind
  rintro kv _ ⟨⟨e, pair⟩, rfl⟩
  rw [bind_assoc]
  apply (pair.gives_intoKv (above_live le_rfl more) (Nat.le_succ f) le_rfl).bind
  obtain ⟨edge', there, moved⟩ := gives_nextLeafEdge pair (above_live le_rfl more)
  rw [bind_assoc]
  apply moved.bind
  exact hk edge' e there pair.getElem?

lemma ends_nextBackUncheckedOwned (at_ : EdgeAt T edge (b + 1)) (more : f ≤ b)
    (hk : ∀ edge' e, EdgeAt T edge' b → T.entries[b]? = some e →
      Ends (k (edge', e)) (live f b (spans 0 none T)) R) :
    Ends (nextBackUncheckedOwned edge >>= k) (live f (b + 1) (spans 0 none T)) R := by
  obtain ⟨ctx, a, left, c, right, rfl, rfl, here⟩ := at_.exists_focus
  have place : b + 1 = ctx.off + width (left.map Prod.fst) := by
    rw [here, width_zero, length_map]
  have size := length_entries_lead a left ⟨c, right⟩
  obtain ⟨start, shallow⟩ := live_leaf (a := a) (f := f) (b := b + 1) ctx
    (lead left ⟨c, right⟩) (by omega) (by omega)
  unfold nextBackUncheckedOwned nextBackKvUncheckedDealloc
  rw [bind_assoc, bind_assoc]
  rw [start]
  apply ends_cellBound
  intro fuel deep
  have found := adjacentKvDealloc_left ctx a left ⟨c, right⟩ fuel (by omega) place more
  rw [spanKids_zero] at found
  apply found.bind
  rintro kv _ ⟨⟨e, pair⟩, rfl⟩
  rw [bind_assoc]
  apply (pair.gives_intoKv (above_live more le_rfl) le_rfl (Nat.le_succ b)).bind
  obtain ⟨edge', there, moved⟩ := gives_nextBackLeafEdge pair (above_live more le_rfl)
  rw [bind_assoc]
  apply moved.bind
  exact hk edge' e there pair.getElem?

end

section

/-- The iterator owns the nodes and has still to give the pairs in the list. -/
inductive Iterates : IntoIter → Cells (Node K V) → List (K × V) → Prop
  | nothing : Iterates ⟨none, none, 0⟩ 0 []
  | between {H : Nat} (T : Tree (K × V) (H + 1)) {front back : Handle} {f b : Nat}
      (atFront : EdgeAt T front f) (atBack : EdgeAt T back b) (le : f ≤ b) :
    Iterates ⟨some front, some back, b - f⟩ (live f b (spans 0 none T))
      ((T.entries.drop f).take (b - f))

variable {it : IntoIter} {m : Cells (Node K V)} {kvs : List (K × V)}

section
variable (iterates : Iterates it m kvs)
include iterates

lemma Iterates.length : it.length = kvs.length := by
  cases iterates with
  | nothing => rfl
  | between T atFront atBack le =>
    have := atBack.le
    rw [length_take, length_drop]
    dsimp only
    omega

lemma Iterates.next : Ends it.next m (fun r m' => r.1 = kvs.head? ∧ Iterates r.2 m' kvs.tail) := by
  cases iterates with
  | nothing => exact ends_pure ⟨rfl, .nothing⟩
  | @between H T front back f b atFront atBack le =>
    unfold IntoIter.next
    by_cases met : b - f = 0
    · rw [met]
      have kept := Iterates.between T atFront atBack le
      rw [met] at kept
      exact ends_pure ⟨rfl, kept⟩
    · rw [if_neg met]
      apply (gives_need front).bind
      apply ends_nextUncheckedOwned atFront (by omega) atBack.le
      intro front' e there found
      have split : (T.entries.drop f).take (b - f) =
          e :: (T.entries.drop (f + 1)).take (b - (f + 1)) := by
        obtain ⟨bound, rfl⟩ := List.getElem?_eq_some_iff.mp found
        rw [drop_eq_getElem_cons bound, show b - f = b - (f + 1) + 1 by omega, take_succ_cons]
      rw [split]
      have moved := Iterates.between T there atBack (by omega : f + 1 ≤ b)
      exact ends_pure ⟨rfl, moved⟩

lemma Iterates.nextBack :
    Ends it.nextBack m (fun r m' => r.1 = kvs.getLast? ∧ Iterates r.2 m' kvs.dropLast) := by
  cases iterates with
  | nothing => exact ends_pure ⟨rfl, .nothing⟩
  | @between H T front back f b atFront atBack le =>
    unfold IntoIter.nextBack
    by_cases met : b - f = 0
    · rw [met]
      have kept := Iterates.between T atFront atBack le
      rw [met] at kept
      exact ends_pure ⟨rfl, kept⟩
    · rw [if_neg met]
      obtain ⟨b, rfl⟩ := Nat.exists_eq_succ_of_ne_zero (show b ≠ 0 by omega)
      apply (gives_need back).bind
      apply ends_nextBackUncheckedOwned atBack (by omega)
      intro back' e there found
      have split : (T.entries.drop f).take (b + 1 - f) =
          (T.entries.drop f).take (b - f) ++ [e] := by
        rw [show b + 1 - f = b - f + 1 by omega, take_add_one, getElem?_drop,
          show f + (b - f) = b by omega, found]
        rfl
      rw [split]
      have moved := Iterates.between T atFront there (by omega)
      refine ends_pure ⟨by simp, ?_⟩
      rw [dropLast_concat]
      rw [show b + 1 - f - 1 = b - f by omega]
      exact moved

lemma Iterates.dropPairs (n : Nat) (enough : kvs.length < n) :
    Ends (it.dropPairs n) m (fun r m' => r.1 = kvs ∧ Iterates r.2 m' []) := by
  induction n generalizing it m kvs with
  | zero => exact absurd enough (Nat.not_lt_zero _)
  | succ n ih =>
    apply iterates.next.bind
    rintro ⟨x, it'⟩ m' ⟨given, iterates'⟩
    cases kvs with
    | nil =>
      obtain rfl : x = none := given
      exact ends_pure ⟨rfl, iterates'⟩
    | cons kv kvs =>
      obtain rfl : x = some kv := given
      apply (ih iterates' (Nat.lt_of_succ_lt_succ enough)).bind
      rintro ⟨dropped, it''⟩ m'' ⟨rfl, done⟩
      exact ends_pure ⟨rfl, done⟩

lemma Iterates.drop : Gives it.drop m kvs 0 := by
  apply (iterates.dropPairs (it.length + 1) (by rw [iterates.length]; omega)).bind
  rintro ⟨dropped, it'⟩ m' ⟨rfl, done⟩
  generalize none_left : ([] : List (K × V)) = none at done
  cases done with
  | nothing => exact gives_pure _
  | @between H T front back f b atFront atBack le =>
    obtain rfl : f = b := by
      have := congrArg List.length none_left
      have := atBack.le
      rw [length_nil, length_take, length_drop] at *
      omega
    obtain ⟨ctx, a, left, c, right, rfl, rfl, here⟩ := atFront.exists_focus
    have size := length_entries_lead a left ⟨c, right⟩
    rw [width_zero, length_map] at size
    obtain ⟨start, shallow⟩ := live_leaf (a := a) (f := f) (b := f) ctx
      (lead left ⟨c, right⟩) (by omega) (by omega)
    rw [start]
    apply ends_cellBound
    intro fuel deep
    apply (gives_deallocateUpwards ctx a _ fuel (by omega) (by omega) (by omega)).bind
    exact gives_pure _

end

lemma ends_intoIter {map : BTreeMap} (holds : Holds map m kvs)
    (length : map.length = kvs.length) : Ends map.intoIter m (fun it m' => Iterates it m' kvs) := by
  obtain ⟨root, len⟩ := map
  cases root with
  | none =>
    obtain ⟨rfl, rfl⟩ := holds
    exact ends_pure .nothing
  | some root =>
    obtain ⟨height, addr⟩ := root
    obtain ⟨T, root, rfl, -, rfl⟩ := holds
    dsimp only at T root
    subst root
    obtain rfl : len = T.entries.length := length
    apply (gives_fullRange T).bind
    apply ends_pure
    have whole := Iterates.between T (edgeAt_head T) (edgeAt_last T) (Nat.zero_le _)
    rwa [live_whole, Nat.sub_zero, drop_zero, take_length] at whole

lemma Iterates.calls (script : List Bool) (iterates : Iterates it m kvs) :
    Ends (it.calls script) m (fun r m' => r.1 = replies (script.map ofEnd) kvs ∧
      Iterates r.2 m' (rest (script.map ofEnd) kvs)) := by
  induction script generalizing it m kvs with
  | nil => exact ends_pure ⟨rfl, iterates⟩
  | cons front script ih =>
    have stepped : Ends (it.call front) m (fun r m' =>
        r.1 = (ask (ofEnd front) kvs).1 ∧
          Iterates r.2 m' (ask (ofEnd front) kvs).2) := by
      cases front with
      | true => exact iterates.next
      | false => exact iterates.nextBack
    apply stepped.bind
    rintro ⟨x, it'⟩ m' ⟨rfl, iterates'⟩
    apply (ih iterates').bind
    rintro ⟨given, it''⟩ m'' ⟨rfl, iterates''⟩
    exact ends_pure ⟨rfl, iterates''⟩

end

/-- An owned iterator over a map, called at both ends and then dropped. -/
def iterateThenDrop (map : BTreeMap) (script : List Bool) :
    Code K V (List (Option (K × V)) × List (K × V)) := do
  let it ← map.intoIter
  let (given, it) ← it.calls script
  let dropped ← it.drop
  return (given, dropped)

lemma iterateThenDrop_spec {cmp : K → K → Ordering} {map : BTreeMap} {c : Cells (Node K V)}
    {kvs : List (K × V)} (script : List Bool) (formed : WellFormed cmp map c kvs) :
    Gives (iterateThenDrop map script) c
      (DoubleEnded.replies (script.map DoubleEnded.ofEnd) kvs,
        DoubleEnded.rest (script.map DoubleEnded.ofEnd) kvs) 0 := by
  apply (ends_intoIter formed.holds formed.length).bind
  intro it c iterates
  apply (iterates.calls script).bind
  rintro ⟨_, it⟩ c ⟨rfl, iterates⟩
  exact iterates.drop.bind (gives_pure _)

/-- Every call is answered as by the ascending list of the pairs, the drop gives up what is left of
it, and all nodes have then been freed. A read of a freed node, a second free, or a free with the
layout of the other kind of node would be a violation, and the program does not end so. -/
theorem intoIter_frees_each_node_once {cmp : K → K → Ordering} {map : BTreeMap}
    {c : Cells (Node K V)} {kvs : List (K × V)} (formed : WellFormed cmp map c kvs)
    (script : List Bool) :
    Ends (iterateThenDrop map script) c (fun r rest => rest = 0 ∧
      r.1 = DoubleEnded.replies (script.map DoubleEnded.ofEnd) kvs ∧
      r.2 = DoubleEnded.rest (script.map DoubleEnded.ofEnd) kvs ∧
      DoubleEnded.handed true script r.1 ++ r.2 ++
        (DoubleEnded.handed false script r.1).reverse = kvs) := by
  apply (iterateThenDrop_spec script formed).mono
  rintro r rest ⟨rfl, rfl⟩
  exact ⟨rfl, rfl, rfl, DoubleEnded.handed_replies script kvs⟩

theorem intoIter_frees_sample :
    Ends (iterateThenDrop ⟨some ⟨1, 2⟩, 11⟩ [true, false, true]) (cells none sample)
      (fun r rest => rest = 0 ∧ r.1 = [some (0, 0), some (10, 10), some (1, 1)] ∧
        r.2 = [(2, 2), (3, 3), (4, 4), (5, 5), (6, 6), (7, 7), (8, 8), (9, 9)]) := by
  apply (intoIter_frees_each_node_once sample_formed [true, false, true]).mono
  rintro r rest ⟨freed, given, dropped, -⟩
  exact ⟨freed, given, dropped⟩

end BTree
