import BpfSysroot.BTreeNodeSpecs

/-!
# Which leaf edges are below a node

The leaf edges of a tree are numbered from left to right. Each node spans an interval of them: a
child spans a part of the interval of its parent, and two siblings span different parts. The number
of a leaf edge is also the number of pairs to its left.
-/

namespace BTree

open CellHeap Alternation BTree.Tree List

variable {K V E : Type} {n h H : Nat}

/-- A node, with the numbers of the first and the last leaf edge below it. -/
abbrev Span (K V : Type) := (Nat × Node K V) × (Nat × Nat)

/-- The number of pairs in consecutive children and behind each of them. -/
def width (ts : List (Tree E n)) : Nat := (ts.map (fun t => t.entries.length + 1)).sum

@[simp]
lemma width_nil : width ([] : List (Tree E n)) = 0 := rfl

@[simp]
lemma width_cons (t : Tree E n) (ts : List (Tree E n)) :
    width (t :: ts) = t.entries.length + 1 + width ts := by
  simp [width]

@[simp]
lemma width_append (ts us : List (Tree E n)) : width (ts ++ us) = width ts + width us := by
  simp [width]

lemma width_left (left : List (Tree E n × E)) :
    width (left.map Prod.fst) = (left.flatMap (fun x => x.1.entries ++ [x.2])).length := by
  induction left with
  | nil => rfl
  | cons x left ih => rw [map_cons, width_cons, ih]; simp; omega

lemma width_right (right : List (E × Tree E n)) :
    width (right.map Prod.snd) = (right.flatMap (fun x => x.1 :: x.2.entries)).length := by
  induction right with
  | nil => rfl
  | cons x right ih => rw [map_cons, width_cons, ih]; simp; omega

lemma width_items (body : Alternation (Tree E n) E) :
    width body.items = (body.weave entries).length + 1 := by
  obtain ⟨head, tail⟩ := body
  induction tail generalizing head with
  | nil => simp [weave]
  | cons x tail ih =>
    have split : (⟨head, x :: tail⟩ : Alternation (Tree E n) E) = join ⟨head, []⟩ x.1 ⟨x.2, tail⟩ :=
      rfl
    rw [split, items_join, width_append, ih, weave_join]
    simp [weave]
    omega

lemma length_leads (left : List (Tree E (h + 1) × E)) :
    (leads walk left).length = width (left.map Prod.fst) := by
  induction left with
  | nil => rfl
  | cons x left ih =>
    have first : ((walk x.1).before x.2).length = x.1.entries.length + 1 := by
      rw [← length_map Prod.snd, map_snd_before, length_append, seps_walk]
      rfl
    rw [map_cons, width_cons, ← ih, ← first]
    exact length_append

lemma width_zero (ts : List (Tree E 0)) : width ts = ts.length := by
  induction ts with
  | nil => rfl
  | cons t ts ih => simp [ih, entries, add_comm]

lemma length_entries_focus (a : Nat) (left : List (Tree E n × E)) (t : Tree E n)
    (right : List (E × Tree E n)) :
    (node a (lead left ⟨t, right⟩)).entries.length =
      width (left.map Prod.fst) + t.entries.length + width (right.map Prod.snd) := by
  have total := width_items (lead left ⟨t, right⟩)
  rw [items_lead, items_mk, width_append, width_cons] at total
  rw [entries_node]
  omega

/-- The number of the first leaf edge in the hole. -/
def Ctx.off (ctx : Ctx E h H) : Nat := ctx.lefts.length

lemma Ctx.off_step (a : Nat) (left : List (Tree E (h + 1) × E))
    (right : List (E × Tree E (h + 1))) (up : Ctx E (h + 1) H) :
    (Ctx.step a left right up).off = up.off + width (left.map Prod.fst) := by
  rw [off, lefts, length_append, length_leads, off]

section
variable {C N : Type}

def spanKidsOf (spans : Nat → Option (Nat × Nat) → C → Multiset N) (size : C → Nat) (parent : Nat) :
    Nat → Nat → List C → Multiset N
  | _, _, [] => 0
  | start, off, t :: ts =>
    spans off (some (parent, start)) t +
      spanKidsOf spans size parent (start + 1) (off + (size t + 1)) ts

/-- The nodes of a tree whose first leaf edge has the number `off`. -/
def spans : {n : Nat} → Nat → Option (Nat × Nat) → Tree (K × V) n → Multiset (Span K V)
  | 0, _, _, _ => 0
  | _ + 1, off, link, t =>
    {((t.addr, ⟨link, t.body.seps, edges t.body.items⟩), (off, off + t.entries.length))} +
      spanKidsOf spans (fun t => t.entries.length) t.addr 0 off t.body.items

def spanKids (parent start off : Nat) (ts : List (Tree (K × V) n)) : Multiset (Span K V) :=
  spanKidsOf spans (fun t => t.entries.length) parent start off ts

variable {link : Option (Nat × Nat)} {a off start : Nat}

lemma spans_node (body : Alternation (Tree (K × V) n) (K × V)) :
    spans off link (node a body) =
      {((a, ⟨link, body.seps, edges body.items⟩), (off, off + (node a body).entries.length))} +
      spanKids a 0 off body.items := rfl

@[simp]
lemma spanKids_nil : spanKids a start off ([] : List (Tree (K × V) n)) = 0 := rfl

@[simp]
lemma spanKids_cons (t : Tree (K × V) n) (ts : List (Tree (K × V) n)) :
    spanKids a start off (t :: ts) =
      spans off (some (a, start)) t + spanKids a (start + 1) (off + (t.entries.length + 1)) ts :=
  rfl

@[simp]
lemma spanKids_zero (ts : List (Tree (K × V) 0)) : spanKids a start off ts = 0 := by
  induction ts generalizing start off with
  | nil => rfl
  | cons t ts ih => rw [spanKids_cons, ih, spans, add_zero]

lemma spanKids_append (ts us : List (Tree (K × V) n)) :
    spanKids a start off (ts ++ us) =
      spanKids a start off ts + spanKids a (start + ts.length) (off + width ts) us := by
  induction ts generalizing start off with
  | nil => simp
  | cons t ts ih =>
    rw [cons_append, spanKids_cons, spanKids_cons, ih, ← add_assoc, length_cons, width_cons,
      show start + 1 + ts.length = start + (ts.length + 1) by omega,
      show off + (t.entries.length + 1) + width ts =
        off + (t.entries.length + 1 + width ts) by omega]

lemma spans_focus (left : List (Tree (K × V) (h + 1) × (K × V))) (t : Tree (K × V) (h + 1))
    (right : List ((K × V) × Tree (K × V) (h + 1))) :
    spans off link (node a (lead left ⟨t, right⟩)) =
      {((a, ⟨link, left.map Prod.snd ++ right.map Prod.fst,
        edges (left.map Prod.fst) ++ t.addr :: edges (right.map Prod.snd)⟩),
        (off, off + (width (left.map Prod.fst) + t.entries.length + width (right.map Prod.snd))))} +
      (spanKids a 0 off (left.map Prod.fst) +
        spans (off + width (left.map Prod.fst)) (some (a, left.length)) t +
        spanKids a (left.length + 1)
          (off + width (left.map Prod.fst) + (t.entries.length + 1)) (right.map Prod.snd)) := by
  rw [spans_node, length_entries_focus, items_lead, seps_lead, items_mk, seps_mk, edges_append,
    edges_cons, spanKids_append, spanKids_cons, length_map, zero_add, add_assoc (spanKids _ _ _ _)]

lemma map_fst_spans (off : Nat) (t : Tree (K × V) n) :
    (spans off link t).map Prod.fst = cells link t := by
  have kids {n : Nat} (all : ∀ (off : Nat) (link : Option (Nat × Nat)) (t : Tree (K × V) n),
      (spans off link t).map Prod.fst = cells link t) (a : Nat) (ts : List (Tree (K × V) n)) :
      ∀ start off, (spanKids a start off ts).map Prod.fst = kids a start ts := by
    induction ts with
    | nil => exact fun _ _ => rfl
    | cons t ts ih =>
      intro start off
      rw [spanKids_cons, Multiset.map_add, ih, all, kids_cons]
  induction n generalizing off link with
  | zero => rfl
  | succ n ih =>
    obtain ⟨a, body, rfl⟩ := t.exists_node
    rw [spans_node, Multiset.map_add, kids (fun off _ t => ih off t),
      Multiset.map_singleton, cells_node]

lemma spanKids_bounds (all : ∀ (off : Nat) (link : Option (Nat × Nat)) (t : Tree (K × V) n),
      ∀ x ∈ spans off link t, off ≤ x.2.1 ∧ x.2.1 ≤ x.2.2 ∧ x.2.2 ≤ off + t.entries.length)
    (ts : List (Tree (K × V) n)) :
    ∀ x ∈ spanKids a start off ts, off ≤ x.2.1 ∧ x.2.1 ≤ x.2.2 ∧ x.2.2 < off + width ts := by
  induction ts generalizing start off with
  | nil => nofun
  | cons t ts ih =>
    intro x hx
    rw [spanKids_cons, Multiset.mem_add] at hx
    rw [width_cons]
    rcases hx with here | later
    · have := all _ _ t x here
      omega
    · have := ih x later
      omega

lemma spans_bounds (t : Tree (K × V) n) :
    ∀ x ∈ spans off link t, off ≤ x.2.1 ∧ x.2.1 ≤ x.2.2 ∧ x.2.2 ≤ off + t.entries.length := by
  induction n generalizing off link with
  | zero => nofun
  | succ n ih =>
    obtain ⟨a, body, rfl⟩ := t.exists_node
    intro x hx
    rw [spans_node, Multiset.mem_add, Multiset.mem_singleton] at hx
    rcases hx with rfl | below
    · exact ⟨le_rfl, Nat.le_add_right _ _, le_rfl⟩
    · have bounds := spanKids_bounds (fun _ _ t => ih t) body.items x below
      rw [width_items] at bounds
      rw [entries_node]
      omega

lemma kid_bounds (ts : List (Tree (K × V) n)) :
    ∀ x ∈ spanKids a start off ts, off ≤ x.2.1 ∧ x.2.1 ≤ x.2.2 ∧ x.2.2 < off + width ts :=
  spanKids_bounds (fun _ _ t => spans_bounds t) ts

end

namespace Ctx

/-- The nodes around the hole, for a tree in it with a given address and number of pairs. -/
def spans : {h : Nat} → Ctx (K × V) h H → Nat → Nat → Multiset (Span K V)
  | _, top, _, _ => 0
  | _, step addr left right up, a, size =>
    let size' := width (left.map Prod.fst) + size + width (right.map Prod.snd)
    {((addr, ⟨up.link, left.map Prod.snd ++ right.map Prod.fst,
      edges (left.map Prod.fst) ++ a :: edges (right.map Prod.snd)⟩), (up.off, up.off + size'))} +
    (spanKids addr 0 up.off (left.map Prod.fst) +
      spanKids addr (left.length + 1) (up.off + width (left.map Prod.fst) + (size + 1))
        (right.map Prod.snd)) +
    up.spans addr size'

lemma spans_plug (ctx : Ctx (K × V) h H) (t : Tree (K × V) (h + 1)) :
    BTree.spans 0 none (ctx.plug t) =
      ctx.spans t.addr t.entries.length + BTree.spans ctx.off ctx.link t := by
  induction ctx with
  | top => simp [plug, spans, link, off, lefts]
  | step addr left right up ih =>
    rw [plug, ih, spans_focus, addr_node, length_entries_focus, spans, link, off_step]
    abel

/-- A node around the hole is to the left of it, to the right of it, or above it. -/
lemma spans_bounds (ctx : Ctx (K × V) h H) (a size : Nat) :
    ∀ x ∈ ctx.spans a size, x.2.1 ≤ x.2.2 ∧ (x.2.2 < ctx.off ∨ ctx.off + size < x.2.1 ∨
      (x.2.1 ≤ ctx.off ∧ ctx.off + size ≤ x.2.2)) := by
  induction ctx generalizing a size with
  | top => nofun
  | step addr left right up ih =>
    intro x hx
    rw [off_step]
    simp only [spans, Multiset.mem_add, Multiset.mem_singleton] at hx
    rcases hx with (rfl | inLeft | inRight) | above
    · dsimp only
      omega
    · have := kid_bounds (left.map Prod.fst) x inLeft
      omega
    · have := kid_bounds (right.map Prod.snd) x inRight
      omega
    · have := ih _ _ x above
      omega

end Ctx
end BTree
