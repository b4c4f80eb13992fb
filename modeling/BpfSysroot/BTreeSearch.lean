import BpfSysroot.BTreeNavigateSpecs
import BpfSysroot.BTreeInvariant

/-!
# Looking up a key

A search keeps the place of the key below its node: the key is above the last pair before the node
and below the first one behind it. So it ends at the leaf edge where the key belongs, unless it
meets an equal key on the way.
-/

namespace BTree

open CellHeap Alternation BTree.Tree List

variable {K V : Type} {h H a : Nat} {key : K → Ordering} {front back front' back' : List (K × V)}

/-- The key is above the pair before a place and below the one behind it. -/
def Between (key : K → Ordering) (front back : List (K × V)) : Prop :=
  (∀ x ∈ front.getLast?, key x.1 = .gt) ∧ ∀ x ∈ back.head?, key x.1 = .lt

lemma Between.append (outer : Between key front back) (inner : Between key front' back') :
    Between key (front ++ front') (back' ++ back) := by
  constructor
  · rcases eq_nil_or_concat' front' with rfl | ⟨front', x, rfl⟩
    · simpa using outer.1
    · simpa using inner.1
  · cases back' with
    | nil => exact outer.2
    | cons x back' => exact inner.2

lemma Between.step {ctx : Ctx (K × V) (h + 1) H} {left : List (Tree (K × V) (h + 1) × (K × V))}
    {right : List ((K × V) × Tree (K × V) (h + 1))}
    (outer : Between key (ctx.lefts.map Prod.snd) (ctx.rights.map Prod.fst))
    (inner : Between key (left.map Prod.snd) (right.map Prod.fst)) :
    Between key ((ctx.step a left right).lefts.map Prod.snd)
      ((ctx.step a left right).rights.map Prod.fst) := by
  constructor
  · rcases eq_nil_or_concat' left with rfl | ⟨left, x, rfl⟩
    · simpa [Ctx.lefts, leads] using outer.1
    · simpa [Ctx.lefts, leads] using inner.1
  · cases right with
    | nil => exact outer.2
    | cons x right => exact inner.2

lemma searchLinear_spec {C : Type} (key : K → Ordering) (body : Alternation C (K × V)) (i : Nat) :
    (∃ (A B : Alternation C (K × V)) (e : K × V), body = A.join e B ∧ key e.1 = .eq ∧
      searchLinear key body.seps i = (i + A.len, true)) ∨
    ∃ left c right, body = lead left ⟨c, right⟩ ∧
      Between key (left.map Prod.snd) (right.map Prod.fst) ∧
      searchLinear key body.seps i = (i + left.length, false) := by
  obtain ⟨head, tail⟩ := body
  induction tail generalizing head i with
  | nil => exact .inr ⟨[], head, [], rfl, by simp [Between], rfl⟩
  | cons x tail ih =>
    rw [seps_mk, map_cons, searchLinear]
    cases order : key x.1.1 with
    | lt => exact .inr ⟨[], head, x :: tail, rfl, by simpa [Between] using order, rfl⟩
    | eq => exact .inl ⟨⟨head, []⟩, ⟨x.2, tail⟩, x.1, rfl, order, rfl⟩
    | gt =>
      obtain ⟨A, B, e, same, equal, found⟩ | ⟨left, c, right, same, between, found⟩ :=
        ih (i + 1) x.2
      · refine .inl ⟨lead [(head, x.1)] A, B, e, ?_, equal, ?_⟩
        · rw [lead_join, ← same]
          rfl
        · rw [len_lead, ← add_assoc]
          exact found
      · have here : Between key [x.1] [] := by simpa [Between] using order
        refine .inr ⟨(head, x.1) :: left, c, right, ?_, by simpa using here.append between, ?_⟩
        · rw [lead, ← same]
        · rw [length_cons, add_comm left.length, ← add_assoc]
          exact found

/-- Where a search ends: at an equal key, or at the leaf edge where the key belongs. -/
inductive Located (key : K → Ordering) : Tree (K × V) (H + 1) → SearchResult → Prop
  | found {T : Tree (K × V) (H + 1)} {kv : Handle} {i : Nat} {e : K × V} (at_ : KvAt T kv i e)
      (equal : key e.1 = .eq) : Located key T (.found kv)
  | goDown (ctx : Ctx (K × V) 0 H) (a : Nat) (left : List (Tree (K × V) 0 × (K × V)))
      (c : Tree (K × V) 0) (right : List ((K × V) × Tree (K × V) 0))
      (between : Between key (ctx.lefts.map Prod.snd ++ left.map Prod.snd)
        (right.map Prod.fst ++ ctx.rights.map Prod.fst)) :
    Located key (ctx.plug (node a (lead left ⟨c, right⟩))) (.goDown ⟨⟨0, a⟩, left.length⟩)

lemma above_cells (T : Tree (K × V) (H + 1)) (i : Nat) : Above (cells none T) T i := by
  intro x hx _ _
  rw [← map_fst_spans 0]
  exact Multiset.mem_map_of_mem Prod.fst hx

/-- One node: an equal key, or the edge to go down. -/
lemma searchNode_spec {M : Cells (Node K V)} (ctx : Ctx (K × V) h H)
    (body : Alternation (Tree (K × V) h) (K × V))
    (there : (a, ⟨ctx.link, body.seps, edges body.items⟩) ∈ M) :
    (∃ kv, Located key (ctx.plug (node a body)) (.found kv) ∧
      Gives (searchNode key ⟨h, a⟩) M (.found kv) M) ∨
    ∃ left c right, body = lead left ⟨c, right⟩ ∧
      Between key (left.map Prod.snd) (right.map Prod.fst) ∧
      Gives (searchNode key ⟨h, a⟩) M (.goDown ⟨⟨h, a⟩, left.length⟩) M := by
  obtain ⟨A, B, e, rfl, equal, found⟩ | ⟨left, c, right, rfl, between, found⟩ :=
    searchLinear_spec key body 0
  · refine .inl ⟨_, .found (.mk ctx a A e B) equal, (gives_read there).bind ?_⟩
    rw [found, zero_add]
    exact (gives_newKv (n := ⟨h, a⟩) there (by simp [length_seps])).bind (gives_pure _)
  · refine .inr ⟨left, c, right, rfl, between, (gives_read there).bind ?_⟩
    rw [found, zero_add]
    exact (gives_newEdge (n := ⟨h, a⟩) there (by simp)).bind (gives_pure _)

lemma searchTreeAt_spec {h : Nat} (ctx : Ctx (K × V) h H) (t : Tree (K × V) (h + 1))
    (between : Between key (ctx.lefts.map Prod.snd) (ctx.rights.map Prod.fst)) :
    ∃ r, Located key (ctx.plug t) r ∧
      Gives (searchTreeAt key h ⟨h, t.addr⟩) (cells none (ctx.plug t)) r
        (cells none (ctx.plug t)) := by
  have there := (above_cells (ctx.plug t) ctx.off).node le_rfl (Nat.le_add_right _ _)
  obtain ⟨a, body, rfl⟩ := t.exists_node
  obtain ⟨kv, found, run⟩ | ⟨left, c, right, rfl, inner, run⟩ := searchNode_spec ctx body there
  · refine ⟨_, found, ?_⟩
    cases h with
    | zero => exact run
    | succ h => exact run.bind (gives_pure _)
  cases h with
  | zero => exact ⟨_, .goDown ctx a left c right (between.append inner), run⟩
  | succ h =>
    obtain ⟨r, located, goes⟩ := searchTreeAt_spec (ctx.step a left right) c (between.step inner)
    refine ⟨r, located, run.bind ((gives_descend c.addr there ?_).bind goes)⟩
    simp
termination_by h

/-- Once a key is not above one of the pairs, it is below all later ones. -/
def Cuts (key : K → Ordering) (kvs : List (K × V)) : Prop :=
  kvs.Pairwise fun x y => key x.1 ≠ .gt → key y.1 = .lt

lemma Cuts.above {e : K × V} (cuts : Cuts key (front ++ e :: back)) (notLt : key e.1 ≠ .lt) :
    ∀ x ∈ front, key x.1 = .gt := by
  obtain ⟨-, -, across⟩ := pairwise_append.mp cuts
  intro x hx
  by_contra notGt
  exact notLt (across x hx e mem_cons_self notGt)

lemma Between.forall (between : Between key front back) (cuts : Cuts key (front ++ back)) :
    (∀ x ∈ front, key x.1 = .gt) ∧ ∀ x ∈ back, key x.1 = .lt := by
  obtain ⟨last, first⟩ := between
  constructor
  · rcases eq_nil_or_concat' front with rfl | ⟨front, e, rfl⟩
    · simp
    · have above : key e.1 = .gt := last e (by simp)
      rw [append_assoc] at cuts
      simpa [above, or_imp, forall_and] using cuts.above (by simp [above])
  · cases back with
    | nil => simp
    | cons e back =>
      have below : key e.1 = .lt := first e rfl
      obtain ⟨-, later, -⟩ := pairwise_append.mp cuts
      exact forall_mem_cons.mpr ⟨below, fun x hx => rel_of_pairwise_cons later hx (by simp [below])⟩

end BTree
