import BpfSysroot.BTreeInsert
import BpfSysroot.BTreeIntoIter

/-!
# Maps as sorted lists of pairs

Looking up, inserting and iterating do on a `BTreeMap` what they do on the list of its pairs, in
every run of calls, and keep the map well formed.
-/

namespace BTree

open CellHeap Alternation BTree.Tree List

variable {K V : Type} {H : Nat} {m : BTreeMap} {c : Cells (Node K V)}
  {kvs front back : List (K × V)}

section
variable {key : K → Ordering}

lemma searchTree_spec (key : K → Ordering) (T : Tree (K × V) (H + 1)) : ∃ r, Located key T r ∧
    Gives (searchTree key ⟨H, T.addr⟩) (cells none T) r (cells none T) :=
  searchTreeAt_spec Ctx.top T (by simp [Between, Ctx.lefts, Ctx.rights])

/-- The pair with an equal key. -/
def find (key : K → Ordering) (kvs : List (K × V)) : Option (K × V) :=
  kvs.find? fun x => key x.1 == .eq

lemma find_eq {e : K × V} (cuts : Cuts key (front ++ e :: back)) (equal : key e.1 = .eq) :
    find key (front ++ e :: back) = some e := by
  have none : front.find? (fun x => key x.1 == .eq) = none := by
    simp +contextual [cuts.above (e := e) (by simp [equal])]
  simp [find, none, equal]

lemma find_none (above : ∀ x ∈ front, key x.1 = .gt) (below : ∀ x ∈ back, key x.1 = .lt) :
    find key (front ++ back) = none := by
  rw [find, find?_eq_none]
  intro x hx
  rcases mem_append.mp hx with hx | hx
  · simp [above x hx]
  · simp [below x hx]

lemma holds_some {a length : Nat} : Holds ⟨some ⟨H, a⟩, length⟩ c kvs ↔
    ∃ T : Tree (K × V) (H + 1), a = T.addr ∧ c = cells none T ∧ Sized (rootLeast H) T ∧
      T.entries = kvs := Iff.rfl

lemma getKeyValue_spec (holds : Holds m c kvs) (cuts : Cuts key kvs) :
    Gives (m.getKeyValue key) c (find key kvs) c := by
  obtain ⟨_ | ⟨H, a⟩, length⟩ := m
  · obtain ⟨rfl, rfl⟩ := holds
    exact gives_pure _
  · obtain ⟨T, rfl, rfl, sized, rfl⟩ := holds_some.mp holds
    obtain ⟨r, located, run⟩ := searchTree_spec key T
    cases located with
    | @found _ _ i _ at_ equal =>
      obtain ⟨front, back, split, -⟩ := at_.entries
      rw [split] at cuts ⊢
      rw [find_eq cuts equal]
      exact run.bind ((at_.gives_intoKv (above_cells T i) le_rfl (Nat.le_succ i)).bind
        (gives_pure _))
    | goDown ctx a left c right between =>
      rw [entries_focus] at cuts ⊢
      rw [find_none (between.forall cuts).1 (between.forall cuts).2]
      exact run.bind (gives_pure _)

end

/-- The list with a new pair, or with the value of an equal key replaced. -/
def put (cmp : K → K → Ordering) (key : K) (value : V) : List (K × V) → List (K × V)
  | [] => [(key, value)]
  | x :: rest =>
    match cmp key x.1 with
    | .lt => (key, value) :: x :: rest
    | .eq => (x.1, value) :: rest
    | .gt => x :: put cmp key value rest

section
variable {cmp : K → K → Ordering} {key : K} {value : V}

lemma put_append (above : ∀ x ∈ front, cmp key x.1 = .gt) :
    put cmp key value (front ++ back) = front ++ put cmp key value back := by
  induction front with
  | nil => rfl
  | cons x front ih =>
    obtain ⟨first, above⟩ := forall_mem_cons.mp above
    rw [cons_append, put, first]
    exact congrArg (x :: ·) (ih above)

lemma put_of_lt (below : ∀ x ∈ back, cmp key x.1 = .lt) :
    put cmp key value back = (key, value) :: back := by
  cases back with
  | nil => rfl
  | cons x back => rw [put, below x mem_cons_self]

lemma ends_ensureIsOwned {B : Type} {k : NodeRef → Code K V B} {R : B → Cells (Node K V) → Prop}
    (holds : Holds m c kvs) (hk : ∀ (H : Nat) (T : Tree (K × V) (H + 1)), Sized (rootLeast H) T →
      T.entries = kvs → Ends (k ⟨H, T.addr⟩) (cells none T) R) :
    Ends (m.ensureIsOwned >>= k) c R := by
  obtain ⟨_ | ⟨H, a⟩, length⟩ := m
  · obtain ⟨rfl, rfl⟩ := holds
    apply ends_newLeaf
    intro a
    exact hk 0 (leaf a []) (sized_leaf.mpr ⟨Nat.zero_le _, Nat.zero_le _⟩) (entries_leaf a [])
  · obtain ⟨T, rfl, rfl, sized, entries⟩ := holds_some.mp holds
    exact (gives_pure _).bind (hk H T sized entries)

lemma vacantInsert_spec {edge : Handle} {a length : Nat}
    (inserts : Ends (insertRecursing edge (key, value)) c
      (fun r => Inserted (h := H) Ctx.top a kvs r.1)) :
    Ends (BTreeMap.vacantInsert ⟨some ⟨H, a⟩, length⟩ edge key value) c
      (fun r c => r.2.length = length + 1 ∧ Holds r.2 c kvs) := by
  apply inserts.bind
  rintro ⟨_ | s, ptr⟩ c
  · rintro ⟨T, addr, rfl, sized, entries⟩
    rw [Ctx.fill_top] at entries
    exact ends_pure ⟨rfl, holds_some.mpr ⟨T, addr.symm, rfl, sized, entries⟩⟩
  · rintro ⟨l, r, rfl, same, rfl, sizedL, sizedR, entries⟩
    have right : s.right = ⟨H, r.addr⟩ := congrArg SplitResult.right same
    simp only [right]
    apply (gives_need _).bind
    apply ends_pushInternalLevel
    intro root
    rw [Ctx.cells, add_zero]
    apply (gives_push r (by simp [capacity, b])).bind
    refine ends_pure ⟨rfl, holds_some.mpr ⟨_, rfl, rfl, ?_, ?_⟩⟩
    · refine ⟨le_rfl, (by decide : 1 ≤ capacity), ?_⟩
      simp [sizedL, sizedR]
    · rw [← entries, entries_node, weave_join]
      simp [weave]

variable [Std.TransCmp cmp]

lemma Ascends.cuts (ascends : Ascends cmp kvs) (key : K) : Cuts (cmp key) kvs :=
  ascends.imp fun lt notGt =>
    Std.TransCmp.lt_of_isLE_of_lt (Ordering.isLE_iff_ne_gt.mpr notGt) lt

lemma Ascends.insert (ascends : Ascends cmp (front ++ back))
    (above : ∀ x ∈ front, cmp key x.1 = .gt)
    (below : ∀ x ∈ back, cmp key x.1 = .lt) : Ascends cmp (front ++ (key, value) :: back) := by
  obtain ⟨first, second, across⟩ := pairwise_append.mp ascends
  refine pairwise_append.mpr ⟨first, pairwise_cons.mpr ⟨below, second⟩, fun x hx => ?_⟩
  exact forall_mem_cons.mpr ⟨Std.OrientedCmp.lt_of_gt (above x hx), across x hx⟩

lemma insert_spec (formed : WellFormed cmp m c kvs) (key : K) (value : V) :
    Ends (m.insert cmp key value) c (fun r c => r.1 = (find (cmp key) kvs).map Prod.snd ∧
      WellFormed cmp r.2 c (put cmp key value kvs)) := by
  obtain ⟨holds, length, ascends⟩ := formed
  unfold BTreeMap.insert BTreeMap.entry
  rw [bind_assoc]
  apply ends_ensureIsOwned holds
  rintro H T sized rfl
  rw [bind_assoc]
  obtain ⟨r, located, run⟩ := searchTree_spec (cmp key) T
  have cuts := ascends.cuts key
  apply run.bind
  cases located with
  | @found _ kv i e at_ equal =>
    obtain ⟨T', addr, sized', ⟨front, back, split, entries⟩, replaced⟩ :=
      at_.gives_replaceKv sized (e.1, value)
    rw [split] at cuts length ascends ⊢
    rw [put_append (cuts.above (by simp [equal])), put, equal]
    have old : Gives (BTreeMap.occupiedInsert kv value) (cells none T) e.2 (cells none T') :=
      (at_.gives_intoKv (above_cells T i) le_rfl (Nat.le_succ i)).bind
        (replaced.bind (gives_pure _))
    rw [pure_bind]
    apply old.bind
    refine ends_pure ⟨by rw [find_eq cuts equal]; rfl, ?_, by simp [length], ?_⟩
    · exact holds_some.mpr ⟨T', addr.symm, rfl, sized', entries⟩
    · simpa [Ascends, pairwise_append] using ascends
  | goDown ctx a left t right between =>
    rw [entries_focus] at cuts length ascends ⊢
    obtain ⟨above, below⟩ := between.forall cuts
    rw [put_append above, put_of_lt below]
    rw [pure_bind, ctx.addr_plug]
    apply (vacantInsert_spec (insertRecursing_spec sized)).bind
    rintro ⟨_, m'⟩ c ⟨length', holds'⟩
    refine ends_pure ⟨by rw [find_none above below]; rfl, ?_, ?_, ascends.insert above below⟩
    · simpa [Ctx.fill] using holds'
    · rw [length', length]
      simp
      omega

end

inductive Call (K V : Type)
  | insert (key : K) (value : V)
  | getKeyValue (key : K)

inductive Answer (K V : Type)
  | old (value : Option V)
  | found (kv : Option (K × V))

section
variable (cmp : K → K → Ordering)

def BTreeMap.call (m : BTreeMap) : Call K V → Code K V (Answer K V × BTreeMap)
  | .insert key value => do
    let (old, m) ← m.insert cmp key value
    return (.old old, m)
  | .getKeyValue key => do
    return (.found (← m.getKeyValue (cmp key)), m)

def BTreeMap.run : BTreeMap → List (Call K V) → Code K V (List (Answer K V) × BTreeMap)
  | m, [] => return ([], m)
  | m, call :: calls => do
    let (answer, m) ← m.call cmp call
    let (answers, m) ← m.run calls
    return (answer :: answers, m)

def callList (kvs : List (K × V)) : Call K V → Answer K V × List (K × V)
  | .insert key value => (.old ((find (cmp key) kvs).map Prod.snd), put cmp key value kvs)
  | .getKeyValue key => (.found (find (cmp key) kvs), kvs)

def runList : List (K × V) → List (Call K V) → List (Answer K V) × List (K × V)
  | kvs, [] => ([], kvs)
  | kvs, call :: calls =>
    let (answer, kvs) := callList cmp kvs call
    let (answers, kvs) := runList kvs calls
    (answer :: answers, kvs)

variable (calls : List (Call K V)) (script : List Bool)

/-- A map that is used, then iterated from both ends, and dropped: also what the drop gives up. -/
def life : Code K V (List (Answer K V) × List (Option (K × V)) × List (K × V)) := do
  let (answers, m) ← BTreeMap.new.run cmp calls
  return (answers, ← iterateThenDrop m script)

open DoubleEnded in
def lifeList : List (Answer K V) × List (Option (K × V)) × List (K × V) :=
  let (answers, kvs) := runList cmp [] calls
  (answers, replies (script.map ofEnd) kvs, rest (script.map ofEnd) kvs)

variable {cmp} [Std.TransCmp cmp] {m : BTreeMap}

lemma call_spec (formed : WellFormed cmp m c kvs) (call : Call K V) :
    Ends (m.call cmp call) c (fun r c => r.1 = (callList cmp kvs call).1 ∧
      WellFormed cmp r.2 c (callList cmp kvs call).2) := by
  cases call with
  | insert key value =>
    apply (insert_spec formed key value).bind
    rintro ⟨_, m⟩ c ⟨rfl, formed⟩
    exact ends_pure ⟨rfl, formed⟩
  | getKeyValue key =>
    apply (getKeyValue_spec formed.holds (formed.ascends.cuts key)).bind
    exact ends_pure ⟨rfl, formed⟩

lemma run_spec (formed : WellFormed cmp m c kvs) :
    Ends (m.run cmp calls) c (fun r c => r.1 = (runList cmp kvs calls).1 ∧
      WellFormed cmp r.2 c (runList cmp kvs calls).2) := by
  induction calls generalizing m c kvs with
  | nil => exact ends_pure ⟨rfl, formed⟩
  | cons call calls ih =>
    apply (call_spec formed call).bind
    rintro ⟨_, m⟩ c ⟨rfl, formed⟩
    apply (ih formed).bind
    rintro ⟨_, m⟩ c ⟨rfl, formed⟩
    exact ends_pure ⟨rfl, formed⟩

lemma exactly_empty : Exactly (.empty : Heap (Node K V)) (0 + 0) :=
  ⟨Multiset.nodup_zero, by simp [Heap.empty], by simp⟩

variable (cmp)

lemma run_new_spec : Ends (BTreeMap.new.run cmp calls) 0 (fun r c =>
    r.1 = (runList cmp [] calls).1 ∧ WellFormed cmp r.2 c (runList cmp [] calls).2) :=
  run_spec (m := .new) calls ⟨⟨rfl, rfl⟩, rfl, Pairwise.nil⟩

/-- Every run of calls on a new map returns, with the answers of the list, and the heap then
consists of the nodes of a well-formed map with the pairs of the list. -/
theorem runs_refine_lists :
    ∃ m heap c, BTreeMap.new.run cmp calls .empty = .ok (((runList cmp [] calls).1, m), heap) ∧
      Exactly heap c ∧ WellFormed cmp m c (runList cmp [] calls).2 := by
  obtain ⟨⟨_, m⟩, heap, c, run, exactly, rfl, formed⟩ :=
    run_new_spec cmp calls .empty 0 exactly_empty
  exact ⟨m, heap, c, run, by simpa using exactly, formed⟩

/-- Twelve insertions cut the root, and the last one replaces a value. -/
theorem runs_refine_lists_cut :
    ∃ m heap c, BTreeMap.new.run compare
        ((range 12).map (fun n => .insert n n) ++ [.insert 3 0, .getKeyValue 3]) .empty =
        .ok ((replicate 12 (.old none) ++ [.old (some 3), .found (some (3, 0))], m), heap) ∧
      Exactly heap c ∧ WellFormed compare m c
        ((range 12).map fun n => if n = 3 then (3, 0) else (n, n)) :=
  runs_refine_lists compare _

/-- Every life of a map returns what the list gives, and no node stays in the heap. -/
theorem lives_free_all_nodes :
    ∃ heap, life cmp calls script .empty = .ok (lifeList cmp calls script, heap) ∧
      ∀ a, heap.cell a = none := by
  have whole : Gives (life cmp calls script) 0 (lifeList cmp calls script) 0 := by
    apply (run_new_spec cmp calls).bind
    rintro ⟨_, m⟩ c ⟨rfl, formed⟩
    exact (iterateThenDrop_spec script formed).bind (gives_pure _)
  obtain ⟨_, heap, _, run, exactly, rfl, rfl⟩ := whole .empty 0 exactly_empty
  refine ⟨heap, run, fun a => Option.eq_none_iff_forall_ne_some.mpr fun n there => ?_⟩
  simpa using (exactly.mem_iff a n).mpr there

/-- The first pair, the last one, and the ten in between. -/
theorem lives_free_all_nodes_cut :
    ∃ heap, life compare ((range 12).map fun n => .insert n n) [true, false] .empty =
        .ok ((replicate 12 (.old none), [some (0, 0), some (11, 11)],
          (range 10).map fun n => (n + 1, n + 1)), heap) ∧ ∀ a, heap.cell a = none :=
  lives_free_all_nodes compare _ _

end

end BTree
