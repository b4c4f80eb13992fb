import BpfSysroot.BinaryHeap

/-!
# Runs of `BinaryHeap` operations against bags

Several heaps may be in play, since `append` moves the contents of one into
another. The bag machine says what each call is for, on multisets: it fixes
neither which of several greatest elements is returned nor the order in which
`retain` visits the elements. Every run of the heap model returns, keeps all
heaps ordered, and is a run of the bag machine.
-/

namespace BinaryHeapRuns

open BinaryHeap List
open Multiset (coe_eq_coe mem_coe)

variable {T S : Type}

/-- Calls on one heap. An edit list is what is written through a `PeekMut`. -/
inductive Call (T S : Type)
  | push (item : T)
  | pop
  | peek
  | peekMut (edits : List (T → T))
  | peekMutPop (edits : List (T → T))
  | extend (items : List T)
  | retain (f : S → T → Bool × S) (s : S)

/-- Calls that create, join or consume heaps. -/
inductive Op (T S : Type)
  | new
  | fromVec (vec : List T)
  | on (i : Nat) (call : Call T S)
  | append (i j : Nat)
  | intoSortedVec (i : Nat)

inductive Out (T : Type)
  | unit
  | item (x : Option T)
  | vec (v : List T)

def PeekMut.edits (guard : PeekMut T) (fs : List (T → T)) : PeekMut T :=
  fs.foldl PeekMut.edit guard

section
variable (cmp : T → T → Ordering)

def call (data : List T) : Call T S → Option (Out T × List T)
  | .push item => do
    let data ← push cmp data item
    some (.unit, data)
  | .pop => do
    let r ← pop cmp data
    some (.item r.1, r.2)
  | .peek => some (.item (peek data), data)
  | .peekMut fs =>
    match peekMut data with
    | none => some (.unit, data)
    | some guard => do
      let data ← (PeekMut.edits guard fs).drop cmp
      some (.unit, data)
  | .peekMutPop fs =>
    match peekMut data with
    | none => some (.item none, data)
    | some guard => do
      let r ← (PeekMut.edits guard fs).pop cmp
      some (.item (some r.1), r.2)
  | .extend items => do
    let data ← extend cmp data items
    some (.unit, data)
  | .retain f s => do
    let data ← retain cmp f s data
    some (.unit, data)

/-- A call on a heap that is not there cannot be written; it does nothing here. -/
def step (pool : List (List T)) : Op T S → Option (Out T × List (List T))
  | .new => some (.unit, pool ++ [[]])
  | .fromVec vec => do
    let data ← fromVec cmp vec
    some (.unit, pool ++ [data])
  | .on i c =>
    match pool[i]? with
    | none => some (.unit, pool)
    | some data => do
      let r ← call cmp data c
      some (r.1, pool.set i r.2)
  | .append i j =>
    match pool[i]?, pool[j]? with
    | some self, some other =>
      if i = j then
        some (.unit, pool)
      else do
        let r ← append cmp self other
        some (.unit, (pool.set i r.1).set j r.2)
    | _, _ => some (.unit, pool)
  | .intoSortedVec i =>
    match pool[i]? with
    | none => some (.unit, pool)
    | some data => do
      let v ← intoSortedVec cmp data
      some (.vec v, pool.eraseIdx i)

def run : List (List T) → List (Op T S) → Option (List (Out T) × List (List T))
  | pool, [] => some ([], pool)
  | pool, op :: ops => do
    let r ← step cmp pool op
    let rest ← run r.2 ops
    some (r.1 :: rest.1, rest.2)

end

section
variable (cmp : T → T → Ordering)

/-- `m` is a greatest element of the bag and `rest` is the bag without it. -/
def TakesMax (bag : Multiset T) (m : T) (rest : Multiset T) : Prop :=
  bag = m ::ₘ rest ∧ ∀ x ∈ bag, Le cmp x m

inductive BagCall : Multiset T → Call T S → Out T → Multiset T → Prop
  | push (bag item) : BagCall bag (.push item) .unit (item ::ₘ bag)
  | popNone : BagCall 0 .pop (.item none) 0
  | pop {bag m rest} (top : TakesMax cmp bag m rest) : BagCall bag .pop (.item (some m)) rest
  | peekNone : BagCall 0 .peek (.item none) 0
  | peek {bag m rest} (top : TakesMax cmp bag m rest) : BagCall bag .peek (.item (some m)) bag
  | peekMutNone (fs) : BagCall 0 (.peekMut fs) .unit 0
  | peekMut {bag m rest} (fs) (top : TakesMax cmp bag m rest) :
      BagCall bag (.peekMut fs) .unit (fs.foldl (fun x f => f x) m ::ₘ rest)
  | peekMutPopNone (fs) : BagCall 0 (.peekMutPop fs) (.item none) 0
  | peekMutPop {bag m rest} (fs) (top : TakesMax cmp bag m rest) :
      BagCall bag (.peekMutPop fs) (.item (some (fs.foldl (fun x f => f x) m))) rest
  | extend (bag) (items : List T) : BagCall bag (.extend items) .unit (bag + items)
  | retain (f s) (visited : List T) :
      BagCall visited (.retain f s) .unit (retainVec f s visited)

inductive BagStep : List (Multiset T) → Op T S → Out T → List (Multiset T) → Prop
  | new (bags) : BagStep bags .new .unit (bags ++ [0])
  | fromVec (bags) (vec : List T) :
      BagStep bags (.fromVec vec) .unit (bags ++ [(vec : Multiset T)])
  | onNone {bags i} (c) (none : bags[i]? = none) : BagStep bags (.on i c) .unit bags
  | on {bags i bag c out bag'} (some : bags[i]? = some bag) (call : BagCall cmp bag c out bag') :
      BagStep bags (.on i c) out (bags.set i bag')
  | appendNone {bags i j} (none : bags[i]? = none ∨ bags[j]? = none ∨ i = j) :
      BagStep bags (.append i j) .unit bags
  | append {bags i j a b} (hi : bags[i]? = some a) (hj : bags[j]? = some b) (hij : i ≠ j) :
      BagStep bags (.append i j) .unit ((bags.set i (a + b)).set j 0)
  | intoSortedVecNone {bags i} (none : bags[i]? = none) :
      BagStep bags (.intoSortedVec i) .unit bags
  | intoSortedVec {bags i} {v : List T} (hi : bags[i]? = some ↑v)
      (ascending : v.Pairwise (Le cmp)) :
      BagStep bags (.intoSortedVec i) (.vec v) (bags.eraseIdx i)

inductive BagRun : List (Multiset T) → List (Op T S) → List (Out T) → List (Multiset T) → Prop
  | nil (bags) : BagRun bags [] [] bags
  | cons {bags op out mid ops outs final} (step : BagStep cmp bags op out mid)
      (rest : BagRun mid ops outs final) : BagRun bags (op :: ops) (out :: outs) final

end

def bag (data : List T) : Multiset T := data

section
variable (cmp : T → T → Ordering)

lemma heapOrdered_nil : HeapOrdered cmp ([] : List T) := by
  intro i x y hi hx
  simp at hx

variable [Std.TransCmp cmp]

lemma takesMax_head {root : T} {rest : List T} (h : HeapOrdered cmp (root :: rest)) :
    TakesMax cmp (bag (root :: rest)) root (bag rest) :=
  ⟨rfl, fun x hx => h.le_head cmp x (mem_coe.mp hx)⟩

/-- Writing through the guard changes the root only, and marks the guard. -/
lemma edits_eq (root : T) (rest : List T) (fs : List (T → T)) (sift : Bool) :
    PeekMut.edits ⟨root :: rest, sift⟩ fs =
      ⟨fs.foldl (fun x f => f x) root :: rest, sift || !fs.isEmpty⟩ := by
  induction fs generalizing root sift with
  | nil => simp [PeekMut.edits]
  | cons f fs ih => simpa [PeekMut.edits, PeekMut.edit] using ih (f root) true

lemma call_refines {data : List T} (h : HeapOrdered cmp data) (c : Call T S) :
    ∃ out data', call cmp data c = some (out, data') ∧ HeapOrdered cmp data' ∧
      BagCall cmp (bag data) c out (bag data') := by
  cases c with
  | push item =>
    obtain ⟨data', hrun, hord, hperm⟩ := push_spec cmp h item
    refine ⟨.unit, data', by simp [call, hrun], hord, ?_⟩
    rw [show bag data' = item ::ₘ bag data from coe_eq_coe.mpr hperm]
    exact .push _ _
  | pop =>
    cases data with
    | nil => exact ⟨.item none, [], by simp [call, pop], h, .popNone⟩
    | cons root rest =>
      obtain ⟨data', hrun, hord, hperm⟩ := pop_spec cmp (x := root) h
      refine ⟨.item (some root), data', by simp [call, hrun], hord, ?_⟩
      rw [show bag data' = bag rest from coe_eq_coe.mpr hperm]
      exact .pop (takesMax_head cmp h)
  | peek =>
    cases data with
    | nil => exact ⟨.item none, [], by simp [call, peek], h, .peekNone⟩
    | cons root rest =>
      exact ⟨.item (some root), root :: rest, by simp [call, peek], h, .peek (takesMax_head cmp h)⟩
  | peekMut fs =>
    cases data with
    | nil => exact ⟨.unit, [], by simp [call, peekMut], h, .peekMutNone fs⟩
    | cons root rest =>
      have hguard : call cmp (root :: rest) (Call.peekMut fs : Call T S) =
          ((PeekMut.edits ⟨root :: rest, false⟩ fs).drop cmp).map fun d => (.unit, d) := by
        simp [call, peekMut, Option.map_eq_bind]
      rw [hguard, edits_eq]
      cases fs with
      | nil =>
        exact ⟨.unit, root :: rest, by simp [PeekMut.drop], h, .peekMut [] (takesMax_head cmp h)⟩
      | cons f fs =>
        obtain ⟨data', hrun, hord, hperm⟩ := siftDown_root_spec cmp h
        refine ⟨.unit, data', ?_, hord, ?_⟩
        · simpa [PeekMut.drop] using hrun
        · rw [show bag data' = _ ::ₘ bag rest from coe_eq_coe.mpr hperm]
          exact .peekMut _ (takesMax_head cmp h)
  | peekMutPop fs =>
    cases data with
    | nil => exact ⟨.item none, [], by simp [call, peekMut], h, .peekMutPopNone fs⟩
    | cons root rest =>
      obtain ⟨data', hrun, hord, hperm⟩ := pop_spec cmp (x := fs.foldl (fun x f => f x) root) h
      refine ⟨.item (some (fs.foldl (fun x f => f x) root)), data', ?_, hord, ?_⟩
      · simp [call, peekMut, edits_eq, PeekMut.pop, PeekMut.drop, hrun]
      · rw [show bag data' = bag rest from coe_eq_coe.mpr hperm]
        exact .peekMutPop fs (takesMax_head cmp h)
  | extend items =>
    obtain ⟨data', hrun, hord, hperm⟩ := extend_spec cmp h items
    refine ⟨.unit, data', by simp [call, hrun], hord, ?_⟩
    rw [show bag data' = bag data + items from coe_eq_coe.mpr hperm]
    exact .extend _ items
  | retain f s =>
    obtain ⟨data', hrun, hord, hperm⟩ := rebuild_spec cmp (retainVec f s data)
    refine ⟨.unit, data', by simp [call, retain, hrun], hord, ?_⟩
    rw [show bag data' = retainVec f s data from coe_eq_coe.mpr hperm]
    exact .retain f s data

/-- The invariant of a run: all heaps in play are ordered. -/
def PoolOrdered (pool : List (List T)) : Prop := ∀ data ∈ pool, HeapOrdered cmp data

omit [Std.TransCmp cmp] in
lemma PoolOrdered.set {pool : List (List T)} (h : PoolOrdered cmp pool) {data : List T}
    (hd : HeapOrdered cmp data) (i : Nat) : PoolOrdered cmp (pool.set i data) := by
  intro x hx
  rcases mem_or_eq_of_mem_set hx with hx | rfl
  · exact h x hx
  · exact hd

omit [Std.TransCmp cmp] in
lemma PoolOrdered.append {pool : List (List T)} (h : PoolOrdered cmp pool) {data : List T}
    (hd : HeapOrdered cmp data) : PoolOrdered cmp (pool ++ [data]) := by
  intro x hx
  rcases mem_append.mp hx with hx | hx
  · exact h x hx
  · exact (mem_singleton.mp hx) ▸ hd

lemma step_refines {pool : List (List T)} (h : PoolOrdered cmp pool) (op : Op T S) :
    ∃ out pool', step cmp pool op = some (out, pool') ∧ PoolOrdered cmp pool' ∧
      BagStep cmp (pool.map bag) op out (pool'.map bag) := by
  cases op with
  | new =>
    refine ⟨.unit, pool ++ [[]], rfl, h.append cmp (heapOrdered_nil cmp), ?_⟩
    rw [map_append]
    exact .new _
  | fromVec vec =>
    obtain ⟨data, hrun, hord, hperm⟩ := rebuild_spec cmp vec
    refine ⟨.unit, pool ++ [data], by simp [step, fromVec, hrun], h.append cmp hord, ?_⟩
    have hbag : bag data = vec := coe_eq_coe.mpr hperm
    rw [map_append, map_singleton, hbag]
    exact .fromVec _ vec
  | on i c =>
    cases hi : pool[i]? with
    | none => exact ⟨.unit, pool, by simp [step, hi], h, .onNone c (by simpa using hi)⟩
    | some data =>
      obtain ⟨out, data', hrun, hord, hcall⟩ := call_refines cmp (h data (mem_of_getElem? hi)) c
      refine ⟨out, pool.set i data', by simp [step, hi, hrun], h.set cmp hord i, ?_⟩
      rw [map_set]
      exact .on (by simp [hi]) hcall
  | append i j =>
    cases hi : pool[i]? with
    | none => exact ⟨.unit, pool, by simp [step, hi], h, .appendNone (by simp [hi])⟩
    | some self =>
      cases hj : pool[j]? with
      | none => exact ⟨.unit, pool, by simp [step, hi, hj], h, .appendNone (by simp [hj])⟩
      | some other =>
        by_cases hij : i = j
        · exact ⟨.unit, pool, by simp [step, hj, hij], h, .appendNone (by simp [hij])⟩
        · obtain ⟨data, hrun, hord, hperm⟩ := append_spec cmp
            (h self (mem_of_getElem? hi)) (h other (mem_of_getElem? hj))
          refine ⟨.unit, (pool.set i data).set j [], by simp [step, hi, hj, hij, hrun],
            (h.set cmp hord i).set cmp (heapOrdered_nil cmp) j, ?_⟩
          have hbag : bag data = bag self + bag other := coe_eq_coe.mpr hperm
          rw [map_set, map_set, hbag]
          exact .append (by simp [hi]) (by simp [hj]) hij
  | intoSortedVec i =>
    cases hi : pool[i]? with
    | none => exact ⟨.unit, pool, by simp [step, hi], h, .intoSortedVecNone (by simpa using hi)⟩
    | some data =>
      obtain ⟨v, hrun, hperm, hsorted⟩ := intoSortedVec_spec cmp (h data (mem_of_getElem? hi))
      refine ⟨.vec v, pool.eraseIdx i, by simp [step, hi, hrun],
        fun x hx => h x (mem_of_mem_eraseIdx hx), ?_⟩
      have hbag : bag data = v := coe_eq_coe.mpr hperm.symm
      rw [← eraseIdx_map]
      exact .intoSortedVec (by simp [hi, hbag]) hsorted

lemma run_refines_from {pool : List (List T)} (h : PoolOrdered cmp pool) (ops : List (Op T S)) :
    ∃ outs pool', run cmp pool ops = some (outs, pool') ∧ PoolOrdered cmp pool' ∧
      BagRun cmp (pool.map bag) ops outs (pool'.map bag) := by
  induction ops generalizing pool with
  | nil => exact ⟨[], pool, rfl, h, .nil _⟩
  | cons op ops ih =>
    obtain ⟨out, mid, hstep, hmid, hbag⟩ := step_refines cmp h op
    obtain ⟨outs, final, hrun, hfinal, hbags⟩ := ih hmid
    exact ⟨out :: outs, final, by simp [run, hstep, hrun], hfinal, .cons hbag hbags⟩

/-- Every run from no heaps at all returns, leaves every heap ordered, and is a
run of the bag machine with the same results. -/
theorem run_refines_bags (ops : List (Op T S)) :
    ∃ outs pool, run cmp [] ops = some (outs, pool) ∧
      (∀ data ∈ pool, HeapOrdered cmp data) ∧
      BagRun cmp [] ops outs (pool.map bag) := by
  have start : PoolOrdered cmp ([] : List (List T)) := by
    intro data hd
    simp at hd
  exact run_refines_from cmp start ops

end

private def sampleOps : List (Op Nat Unit) :=
  [.fromVec [3, 9, 4, 1], .on 0 (.peekMut [fun _ => 0]), .fromVec [7, 8], .append 0 1,
    .on 0 .pop, .intoSortedVec 0]

/-- An edit that sinks the root, an append and a final sort, under the usual order. -/
theorem run_refines_bags_nat :
    ∃ outs pool, run compare [] sampleOps = some (outs, pool) ∧
      (∀ data ∈ pool, HeapOrdered compare data) ∧
      BagRun compare [] sampleOps outs (pool.map bag) :=
  run_refines_bags compare sampleOps

end BinaryHeapRuns
