import BpfSysroot.DoubleEnded

/-!
# The components of a path

`Components` of `std/src/path.rs` with the rules of this target (`sys/bpf/path.rs`,
the same as on Unix): `/` is the only separator and no path has a prefix, so that
`prefix_len` is 0 and no prefix is verbatim. A path is a list of bytes. Failing
slice indexing and `unreachable!` have no result. The iterator is compared with
the list `listed` of the components, which is stated on the pieces between the
separators alone.
-/

namespace PathComponents

open DoubleEnded List Option

inductive Component where
  | rootDir
  | curDir
  | parentDir
  | normal (name : List UInt8)
  deriving DecidableEq, Repr

/-- How far each end of the iterator has come. -/
inductive State where
  | prefixDir
  | startDir
  | body
  | done
  deriving DecidableEq, Repr

def State.rank : State → Nat
  | prefixDir => 0
  | startDir => 1
  | body => 2
  | done => 3

def isSepByte (b : UInt8) : Bool := b == 47

/-- Also `has_root`, as there is no implicit root without a prefix. -/
def hasPhysicalRoot : List UInt8 → Bool
  | [] => false
  | b :: _ => isSepByte b

/-- A piece between separators. The first `.` of a path is treated by `includeCurDir`. -/
def parseSingleComponent (comp : List UInt8) : Option Component :=
  if comp = [46] then none
  else if comp = [46, 46] then some .parentDir
  else if comp = [] then none
  else some (.normal comp)

structure Components where
  path : List UInt8
  hasPhysicalRoot : Bool
  front : State
  back : State
  deriving DecidableEq, Repr

/-- What one round of the loop of `next` or `next_back` does. -/
inductive Round where
  | again (s : Components)
  | give (answer : Option Component) (s : Components)

/-- The index of the last separator. -/
def rposition (path : List UInt8) : Option Nat :=
  (path.reverse.findIdx? isSepByte).map (path.length - 1 - ·)

namespace Components

def finished (s : Components) : Bool :=
  s.front == .done || s.back == .done || s.back.rank < s.front.rank

def includeCurDir (s : Components) : Bool :=
  if s.hasPhysicalRoot then false
  else match s.path with
    | [46] => true
    | 46 :: b :: _ => isSepByte b
    | _ => false

/-- The bytes before the body that are left. -/
def lenBeforeBody (s : Components) : Nat :=
  let root := if s.front.rank ≤ State.startDir.rank ∧ s.hasPhysicalRoot then 1 else 0
  let curDir := if s.front.rank ≤ State.startDir.rank ∧ s.includeCurDir then 1 else 0
  root + curDir

def parseNextComponent (s : Components) : Nat × Option Component :=
  match s.path.findIdx? isSepByte with
  | none => (s.path.length, parseSingleComponent s.path)
  | some i => ((s.path.take i).length + 1, parseSingleComponent (s.path.take i))

def parseNextComponentBack (s : Components) : Nat × Option Component :=
  let rest := s.path.drop s.lenBeforeBody
  match rposition rest with
  | none => (rest.length, parseSingleComponent rest)
  | some i => ((rest.drop (i + 1)).length + 1, parseSingleComponent (rest.drop (i + 1)))

def cutFront (s : Components) (n : Nat) : Components := { s with path := s.path.drop n }

def cutBack (s : Components) (n : Nat) : Components :=
  { s with path := s.path.take (s.path.length - n) }

lemma parseNextComponent_pos {s : Components} (some_left : s.path ≠ []) :
    0 < s.parseNextComponent.1 := by
  have positive := length_pos_of_ne_nil some_left
  rw [parseNextComponent]
  split
  · exact positive
  · exact Nat.succ_pos _

lemma parseNextComponentBack_pos {s : Components} (some_left : s.lenBeforeBody < s.path.length) :
    0 < s.parseNextComponentBack.1 := by
  rw [parseNextComponentBack]
  split
  · rw [length_drop]
    omega
  · exact Nat.succ_pos _

def trimLeft (s : Components) : Components :=
  if _h : s.path ≠ [] then
    match s.parseNextComponent.2 with
    | some _ => s
    | none => (s.cutFront s.parseNextComponent.1).trimLeft
  else s
termination_by s.path.length
decreasing_by
  have positive := parseNextComponent_pos _h
  have := length_pos_of_ne_nil _h
  simp only [cutFront, length_drop]
  omega

def trimRight (s : Components) : Components :=
  if _h : s.lenBeforeBody < s.path.length then
    match s.parseNextComponentBack.2 with
    | some _ => s
    | none => (s.cutBack s.parseNextComponentBack.1).trimRight
  else s
termination_by s.path.length
decreasing_by
  have positive := parseNextComponentBack_pos _h
  simp only [cutBack, length_take]
  omega

def asPath (s : Components) : List UInt8 :=
  let s := if s.front = .body then s.trimLeft else s
  let s := if s.back = .body then s.trimRight else s
  s.path

/-- `&self.path[1..]` and a component that was there. -/
def giveFirst (s : Components) (c : Component) : Option Round :=
  if s.path = [] then none else some (.give (some c) (s.cutFront 1))

/-- `&self.path[..self.path.len() - 1]` and a component that was there. -/
def giveLast (s : Components) (c : Component) : Option Round :=
  if s.path = [] then none else some (.give (some c) (s.cutBack 1))

def nextRound (s : Components) : Option Round :=
  match s.front with
  | .prefixDir => some (.again { s with front := .startDir })
  | .startDir =>
    let s := { s with front := .body }
    if s.hasPhysicalRoot then s.giveFirst .rootDir
    else if s.includeCurDir then s.giveFirst .curDir
    else some (.again s)
  | .body =>
    if s.path ≠ [] then
      match s.parseNextComponent with
      | (size, none) => some (.again (s.cutFront size))
      | (size, some c) => some (.give (some c) (s.cutFront size))
    else some (.again { s with front := .done })
  | .done => none

def nextBackRound (s : Components) : Option Round :=
  match s.back with
  | .body =>
    if s.lenBeforeBody < s.path.length then
      match s.parseNextComponentBack with
      | (size, none) => some (.again (s.cutBack size))
      | (size, some c) => some (.give (some c) (s.cutBack size))
    else some (.again { s with back := .startDir })
  | .startDir =>
    let s := { s with back := .prefixDir }
    if s.hasPhysicalRoot then s.giveLast .rootDir
    else if s.includeCurDir then s.giveLast .curDir
    else some (.again s)
  | .prefixDir => some (.give none { s with back := .done })
  | .done => none

/-- Every round brings the front further or takes bytes away. -/
lemma nextRound_decreases {s s' : Components} (round : s.nextRound = some (.again s')) :
    s'.path.length + (4 - s'.front.rank) < s.path.length + (4 - s.front.rank) := by
  rw [nextRound] at round
  cases front : s.front with
  | prefixDir =>
    simp only [front] at round
    cases round
    simp [State.rank]
  | startDir =>
    simp only [front, giveFirst] at round
    split_ifs at round <;> cases round
    simp [State.rank]
  | body =>
    simp only [front] at round
    split_ifs at round with nonempty
    · have positive := parseNextComponent_pos nonempty
      have := length_pos_of_ne_nil nonempty
      split at round <;> simp only [some.injEq, Round.again.injEq, reduceCtorEq] at round
      rename_i size parsed
      rw [parsed] at positive
      subst round
      simp only [cutFront, length_drop, front]
      omega
    · cases round
      simp [State.rank]
  | done => simp [front] at round

lemma nextBackRound_decreases {s s' : Components} (round : s.nextBackRound = some (.again s')) :
    s'.path.length + s'.back.rank < s.path.length + s.back.rank := by
  rw [nextBackRound] at round
  cases back : s.back with
  | prefixDir => simp [back] at round
  | startDir =>
    simp only [back, giveLast] at round
    split_ifs at round <;> cases round
    simp [State.rank]
  | body =>
    simp only [back] at round
    split_ifs at round with longer
    · have positive := parseNextComponentBack_pos longer
      split at round <;> simp only [some.injEq, Round.again.injEq, reduceCtorEq] at round
      rename_i size parsed
      rw [parsed] at positive
      subst round
      simp only [cutBack, length_take, back]
      omega
    · cases round
      simp [State.rank]
  | done => simp [back] at round

def next (s : Components) : Option (Option Component × Components) :=
  if s.finished then some (none, s)
  else match _h : s.nextRound with
    | none => none
    | some (.again s') => s'.next
    | some (.give answer s') => some (answer, s')
termination_by s.path.length + (4 - s.front.rank)
decreasing_by exact nextRound_decreases _h

def nextBack (s : Components) : Option (Option Component × Components) :=
  if s.finished then some (none, s)
  else match _h : s.nextBackRound with
    | none => none
    | some (.again s') => s'.nextBack
    | some (.give answer s') => some (answer, s')
termination_by s.path.length + s.back.rank
decreasing_by exact nextBackRound_decreases _h

/-- The calls of an iterator; `nth` and `nth_back` are those of the traits. -/
def step (s : Components) : Call → Option (Option Component × Components)
  | .next => s.next
  | .nextBack => s.nextBack
  | .nth n => nthByNext Components.next n s
  | .nthBack n => nthByNext Components.nextBack n s

end Components

/-- `Path::components`. -/
def components (path : List UInt8) : Components :=
  ⟨path, hasPhysicalRoot path, .prefixDir, .body⟩

def parent (path : List UInt8) : Option (Option (List UInt8)) := do
  let (comp, comps) ← (components path).nextBack
  match comp with
  | some (.normal _) | some .curDir | some .parentDir => some (some comps.asPath)
  | _ => some none

def fileName (path : List UInt8) : Option (Option (List UInt8)) := do
  let (comp, _) ← (components path).nextBack
  match comp with
  | some (.normal name) => some (some name)
  | _ => some none

section

/-- The components of a path: the root, or a first piece `.` of a relative path, and then the
pieces that are neither empty nor `.`. -/
def listed (path : List UInt8) : List Component :=
  let pieces := path.splitOn 47
  let start := if path.head? = some 47 then [Component.rootDir]
    else if pieces.head? = some [46] then [.curDir] else []
  let names := pieces.filter fun piece => piece ≠ [] ∧ piece ≠ [46]
  start ++ names.map fun name => if name = [46, 46] then .parentDir else .normal name

/-- The components of a body: no root and no first `.`. -/
def bodyOf (path : List UInt8) : List Component := (path.splitOn 47).filterMap parseSingleComponent

variable {path rest piece : List UInt8}

lemma bodyOf_nil : bodyOf [] = [] := rfl

lemma bodyOf_append (front back : List UInt8) :
    bodyOf (front ++ 47 :: back) = bodyOf front ++ bodyOf back := by
  rw [bodyOf, splitOn_append_cons_self, filterMap_append]
  rfl

lemma bodyOf_piece (single : 47 ∉ piece) : bodyOf piece = (parseSingleComponent piece).toList := by
  rw [bodyOf, splitOn_eq_singleton single]
  cases parsed : parseSingleComponent piece <;> simp [parsed]

/-- The bytes of a path before its body: the root, or a first `.`. -/
def leadOf : List UInt8 → List Component
  | 47 :: _ => [.rootDir]
  | [46] => [.curDir]
  | 46 :: 47 :: _ => [.curDir]
  | _ => []

attribute [elab_as_elim] leadOf.fun_cases_unfolding

variable (path : List UInt8)

lemma bodyOf_eq :
    bodyOf path = ((path.splitOn 47).filter fun piece => piece ≠ [] ∧ piece ≠ [46]).map
      fun name => if name = [46, 46] then .parentDir else .normal name := by
  rw [bodyOf]
  induction path.splitOn 47 with
  | nil => rfl
  | cons piece pieces ih =>
    by_cases dot : piece = [46]
    · simp [parseSingleComponent, dot, ih]
    · by_cases empty : piece = []
      · simp [parseSingleComponent, empty, ih]
      · by_cases up : piece = [46, 46]
        · simp [parseSingleComponent, up, ih]
        · simp [parseSingleComponent, dot, empty, up, ih]

/-- A first piece `.` shows in the first two bytes. -/
lemma head_splitOn_eq_dot_iff :
    (path.splitOn 47).head? = some [46] ↔ path = [46] ∨ ∃ rest, path = 46 :: 47 :: rest := by
  constructor
  · intro first
    by_cases single : 47 ∈ path
    · obtain ⟨piece, rest, rfl, none_before⟩ := eq_append_cons_of_mem single
      rw [splitOn_append_cons_self_of_not_mem none_before] at first
      obtain rfl : piece = [46] := by simpa using first
      exact .inr ⟨rest, rfl⟩
    · rw [splitOn_eq_singleton single] at first
      exact .inl (by simpa using first)
  · rintro (rfl | ⟨rest, rfl⟩)
    · rfl
    · rfl

lemma listed_eq : listed path = leadOf path ++ bodyOf path := by
  have dot := head_splitOn_eq_dot_iff path
  simp only [listed, ← bodyOf_eq]
  symm
  unfold leadOf
  split
  · simp
  · simp [dot]
  · simp [dot]
  next root alone first =>
    have relative : path.head? ≠ some 47 := by
      intro head
      obtain ⟨rest, rfl⟩ := head?_eq_some_iff.mp head
      exact root rest rfl
    have plain : ¬ (path.splitOn 47).head? = some [46] := by
      rw [dot]
      rintro (rfl | ⟨rest, rfl⟩)
      · exact alone rfl
      · exact first rest rfl
    rw [if_neg relative, if_neg plain]

/-- The first piece, and what is left after it and its separator. -/
lemma findIdx_spec : (path.findIdx? isSepByte = none ∧ 47 ∉ path) ∨
      ∃ piece rest, path = piece ++ 47 :: rest ∧ 47 ∉ piece ∧
        path.findIdx? isSepByte = some piece.length := by
  by_cases single : 47 ∈ path
  · obtain ⟨piece, rest, rfl, none_before⟩ := eq_append_cons_of_mem single
    have skipped : piece.findIdx? isSepByte = none := by
      rw [findIdx?_eq_none_iff]
      intro b member
      have other : b ≠ 47 := fun same => none_before (same ▸ member)
      simpa [isSepByte] using other
    refine .inr ⟨piece, rest, rfl, none_before, ?_⟩
    simp [findIdx?_append, skipped, findIdx?_cons, isSepByte]
  · refine .inl ⟨?_, single⟩
    rw [findIdx?_eq_none_iff]
    intro b member
    have other : b ≠ 47 := fun same => single (same ▸ member)
    simpa [isSepByte] using other

lemma rposition_spec : (rposition path = none ∧ 47 ∉ path) ∨
      ∃ front piece, path = front ++ 47 :: piece ∧ 47 ∉ piece ∧
        rposition path = some front.length := by
  rcases findIdx_spec path.reverse with ⟨missing, single⟩ | ⟨piece, rest, split, single, found⟩
  · exact .inl ⟨by rw [rposition, missing]; rfl, by simpa using single⟩
  · have joined : path = rest.reverse ++ 47 :: piece.reverse := by
      rw [← reverse_reverse path, split]
      simp
    refine .inr ⟨rest.reverse, piece.reverse, joined, by simpa using single, ?_⟩
    rw [rposition, found, joined]
    simp

end

section
variable {s s' : Components}

/-- One round at the front takes the first piece. -/
lemma parseNextComponent_spec (s : Components) :
    bodyOf s.path =
      s.parseNextComponent.2.toList ++ bodyOf (s.path.drop s.parseNextComponent.1) := by
  rw [Components.parseNextComponent]
  rcases findIdx_spec s.path with ⟨missing, single⟩ | ⟨piece, rest, split, single, found⟩
  · rw [missing]
    simp [bodyOf_piece single, bodyOf_nil]
  · rw [found]
    simp only
    rw [split, take_left' rfl, bodyOf_append, bodyOf_piece single,
      ← singleton_append, ← append_assoc, drop_left' (by simp)]

/-- Cutting a body at its last separator, or all of it if there is none. -/
def CutAt (body front : List UInt8) : Prop :=
  front = [] ∧ 47 ∉ body ∨ ∃ piece, body = front ++ 47 :: piece

/-- One round at the back takes the last piece of the body. -/
lemma parseNextComponentBack_spec (s : Components) (start : s.lenBeforeBody ≤ s.path.length) :
    ∃ front, CutAt (s.path.drop s.lenBeforeBody) front ∧
      (s.cutBack s.parseNextComponentBack.1).path = s.path.take s.lenBeforeBody ++ front ∧
      bodyOf (s.path.drop s.lenBeforeBody) = bodyOf front ++ s.parseNextComponentBack.2.toList := by
  rw [Components.cutBack, Components.parseNextComponentBack]
  generalize s.lenBeforeBody = k at start
  have whole : s.path.length = k + (s.path.drop k).length := by
    rw [length_drop]
    omega
  rcases rposition_spec (s.path.drop k) with
    ⟨missing, single⟩ | ⟨front, piece, split, single, found⟩
  · refine ⟨[], .inl ⟨rfl, single⟩, ?_, ?_⟩
    · have cut : s.path.length - (s.path.drop k).length = k := by omega
      rw [missing]
      rw [cut, append_nil]
    · rw [missing, bodyOf_nil, nil_append, bodyOf_piece single]
  · have last : (s.path.drop k).drop (front.length + 1) = piece := by
      rw [split, ← singleton_append, ← append_assoc, drop_left' (by simp)]
    refine ⟨front, .inr ⟨piece, split⟩, ?_, ?_⟩
    · rw [found]
      simp only [last]
      have joined : s.path = s.path.take k ++ front ++ 47 :: piece := by
        rw [append_assoc, ← split, take_append_drop]
      have cut : (s.path.take k ++ front).length = s.path.length - (piece.length + 1) := by
        rw [split, length_append, length_cons] at whole
        rw [length_append, length_take]
        omega
      exact (congrArg (List.take _) joined).trans (take_left' cut)
    · rw [found]
      simp only [last]
      rw [split, bodyOf_append, bodyOf_piece single]

lemma length_leadOf_le (path : List UInt8) : (leadOf path).length ≤ path.length := by
  unfold leadOf
  split <;> simp

/-- A cut in the body leaves what is before the body. -/
lemma leadOf_cut {path front : List UInt8} (cut : CutAt (path.drop (leadOf path).length) front) :
    leadOf (path.take (leadOf path).length ++ front) = leadOf path := by
  revert cut
  fun_cases leadOf path with
  | case1 rest => intro _; rfl
  | case2 =>
    rintro (⟨rfl, -⟩ | ⟨piece, split⟩)
    · rfl
    · simp at split
  | case3 rest =>
    rintro (⟨rfl, -⟩ | ⟨piece, split⟩)
    · rfl
    · cases front with
      | nil => rfl
      | cons b front =>
        obtain ⟨rfl, -⟩ := List.cons.inj split
        rfl
  | case4 _ root alone first =>
    rintro (⟨rfl, -⟩ | ⟨piece, split⟩)
    · rfl
    · fun_cases leadOf front with
      | case1 rest => exact absurd split (root _)
      | case2 => exact absurd split (first _)
      | case3 rest => exact absurd split (first _)
      | case4 => rfl

section
variable (path : List UInt8)
include path

lemma leadOf_cases : leadOf path = [] ∨ ∃ c, leadOf path = [c] := by
  fun_cases leadOf path <;> simp

lemma hasPhysicalRoot_eq : hasPhysicalRoot path = decide (leadOf path = [.rootDir]) := by
  fun_cases leadOf path with
  | case1 rest => rfl
  | case2 => rfl
  | case3 rest => rfl
  | case4 _ root alone first =>
    cases path with
    | nil => rfl
    | cons b rest =>
      have other : b ≠ 47 := fun same => root rest (by rw [same])
      simpa [hasPhysicalRoot, isSepByte] using other

lemma includeCurDir_eq (front back : State) :
    (Components.mk path (hasPhysicalRoot path) front back).includeCurDir =
      decide (leadOf path = [.curDir]) := by
  rw [Components.includeCurDir, hasPhysicalRoot_eq]
  fun_cases leadOf path with
  | case1 rest => rfl
  | case2 => rfl
  | case3 rest => rfl
  | case4 _ root alone first =>
    simp only [nil_eq, reduceCtorEq, decide_false, Bool.false_eq_true, if_false]
    split
    · exact absurd rfl alone
    next b rest =>
      have other : b ≠ 47 := fun same => first rest (by rw [same])
      simpa [isSepByte] using other
    · rfl

/-- What either end does before the body: it gives the root or the first `.`, or goes on. -/
lemma start_eq {α : Type} (front back : State) (give : Component → α) (again : α) :
    (if hasPhysicalRoot path then give .rootDir
      else if (Components.mk path (hasPhysicalRoot path) front back).includeCurDir then give .curDir
      else again) = (leadOf path).head?.elim again give := by
  rw [includeCurDir_eq, hasPhysicalRoot_eq]
  fun_cases leadOf path <;> rfl

/-- As long as the front has given nothing, the bytes before the body are all there. -/
lemma lenBeforeBody_eq (back : State) :
    (Components.mk path (hasPhysicalRoot path) .prefixDir back).lenBeforeBody =
      (leadOf path).length := by
  rw [Components.lenBeforeBody, includeCurDir_eq, hasPhysicalRoot_eq]
  fun_cases leadOf path <;> rfl

lemma lenBeforeBody_body (root : Bool) (back : State) :
    (Components.mk path root .body back).lenBeforeBody = 0 := by
  simp [Components.lenBeforeBody, State.rank]

lemma bodyOf_drop_leadOf : bodyOf (path.drop (leadOf path).length) = bodyOf path := by
  have skip (rest : List UInt8) : bodyOf (47 :: rest) = bodyOf rest := bodyOf_append [] rest
  fun_cases leadOf path with
  | case1 rest => exact (skip rest).symm
  | case2 => rfl
  | case3 rest => exact (skip rest).trans (bodyOf_append [46] rest).symm
  | case4 => rfl

end

/-- A cut in the body takes a component away only with its piece. -/
lemma listed_cut {path front : List UInt8} {last : List Component}
    (cut : CutAt (path.drop (leadOf path).length) front)
    (body : bodyOf (path.drop (leadOf path).length) = bodyOf front ++ last) :
    listed path = listed (path.take (leadOf path).length ++ front) ++ last := by
  have lead := leadOf_cut cut
  have front_eq : (path.take (leadOf path).length ++ front).drop (leadOf path).length = front :=
    drop_left' (by rw [length_take, min_eq_left (length_leadOf_le path)])
  rw [listed_eq, listed_eq, ← bodyOf_drop_leadOf path, body,
    ← bodyOf_drop_leadOf (path.take _ ++ front), lead, front_eq, append_assoc]

end

section

/- The loops, round by round. -/

variable {s s' : Components} {answer : Option Component}

lemma next_eq (s : Components) : s.next = if s.finished then some (none, s)
    else s.nextRound.bind fun
      | .again s' => s'.next
      | .give answer s' => some (answer, s') := by
  rw [Components.next]
  split
  · rfl
  · split <;> simp [*]

lemma next_finished (finished : s.finished) : s.next = some (none, s) := by
  rw [next_eq, if_pos finished]

lemma next_again (live : s.finished = false) (round : s.nextRound = some (.again s')) :
    s.next = s'.next := by
  simp [next_eq s, live, round]

lemma next_give (live : s.finished = false) (round : s.nextRound = some (.give answer s')) :
    s.next = some (answer, s') := by
  simp [next_eq s, live, round]

lemma nextBack_eq (s : Components) : s.nextBack = if s.finished then some (none, s)
    else s.nextBackRound.bind fun
      | .again s' => s'.nextBack
      | .give answer s' => some (answer, s') := by
  rw [Components.nextBack]
  split
  · rfl
  · split <;> simp [*]

lemma nextBack_finished (finished : s.finished) : s.nextBack = some (none, s) := by
  rw [nextBack_eq, if_pos finished]

lemma nextBack_again (live : s.finished = false) (round : s.nextBackRound = some (.again s')) :
    s.nextBack = s'.nextBack := by
  simp [nextBack_eq s, live, round]

lemma nextBack_give (live : s.finished = false)
    (round : s.nextBackRound = some (.give answer s')) : s.nextBack = some (answer, s') := by
  simp [nextBack_eq s, live, round]

/-- A round at the back as long as there is a body. -/
lemma nextBackRound_body (back : s.back = .body) (longer : s.lenBeforeBody < s.path.length) :
    s.nextBackRound = some (match s.parseNextComponentBack.2 with
      | none => .again (s.cutBack s.parseNextComponentBack.1)
      | some c => .give (some c) (s.cutBack s.parseNextComponentBack.1)) := by
  rw [Components.nextBackRound, back]
  simp only [longer, if_true]
  rcases s.parseNextComponentBack with ⟨size, _ | c⟩ <;> rfl

lemma nextBackRound_short (back : s.back = .body) (short : ¬ s.lenBeforeBody < s.path.length) :
    s.nextBackRound = some (.again { s with back := .startDir }) := by
  rw [Components.nextBackRound, back]
  simp only [short, if_false]

end

section

/-- What is still to come, for the states between calls: nothing was taken from the front; or the
root and a first `.` are gone; or nothing is left. -/
inductive Remains : Components → List Component → Prop where
  | fresh (path : List UInt8) : Remains (components path) (listed path)
  | inside (path : List UInt8) (root : Bool) : Remains ⟨path, root, .body, .body⟩ (bodyOf path)
  | exhausted (root : Bool) (front back : State)
      (ended : front = .done ∨ back = .done ∨ back.rank < front.rank ∨
        front = .prefixDir ∧ back = .prefixDir) : Remains ⟨[], root, front, back⟩ []

lemma next_inside (path : List UInt8) (root : Bool) :
    ∃ s', (Components.mk path root .body .body).next = some ((bodyOf path).head?, s') ∧
      Remains s' (bodyOf path).tail ∧ s'.path <:+ path := by
  induction h : path.length using Nat.strongRecOn generalizing path with
  | ind n ih =>
    have live : (Components.mk path root .body .body).finished = false := rfl
    by_cases empty : path = []
    · subst empty
      have last : (Components.mk [] root .body .body).nextRound =
        some (.again ⟨[], root, .done, .body⟩) := rfl
      refine ⟨_, ?_, .exhausted root .done .body (.inl rfl), suffix_rfl⟩
      rw [next_again live last, next_finished rfl]
      rfl
    · have split := parseNextComponent_spec ⟨path, root, .body, .body⟩
      have positive := Components.parseNextComponent_pos (s := ⟨path, root, .body, .body⟩) empty
      have length := length_pos_of_ne_nil empty
      generalize parsed : (Components.mk path root .body .body).parseNextComponent = part
        at split positive
      obtain ⟨size, comp⟩ := part
      have shorter : path.drop size <:+ path := drop_suffix size path
      cases comp with
      | none =>
        have round : (Components.mk path root .body .body).nextRound =
            some (.again ⟨path.drop size, root, .body, .body⟩) := by
          simp [Components.nextRound, empty, parsed, Components.cutFront]
        rw [next_again live round, split]
        obtain ⟨s', called, remains, suffix⟩ := ih (path.drop size).length
          (by rw [length_drop]; omega) (path.drop size) rfl
        exact ⟨s', called, remains, suffix.trans shorter⟩
      | some c =>
        have round : (Components.mk path root .body .body).nextRound =
            some (.give (some c) ⟨path.drop size, root, .body, .body⟩) := by
          simp [Components.nextRound, empty, parsed, Components.cutFront]
        rw [next_give live round, split]
        exact ⟨_, rfl, .inside _ root, shorter⟩

/-- The front passes the root and a first `.`. -/
lemma next_fresh (path : List UInt8) :
    ∃ s', (components path).next = some ((listed path).head?, s') ∧
      Remains s' (listed path).tail ∧ s'.path <:+ path := by
  have first : (components path).nextRound =
    some (.again ⟨path, hasPhysicalRoot path, .startDir, .body⟩) := rfl
  have round : (Components.mk path (hasPhysicalRoot path) .startDir .body).nextRound = _ :=
    start_eq path .body .body _ _
  have body := bodyOf_drop_leadOf path
  rw [next_again rfl first, listed_eq]
  rcases leadOf_cases path with lead | ⟨c, lead⟩
  · rw [lead] at round ⊢
    rw [next_again rfl round]
    exact next_inside path _
  · have nonempty : path ≠ [] := by
      rintro rfl
      cases lead
    rw [lead] at round body ⊢
    rw [next_give rfl (round.trans (if_neg nonempty)), ← body]
    exact ⟨_, rfl, .inside _ _, drop_suffix 1 path⟩

/-- States in which what is left is listed by the path itself. -/
inductive Whole : Components → Prop where
  | fresh (path : List UInt8) : Whole (components path)
  | trimmed (path : List UInt8) (root : Bool) (plain : leadOf path = []) :
    Whole ⟨path, root, .body, .body⟩

variable {s : Components}

lemma Whole.lenBeforeBody_eq (whole : Whole s) : s.lenBeforeBody = (leadOf s.path).length := by
  cases whole with
  | fresh path => exact PathComponents.lenBeforeBody_eq path .body
  | trimmed path root plain => rw [plain, lenBeforeBody_body path root .body, length_nil]

/-- The last piece of a body that is listed by the path itself. -/
lemma Whole.cutBack (whole : Whole s) : Whole (s.cutBack s.parseNextComponentBack.1) ∧
      listed s.path = listed (s.cutBack s.parseNextComponentBack.1).path ++
        s.parseNextComponentBack.2.toList ∧
      (s.cutBack s.parseNextComponentBack.1).path <+: s.path := by
  have start := whole.lenBeforeBody_eq
  obtain ⟨front, cut, path_eq, split⟩ :=
    parseNextComponentBack_spec s (by rw [start]; exact length_leadOf_le s.path)
  rw [start] at cut path_eq split
  have shorter : (s.cutBack s.parseNextComponentBack.1).path <+: s.path := take_prefix _ _
  have lead := leadOf_cut cut
  refine ⟨?_, ?_, shorter⟩
  · generalize s.parseNextComponentBack.1 = size at path_eq
    cases whole with
    | fresh path =>
      have root : hasPhysicalRoot ((components path).cutBack size).path = hasPhysicalRoot path := by
        rw [hasPhysicalRoot_eq, hasPhysicalRoot_eq, path_eq]
        exact congrArg (fun l => decide (l = [Component.rootDir])) lead
      have same :
          (components path).cutBack size = components ((components path).cutBack size).path :=
        congrArg (fun has => Components.mk _ has .prefixDir .body) root.symm
      rw [same]
      exact .fresh _
    | trimmed path root plain =>
      apply Whole.trimmed
      exact (congrArg leadOf path_eq).trans (lead.trans plain)
  · rw [path_eq]
    exact listed_cut cut split

lemma Whole.eq_components (whole : Whole s) (front : s.front = .prefixDir) :
    s = components s.path := by
  cases whole with
  | fresh path => rfl
  | trimmed path root plain => cases front

/-- Once the body is used up, the back gives the root or the first `.`. -/
lemma nextBack_start (path : List UInt8) (short : path.length ≤ (leadOf path).length) :
    ∃ s', (Components.mk path (hasPhysicalRoot path) .prefixDir .startDir).nextBack =
        some ((leadOf path).getLast?, s') ∧ Remains s' (leadOf path).dropLast ∧ s'.path = [] := by
  have round : (Components.mk path (hasPhysicalRoot path) .prefixDir .startDir).nextBackRound = _ :=
    start_eq path .prefixDir .prefixDir _ _
  rcases leadOf_cases path with lead | ⟨c, lead⟩
  · obtain rfl : path = [] := by
      rw [lead] at short
      exact eq_nil_of_length_eq_zero (Nat.le_zero.mp short)
    rw [nextBack_again rfl round]
    exact ⟨_, nextBack_give rfl rfl, .exhausted _ .prefixDir .done (by decide), rfl⟩
  · have one : path.length = 1 := by
      have least := length_leadOf_le path
      rw [lead] at short least
      exact le_antisymm short least
    have nonempty : path ≠ [] := ne_nil_of_length_pos (by omega)
    rw [lead] at round ⊢
    refine ⟨⟨[], hasPhysicalRoot path, .prefixDir, .prefixDir⟩, ?_, ?_, rfl⟩
    · rw [nextBack_give rfl (round.trans (if_neg nonempty)), Components.cutBack]
      simp [one]
    · exact .exhausted _ .prefixDir .prefixDir (by decide)

/-- The states in which the back is in the body. -/
inductive InBody : Components → List Component → Prop where
  | fresh (path : List UInt8) : InBody (components path) (listed path)
  | inside (path : List UInt8) (root : Bool) : InBody ⟨path, root, .body, .body⟩ (bodyOf path)

variable {s : Components} {l : List Component}

section
variable (inBody : InBody s l)
include inBody

lemma InBody.remains : Remains s l := by
  cases inBody with
  | fresh path => exact .fresh path
  | inside path root => exact .inside path root

lemma InBody.cutBack : ∃ l', l = l' ++ s.parseNextComponentBack.2.toList ∧
      InBody (s.cutBack s.parseNextComponentBack.1) l' := by
  cases inBody with
  | fresh path =>
    obtain ⟨whole, split, -⟩ := (Whole.fresh path).cutBack
    refine ⟨_, split, ?_⟩
    rw [whole.eq_components rfl]
    exact .fresh _
  | inside path root =>
    have start := lenBeforeBody_body path root .body
    obtain ⟨front, -, cut, split⟩ :=
      parseNextComponentBack_spec ⟨path, root, .body, .body⟩ (Nat.zero_le _)
    simp only [start, drop_zero, take_zero, nil_append] at cut split
    rw [← cut] at split
    exact ⟨_, split, .inside _ root⟩

lemma InBody.nextBack : ∃ s', s.nextBack = some (l.getLast?, s') ∧
    Remains s' l.dropLast ∧ s'.path <+: s.path := by
  induction h : s.path.length using Nat.strongRecOn generalizing s l with
  | ind n ih =>
    obtain ⟨live, back⟩ : s.finished = false ∧ s.back = .body := by
      cases inBody <;> exact ⟨rfl, rfl⟩
    by_cases longer : s.lenBeforeBody < s.path.length
    · have positive := Components.parseNextComponentBack_pos longer
      have round := nextBackRound_body back longer
      have initial : (s.cutBack s.parseNextComponentBack.1).path <+: s.path := take_prefix _ _
      obtain ⟨l', rfl, cut⟩ := inBody.cutBack
      cases parsed : s.parseNextComponentBack.2 with
      | none =>
        rw [parsed] at round
        rw [nextBack_again live round, toList_none, append_nil]
        obtain ⟨s', called, remains, later⟩ := ih _
          (by simp only [Components.cutBack, length_take]; omega) cut rfl
        exact ⟨s', called, remains, later.trans initial⟩
      | some c =>
        rw [parsed] at round
        rw [nextBack_give live round, toList_some, dropLast_concat, getLast?_concat]
        exact ⟨_, rfl, cut.remains, initial⟩
    · rw [nextBack_again live (nextBackRound_short back longer)]
      have short := Nat.le_of_not_lt longer
      cases inBody with
      | fresh path =>
        rw [(Whole.fresh path).lenBeforeBody_eq] at short
        change path.length ≤ (leadOf path).length at short
        have body : bodyOf path = [] := by
          rw [← bodyOf_drop_leadOf, drop_of_length_le short, bodyOf_nil]
        obtain ⟨s', called, remains, empty⟩ := nextBack_start path short
        rw [listed_eq, body, append_nil]
        exact ⟨s', called, remains, empty ▸ nil_prefix⟩
      | inside path root =>
        obtain rfl : path = [] := eq_nil_of_length_eq_zero (Nat.le_zero.mp short)
        refine ⟨_, nextBack_finished rfl, ?_, prefix_rfl⟩
        exact .exhausted root .body .startDir (.inr (.inr (.inl (by decide))))

lemma InBody.next : ∃ s', s.next = some (l.head?, s') ∧ Remains s' l.tail ∧ s'.path <:+ s.path := by
  cases inBody with
  | fresh path => exact next_fresh path
  | inside path root => exact next_inside path root

end

/-- A call at either end gives what the list has there. -/
lemma Remains.calls (remains : Remains s l) :
    (∃ s', s.next = some (l.head?, s') ∧ Remains s' l.tail ∧ s'.path <:+: s.path) ∧
      ∃ s', s.nextBack = some (l.getLast?, s') ∧ Remains s' l.dropLast ∧ s'.path <:+: s.path := by
  have inside (inBody : InBody s l) : _ ∧ _ := ⟨inBody.next, inBody.nextBack⟩
  cases remains with
  | fresh path =>
    obtain ⟨⟨s₁, first, later, part⟩, s₂, last, before, part'⟩ := inside (.fresh path)
    exact ⟨⟨s₁, first, later, part.isInfix⟩, s₂, last, before, part'.isInfix⟩
  | inside path root =>
    obtain ⟨⟨s₁, first, later, part⟩, s₂, last, before, part'⟩ := inside (.inside path root)
    exact ⟨⟨s₁, first, later, part.isInfix⟩, s₂, last, before, part'.isInfix⟩
  | exhausted root front back ended =>
    by_cases finished : (Components.mk [] root front back).finished
    · have still := Remains.exhausted root front back ended
      exact ⟨⟨_, next_finished finished, still, infix_rfl⟩, _, nextBack_finished finished,
        still, infix_rfl⟩
    · obtain ⟨rfl, rfl⟩ : front = .prefixDir ∧ back = .prefixDir := by
        simp only [Components.finished, Bool.or_eq_true, beq_iff_eq, decide_eq_true_eq] at finished
        tauto
      have round : (Components.mk [] root .prefixDir .prefixDir).nextRound =
        some (.again ⟨[], root, .startDir, .prefixDir⟩) := rfl
      exact ⟨⟨_, (next_again rfl round).trans (next_finished rfl),
        .exhausted root .startDir .prefixDir (by decide), infix_rfl⟩, _, nextBack_give rfl rfl,
        .exhausted root .prefixDir .done (by decide), infix_rfl⟩

/-- What remains, and that it is part of the original path. -/
def Within (original : List UInt8) (s : Components) (l : List Component) : Prop :=
  Remains s l ∧ s.path <:+: original

variable {original : List UInt8}

lemma Within.next (within : Within original s l) :
    ∃ s', s.next = some (l.head?, s') ∧ Within original s' l.tail := by
  obtain ⟨⟨s', called, later, part⟩, -⟩ := within.1.calls
  exact ⟨s', called, later, part.trans within.2⟩

lemma Within.nextBack (within : Within original s l) :
    ∃ s', s.nextBack = some (l.getLast?, s') ∧ Within original s' l.dropLast := by
  obtain ⟨-, s', called, later, part⟩ := within.1.calls
  exact ⟨s', called, later, part.trans within.2⟩

lemma step_follows (original : List UInt8) : Follows Components.step (Within original) := by
  intro call s l within
  cases call with
  | next => exact within.next
  | nextBack => exact within.nextBack
  | nth n => exact nthByNext_eq Components.next (Within original) Within.next n within
  | nthBack n =>
    exact nthByNext_back Components.nextBack (Within original) Within.nextBack n within

end

section
variable {s : Components}

lemma parseNextComponent_lead (lead : leadOf s.path ≠ []) : s.parseNextComponent.2 = none := by
  rw [Components.parseNextComponent]
  revert lead
  fun_cases leadOf s.path <;> simp_all [isSepByte, parseSingleComponent, findIdx?_cons]

lemma trimLeft_spec (s : Components) :
    ∃ path, s.trimLeft = { s with path := path } ∧ path <:+ s.path ∧
      bodyOf path = bodyOf s.path ∧ leadOf path = [] := by
  fun_induction Components.trimLeft s with
  | case1 s nonempty c parsed =>
    refine ⟨s.path, rfl, suffix_rfl, rfl, ?_⟩
    by_contra lead
    rw [parseNextComponent_lead lead] at parsed
    cases parsed
  | case2 s nonempty parsed ih =>
    obtain ⟨path, trimmed, shorter, body, lead⟩ := ih
    have split := parseNextComponent_spec s
    rw [parsed] at split
    exact ⟨path, trimmed, shorter.trans (drop_suffix _ _), body.trans split.symm, lead⟩
  | case3 s empty =>
    have nil : s.path = [] := not_not.mp empty
    exact ⟨s.path, rfl, suffix_rfl, rfl, by rw [nil]; rfl⟩

lemma trimRight_spec (whole : Whole s) :
    listed s.trimRight.path = listed s.path ∧ s.trimRight.path <+: s.path := by
  fun_induction Components.trimRight s with
  | case1 s longer c parsed => exact ⟨rfl, prefix_rfl⟩
  | case2 s longer parsed ih =>
    obtain ⟨whole', split, shorter⟩ := whole.cutBack
    rw [parsed, toList_none, append_nil] at split
    obtain ⟨same, later⟩ := ih whole'
    exact ⟨same.trans split.symm, later.trans shorter⟩
  | case3 s short => exact ⟨rfl, prefix_rfl⟩

lemma trimRight_nil (empty : s.path = []) : s.trimRight = s := by
  rw [Components.trimRight, dif_neg (by simp [empty])]

lemma trimLeft_nil (empty : s.path = []) : s.trimLeft = s := by
  rw [Components.trimLeft, dif_neg (by simp [empty])]

lemma asPath_spec {l : List Component} (remains : Remains s l) :
    listed s.asPath = l ∧ s.asPath <:+: s.path := by
  rcases remains with path | ⟨path, root⟩ | ⟨root, front, back⟩
  · obtain ⟨same, shorter⟩ := trimRight_spec (Whole.fresh path)
    exact ⟨same, shorter.isInfix⟩
  · obtain ⟨path', trimmed, suffix, body, lead⟩ := trimLeft_spec ⟨path, root, .body, .body⟩
    obtain ⟨same, initial⟩ := trimRight_spec (Whole.trimmed path' root lead)
    have eq : (Components.mk path root .body .body).asPath =
        (Components.mk path' root .body .body).trimRight.path := by
      simp only [Components.asPath, if_true, trimmed]
    rw [eq]
    refine ⟨?_, initial.isInfix.trans suffix.isInfix⟩
    rw [same, listed_eq, lead, body, nil_append]
  · have eq : (Components.mk [] root front back).asPath = [] := by
      rw [Components.asPath, trimLeft_nil rfl]
      simp only [ite_self, trimRight_nil]
    rw [eq]
    exact ⟨rfl, nil_infix⟩

end

/-- Every run of calls at the two ends is answered by the list of the components, and at every
moment the remaining path is a part of the original that lists what was not yet returned. -/
theorem components_both_ends (path : List UInt8) :
    (∀ calls, DoubleEnded.run Components.step calls (components path) =
        some (replies calls (listed path)) ∧
      ∃ s, stateAfter Components.step calls (components path) = some s ∧
        s.asPath <:+: path ∧ listed s.asPath = rest calls (listed path)) ∧
    (∃ name, fileName path = some name ∧
      ∀ n, name = some n ↔ (listed path).getLast? = some (.normal n)) ∧
    (∃ up, parent path = some up ∧
      (up = none ↔ (listed path).getLast? = none ∨ (listed path).getLast? = some .rootDir) ∧
      ∀ q, up = some q → q <:+: path ∧ listed q = (listed path).dropLast) := by
  have start : Within path (components path) (listed path) := ⟨.fresh path, infix_rfl⟩
  obtain ⟨s', called, remains, part⟩ := start.nextBack
  obtain ⟨listed_rest, rest_part⟩ := asPath_spec remains
  have up_part := rest_part.trans part
  refine ⟨?_, ?_, ?_⟩
  · intro calls
    obtain ⟨s, reached, remains, part⟩ := (step_follows path).stateAfter calls start
    obtain ⟨listed_left, left_part⟩ := asPath_spec remains
    exact ⟨(step_follows path).run calls start, s, reached, left_part.trans part, listed_left⟩
  · rw [fileName, called]
    cases (listed path).getLast? with
    | none => exact ⟨none, rfl, by simp⟩
    | some c => cases c <;> exact ⟨_, rfl, by simp⟩
  · rw [parent, called]
    cases (listed path).getLast? with
    | none => exact ⟨none, rfl, by simp, by simp⟩
    | some c =>
      cases c with
      | rootDir => exact ⟨none, rfl, by simp, by simp⟩
      | curDir => exact ⟨some s'.asPath, rfl, by simp, by simp [up_part, listed_rest]⟩
      | parentDir => exact ⟨some s'.asPath, rfl, by simp, by simp [up_part, listed_rest]⟩
      | normal name => exact ⟨some s'.asPath, rfl, by simp, by simp [up_part, listed_rest]⟩

end PathComponents
