import HierPlan.Model.Basic

/-!
# Progression — doing the first task of a network

A `Situation` is a state together with the tasks still to be done.  `Situation.moves` lists what can
be done with the first task: an operator is applied if it is applicable, and a compound task is
replaced by the network of each of its applicable methods, in the order they were declared.  A
situation is a goal when nothing is left to do and the goal facts hold.
-/

namespace HierPlan

/-- A state and the tasks still to be done, first task first. -/
structure Situation where
  state : IdSet
  network : List Task
  deriving DecidableEq

/-- What leads from one situation to the next. -/
inductive Transition where
  /-- The operator at this position was applied. -/
  | operator (index : Nat)
  /-- The method at this position was used. -/
  | method (index : Nat)
  deriving DecidableEq, Repr

/-- A transition, where it leads, and what it costs. -/
structure Move where
  transition : Transition
  next : Situation
  cost : Nat

/-- Where a problem starts. -/
def Model.start (m : Model) : Situation := ⟨m.init, m.network⟩

namespace Situation

/-- Whether nothing is left to do and the goal facts hold. -/
def isGoal (m : Model) (s : Situation) : Bool := s.network.isEmpty && m.goal.isSubset s.state

/-- A goal: nothing is open, and the goal facts hold. -/
theorem isGoal_iff {m : Model} {s : Situation} :
    s.isGoal m = true ↔ s.network = [] ∧ ∀ f ∈ m.goal, f ∈ s.state := by
  rw [isGoal, Bool.and_eq_true, List.isEmpty_iff, IdSet.isSubset_iff]

/-- Applying the operator at a position, then going on with `rest`. -/
def operatorMoves (m : Model) (state : IdSet) (i : Nat) (rest : List Task) : List Move :=
  match m.operators[i]? with
  | none => []
  | some o =>
    if o.applicable state then [⟨.operator i, ⟨o.apply state, rest⟩, o.cost⟩] else []

/-- Using the method at a position, then going on with `rest`. -/
def methodMove? (m : Model) (state : IdSet) (rest : List Task) (d : Nat) : Option Move :=
  match m.methods[d]? with
  | none => none
  | some x =>
    if x.applicable state then some ⟨.method d, ⟨state, x.network ++ rest⟩, 0⟩ else none

/-- Everything that can be done with the first task. -/
def moves (m : Model) (s : Situation) : List Move :=
  match s.network with
  | [] => []
  | .operator i :: rest => operatorMoves m s.state i rest
  | .compound a :: rest =>
    match m.compounds[a]? with
    | none => []
    | some t => t.methods.filterMap (methodMove? m s.state rest)

/-- An operator in front is applied, if it can be. -/
theorem mem_moves_operator {m : Model} {state : IdSet} {i : Nat} {rest : List Task} {v : Move} :
    v ∈ (Situation.mk state (.operator i :: rest)).moves m ↔
      ∃ o, m.operators[i]? = some o ∧ o.applicable state = true ∧
        v = ⟨.operator i, ⟨o.apply state, rest⟩, o.cost⟩ := by
  simp only [moves, operatorMoves]
  cases m.operators[i]? with
  | none => simp
  | some o => by_cases h : o.applicable state = true <;> simp [h]

/-- A compound task in front is replaced by the network of one of its applicable methods. -/
theorem mem_moves_compound {m : Model} {state : IdSet} {a : Nat} {rest : List Task} {v : Move} :
    v ∈ (Situation.mk state (.compound a :: rest)).moves m ↔
      ∃ x, m.compounds[a]? = some x ∧ ∃ d ∈ x.methods, ∃ y, m.methods[d]? = some y ∧
        y.applicable state = true ∧ v = ⟨.method d, ⟨state, y.network ++ rest⟩, 0⟩ := by
  simp only [moves]
  cases m.compounds[a]? with
  | none => simp
  | some x =>
    simp only [List.mem_filterMap, Option.some.injEq, exists_eq_left']
    refine exists_congr fun d => and_congr_right fun _ => ?_
    unfold methodMove?
    cases m.methods[d]? with
    | none => simp
    | some y => by_cases h : y.applicable state = true <;> simp [h, @eq_comm _ v]

/-- Moves keep the width of states. -/
theorem width_next {m : Model} {a : Situation} {v : Move} (hv : v ∈ a.moves m) :
    v.next.state.width = a.state.width := by
  obtain ⟨state, network⟩ := a
  match network, hv with
  | [], hv => exact absurd hv List.not_mem_nil
  | .operator i :: rest, hv =>
    obtain ⟨o, -, -, rfl⟩ := mem_moves_operator.mp hv
    rfl
  | .compound a :: rest, hv =>
    obtain ⟨y, -, d, -, z, -, -, rfl⟩ := mem_moves_compound.mp hv
    rfl

/-- Moves from one situation differ in what they apply or use. -/
theorem eq_of_transition_eq {m : Model} {a : Situation} {v w : Move} (hv : v ∈ a.moves m) (hw : w ∈ a.moves m)
    (h : v.transition = w.transition) : v = w := by
  obtain ⟨state, network⟩ := a
  match network, hv, hw with
  | [], hv, _ => exact absurd hv List.not_mem_nil
  | .operator i :: rest, hv, hw =>
    obtain ⟨o, known, -, rfl⟩ := mem_moves_operator.mp hv
    obtain ⟨o', known', -, rfl⟩ := mem_moves_operator.mp hw
    rw [Option.some.inj (known.symm.trans known')]
  | .compound a :: rest, hv, hw =>
    obtain ⟨y, -, d, -, z, known, -, rfl⟩ := mem_moves_compound.mp hv
    obtain ⟨y', -, d', -, z', known', -, rfl⟩ := mem_moves_compound.mp hw
    obtain rfl := Transition.method.inj h
    rw [Option.some.inj (known.symm.trans known')]

/-- Whether the first task, if there is one, is a task of the problem. -/
def firstKnown (m : Model) (s : Situation) : Bool := s.network.head?.all fun t => m.HasTask t

/-- A 64-bit key of a situation: every bit of the state and every task is mixed in. -/
def key (s : Situation) : UInt64 :=
  let words := s.state.words.foldl mix (mix 0 s.state.width.toUInt64)
  s.network.foldl
    (fun h t =>
      match t with
      | .operator i => mix (mix h 1) i.toUInt64
      | .compound a => mix (mix h 2) a.toUInt64)
    words
where
  /-- Stirs a word into a key; for each word, no two keys become one. -/
  mix (h w : UInt64) : UInt64 :=
    let x := (h + 0x9e3779b97f4a7c15) ^^^ w
    let x := (x ^^^ (x >>> 30)) * 0xbf58476d1ce4e5b9
    let x := (x ^^^ (x >>> 27)) * 0x94d049bb133111eb
    x ^^^ (x >>> 31)

end Situation

end HierPlan
