import HierPlan.IdSet

/-!
# Model/Basic — grounded hierarchical planning problems

A problem has facts, operators, compound tasks and methods.  Every one of these components has one
id in a single dense range, by kind and then by position:

    [0, F) facts   [F, F+O) operators   [F+O, F+O+A) compound tasks   [F+O+A, F+O+A+D) methods

so graphs, landmark sets and cost tables are all indexed by id alone.  `Model.componentAt?` finds
the component an id names and `Model.idOf` writes the id of a component; **each undoes the other**
(`idOf_componentAt?`, `componentAt?_idOf`).  Every component also stores an id; that it is the one
of its position is made sure of when a problem is built.
-/

namespace HierPlan

/-- A task of a network, by its position among the tasks of its kind. -/
inductive Task where
  /-- The operator at this position. -/
  | operator (index : Nat)
  /-- The compound task at this position. -/
  | compound (index : Nat)
  deriving DecidableEq, Hashable, Repr

/-- An atomic proposition. -/
structure Fact where
  /-- The id it was given. -/
  id : Nat
  name : String

/-- A primitive action. -/
structure Operator where
  /-- The id it was given. -/
  id : Nat
  name : String
  /-- Charged once per application. -/
  cost : Nat
  /-- Facts that have to hold. -/
  pre : IdSet
  /-- Facts that must not hold. -/
  negPre : IdSet
  /-- Facts made true. -/
  add : IdSet
  /-- Facts made false. -/
  del : IdSet

namespace Operator

/-- Whether every wanted fact holds in `state` and no forbidden one does. -/
def applicable (o : Operator) (state : IdSet) : Bool :=
  o.pre.isSubset state && o.negPre.isDisjoint state

/-- The state after the operator: deletions first, so a fact both deleted and added holds. -/
def apply (o : Operator) (state : IdSet) : IdSet := (state.sdiff o.del).union o.add

/-- Applicability when forbidden facts are overlooked. -/
def relaxedApplicable (o : Operator) (state : IdSet) : Bool := o.pre.isSubset state

/-- The state after the operator when nothing is ever deleted. -/
def relaxedApply (o : Operator) (state : IdSet) : IdSet := state.union o.add

theorem applicable_iff {o : Operator} {state : IdSet} :
    o.applicable state = true ↔ (∀ f ∈ o.pre, f ∈ state) ∧ ∀ f ∈ o.negPre, f ∉ state := by
  rw [applicable, Bool.and_eq_true, IdSet.isSubset_iff, IdSet.isDisjoint_iff]

@[simp] theorem width_apply (o : Operator) (state : IdSet) :
    (o.apply state).width = state.width := rfl

theorem mem_apply {o : Operator} {state : IdSet} {f : Nat} :
    f ∈ o.apply state ↔ (f ∈ state ∧ f ∉ o.del) ∨ (f ∈ o.add ∧ f < state.width) := by
  rw [apply, IdSet.mem_union, IdSet.mem_sdiff, IdSet.width_sdiff]

end Operator

/-- A task that is refined through its methods only. -/
structure Compound where
  /-- The id it was given. -/
  id : Nat
  name : String
  /-- Positions of the methods that refine this task, in the order they were declared. -/
  methods : List Nat

/-- One way to refine a compound task into an ordered network. -/
structure Method where
  /-- The id it was given. -/
  id : Nat
  name : String
  /-- Position of the compound task this method refines. -/
  task : Nat
  /-- Facts that have to hold. -/
  pre : IdSet
  /-- Facts that must not hold. -/
  negPre : IdSet
  /-- The subtasks, in order. -/
  network : List Task

/-- Whether every wanted fact holds in `state` and no forbidden one does. -/
def Method.applicable (d : Method) (state : IdSet) : Bool :=
  d.pre.isSubset state && d.negPre.isDisjoint state

theorem Method.applicable_iff {d : Method} {state : IdSet} :
    d.applicable state = true ↔ (∀ f ∈ d.pre, f ∈ state) ∧ ∀ f ∈ d.negPre, f ∉ state := by
  rw [applicable, Bool.and_eq_true, IdSet.isSubset_iff, IdSet.isDisjoint_iff]

/-- A component by kind and position. -/
inductive Component where
  | fact (index : Nat)
  | operator (index : Nat)
  | compound (index : Nat)
  | method (index : Nat)
  deriving DecidableEq, Repr

/-- A component as a problem holds it. -/
inductive Item where
  | fact (f : Fact)
  | operator (o : Operator)
  | compound (t : Compound)
  | method (d : Method)

namespace Item

/-- The id it stores. -/
def id : Item → Nat
  | fact f => f.id
  | operator o => o.id
  | compound t => t.id
  | method d => d.id

/-- What it is called. -/
def name : Item → String
  | fact f => f.name
  | operator o => o.name
  | compound t => t.name
  | method d => d.name

end Item

/-- The component a task names. -/
def Task.component : Task → Component
  | .operator i => .operator i
  | .compound i => .compound i

/-- A grounded problem. -/
structure Model where
  facts : Array Fact
  operators : Array Operator
  compounds : Array Compound
  methods : Array Method
  /-- Facts that hold at the start. -/
  init : IdSet
  /-- Facts that have to hold at the end. -/
  goal : IdSet
  /-- Tasks to be done, in order. -/
  network : List Task

namespace Model

/-- How many ids the problem uses. -/
def size (m : Model) : Nat :=
  m.facts.size + m.operators.size + m.compounds.size + m.methods.size

/-- Id of the operator at a position. -/
def operatorId (m : Model) (i : Nat) : Nat := m.facts.size + i

/-- Id of the compound task at a position. -/
def compoundId (m : Model) (i : Nat) : Nat := m.facts.size + m.operators.size + i

/-- Id of the method at a position. -/
def methodId (m : Model) (i : Nat) : Nat :=
  m.facts.size + m.operators.size + m.compounds.size + i

/-- Id of a component. -/
def idOf (m : Model) : Component → Nat
  | .fact i => i
  | .operator i => m.operatorId i
  | .compound i => m.compoundId i
  | .method i => m.methodId i

/-- Id of a task. -/
def taskId (m : Model) : Task → Nat
  | .operator i => m.operatorId i
  | .compound i => m.compoundId i

/-- Whether the problem has this component. -/
def HasComponent (m : Model) : Component → Prop
  | .fact i => i < m.facts.size
  | .operator i => i < m.operators.size
  | .compound i => i < m.compounds.size
  | .method i => i < m.methods.size

instance (m : Model) (c : Component) : Decidable (m.HasComponent c) := by
  cases c <;> exact Nat.decLt _ _

/-- Whether the problem has the operator or compound task that `t` names. -/
abbrev HasTask (m : Model) (t : Task) : Prop := m.HasComponent t.component

/-- The component with the given id. -/
def componentAt? (m : Model) (id : Nat) : Option Component :=
  if id < m.operatorId 0 then some (.fact id)
  else if id < m.compoundId 0 then some (.operator (id - m.operatorId 0))
  else if id < m.methodId 0 then some (.compound (id - m.compoundId 0))
  else if id < m.size then some (.method (id - m.methodId 0))
  else none

/-- **An id names the component that has it.** -/
theorem idOf_componentAt? {m : Model} {id : Nat} {c : Component}
    (h : m.componentAt? id = some c) : m.idOf c = id ∧ m.HasComponent c := by
  unfold componentAt? at h
  split at h
  · rename_i h₁
    cases h
    exact ⟨rfl, h₁⟩
  · split at h
    · rename_i h₁ h₂
      cases h
      simp only [operatorId, compoundId] at h₁ h₂
      exact ⟨by simp only [idOf, operatorId]; omega, by simp only [HasComponent, operatorId]; omega⟩
    · split at h
      · rename_i h₁ h₂ h₃
        cases h
        simp only [compoundId, methodId] at h₂ h₃
        exact ⟨by simp only [idOf, compoundId]; omega, by simp only [HasComponent, compoundId]; omega⟩
      · split at h
        · rename_i h₁ h₂ h₃ h₄
          cases h
          simp only [methodId, size] at h₃ h₄
          exact ⟨by simp only [idOf, methodId]; omega, by simp only [HasComponent, methodId]; omega⟩
        · cases h

/-- **A component is found at its id.** -/
theorem componentAt?_idOf {m : Model} {c : Component} (h : m.HasComponent c) :
    m.componentAt? (m.idOf c) = some c := by
  unfold componentAt?
  cases c with
  | fact i =>
    simp only [HasComponent] at h
    rw [if_pos (by simp only [idOf, operatorId]; omega)]
    rfl
  | operator i =>
    simp only [HasComponent] at h
    rw [if_neg (by simp only [idOf, operatorId]; omega),
      if_pos (by simp only [idOf, operatorId, compoundId]; omega)]
    simp only [idOf, operatorId, Nat.add_zero, Nat.add_sub_cancel_left]
  | compound i =>
    simp only [HasComponent] at h
    rw [if_neg (by simp only [idOf, operatorId, compoundId]; omega),
      if_neg (by simp only [idOf, compoundId]; omega),
      if_pos (by simp only [idOf, compoundId, methodId]; omega)]
    simp only [idOf, compoundId, Nat.add_zero, Nat.add_sub_cancel_left]
  | method i =>
    simp only [HasComponent] at h
    rw [if_neg (by simp only [idOf, operatorId, methodId]; omega),
      if_neg (by simp only [idOf, compoundId, methodId]; omega),
      if_neg (by simp only [idOf, methodId]; omega),
      if_pos (by simp only [idOf, methodId, size]; omega)]
    simp only [idOf, methodId, Nat.add_zero, Nat.add_sub_cancel_left]

/-- Every id below the bound names a component. -/
theorem exists_componentAt? {m : Model} {id : Nat} (h : id < m.size) :
    ∃ c, m.componentAt? id = some c := by
  unfold componentAt?
  split
  · exact ⟨_, rfl⟩
  · split
    · exact ⟨_, rfl⟩
    · split <;> exact ⟨_, rfl⟩

/-- No other id does. -/
theorem componentAt?_eq_none {m : Model} {id : Nat} (h : m.size ≤ id) : m.componentAt? id = none := by
  unfold componentAt?
  rw [if_neg (by simp only [operatorId, size] at *; omega),
    if_neg (by simp only [compoundId, size] at *; omega),
    if_neg (by simp only [methodId, size] at *; omega), if_neg (Nat.not_lt.mpr h)]

/-- What the problem holds as a component. -/
def item? (m : Model) : Component → Option Item
  | .fact i => m.facts[i]?.map .fact
  | .operator i => m.operators[i]?.map .operator
  | .compound i => m.compounds[i]?.map .compound
  | .method i => m.methods[i]?.map .method

theorem item?_fact {m : Model} {i : Nat} {f : Fact} (h : m.facts[i]? = some f) :
    m.item? (.fact i) = some (.fact f) := congrArg (Option.map Item.fact) h

theorem item?_operator {m : Model} {i : Nat} {o : Operator} (h : m.operators[i]? = some o) :
    m.item? (.operator i) = some (.operator o) := congrArg (Option.map Item.operator) h

theorem item?_compound {m : Model} {a : Nat} {t : Compound} (h : m.compounds[a]? = some t) :
    m.item? (.compound a) = some (.compound t) := congrArg (Option.map Item.compound) h

theorem item?_method {m : Model} {d : Nat} {x : Method} (h : m.methods[d]? = some x) :
    m.item? (.method d) = some (.method x) := congrArg (Option.map Item.method) h

/-- It holds something as each of its components. -/
theorem exists_item? {m : Model} {c : Component} (h : m.HasComponent c) : ∃ x, m.item? c = some x := by
  cases c <;> exact ⟨_, congrArg (Option.map _) (Array.getElem?_eq_getElem h)⟩

/-- The name of a component the problem has. -/
def componentName? (m : Model) (c : Component) : Option String := (m.item? c).map (·.name)

/-- The names of the operators at the listed positions; positions without one are left out. -/
def operatorNames (m : Model) (plan : List Nat) : List String :=
  plan.filterMap fun i => m.operators[i]?.map (·.name)

/-- What the operator at a position costs; nothing if there is none. -/
def operatorCost (m : Model) (i : Nat) : Nat := (m.operators[i]?.map (·.cost)).getD 0

/-- What the listed operators cost together. -/
def planCost (m : Model) : List Nat → Nat
  | [] => 0
  | i :: rest => m.operatorCost i + m.planCost rest

theorem planCost_append (m : Model) (p q : List Nat) :
    m.planCost (p ++ q) = m.planCost p + m.planCost q := by
  induction p with
  | nil => rw [List.nil_append, planCost, Nat.zero_add]
  | cons i p ih => rw [List.cons_append, planCost, planCost, ih, Nat.add_assoc]

end Model

end HierPlan
