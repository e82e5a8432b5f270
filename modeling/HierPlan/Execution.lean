import HierPlan.Progression

/-!
# Execution — what it means to carry out a network

`Execution m s network plan t` holds when the tasks of `network`, begun in state `s`, can be done one
after another so that the operators of `plan` are applied on the way and `t` is left.  A compound task
is done by doing the whole network of one of its applicable methods; nothing is said about queues
or about the order in which alternatives are tried.

Progression does the same work flat: it keeps one list of open tasks and always refines the first.
**The two agree** (`execution_iff_walk`), because an execution is walked off in front of whatever is still open
(`Execution.walk`), and one of a concatenation falls into two (`Execution.exists_of_append`).
-/

namespace HierPlan

/-- Doing the tasks of a network in order, each to its end. -/
inductive Execution (m : Model) : IdSet → List Task → List Nat → IdSet → Prop where
  /-- Nothing to do. -/
  | done {s : IdSet} : Execution m s [] [] s
  /-- An applicable operator, then the rest. -/
  | operator {s t : IdSet} {i : Nat} {o : Operator} {rest : List Task} {plan : List Nat}
      (known : m.operators[i]? = some o) (applicable : o.applicable s = true)
      (after : Execution m (o.apply s) rest plan t) :
      Execution m s (.operator i :: rest) (i :: plan) t
  /-- The network of an applicable method of the task, then the rest. -/
  | compound {s u t : IdSet} {a d : Nat} {x : Compound} {y : Method} {rest : List Task}
      {plan more : List Nat}
      (known : m.compounds[a]? = some x) (listed : d ∈ x.methods)
      (chosen : m.methods[d]? = some y) (applicable : y.applicable s = true)
      (inside : Execution m s y.network plan u) (after : Execution m u rest more t) :
      Execution m s (.compound a :: rest) (plan ++ more) t

/-- Whether a sequence of operators solves a problem: it carries out the network of the problem and
leaves every goal fact true. -/
def Model.IsSolution (m : Model) (plan : List Nat) : Prop :=
  ∃ t, Execution m m.init m.network plan t ∧ ∀ f ∈ m.goal, f ∈ t

namespace Execution

variable {m : Model} {s t : IdSet} {xs ys : List Task} {p : List Nat}

/-- Doing a concatenation passes through a state where the first part is done. -/
theorem exists_of_append (h : Execution m s (xs ++ ys) p t) :
    ∃ p₁ p₂ u, p = p₁ ++ p₂ ∧ Execution m s xs p₁ u ∧ Execution m u ys p₂ t := by
  generalize hz : xs ++ ys = zs at h
  induction h generalizing xs with
  | done =>
    obtain ⟨rfl, rfl⟩ := List.append_eq_nil_iff.1 hz
    exact ⟨[], [], _, rfl, .done, .done⟩
  | @operator s t i o rest plan known applicable after ih =>
    cases xs with
    | nil =>
      exact ⟨[], _, _, rfl, .done, by
        rw [List.nil_append] at hz
        subst hz
        exact .operator known applicable after⟩
    | cons x xs =>
      obtain ⟨rfl, rfl⟩ := List.cons.inj hz
      obtain ⟨p₁, p₂, u, rfl, h₁, h₂⟩ := ih rfl
      exact ⟨i :: p₁, p₂, u, rfl, .operator known applicable h₁, h₂⟩
  | @compound s v t a d x y rest plan more known listed chosen applicable inside after _ ih =>
    cases xs with
    | nil =>
      exact ⟨[], _, _, rfl, .done, by
        rw [List.nil_append] at hz
        subst hz
        exact .compound known listed chosen applicable inside after⟩
    | cons x xs =>
      obtain ⟨rfl, rfl⟩ := List.cons.inj hz
      obtain ⟨p₁, p₂, u, rfl, h₁, h₂⟩ := ih rfl
      exact ⟨plan ++ p₁, p₂, u, by rw [List.append_assoc],
        .compound known listed chosen applicable inside h₁, h₂⟩

end Execution

/-- The operators a transition applies. -/
def Transition.applied : Transition → List Nat
  | .operator i => [i]
  | .method _ => []

/-- From one situation to another by moves, with the operators applied on the way. -/
inductive Walk (m : Model) : Situation → List Nat → Situation → Prop where
  /-- No move. -/
  | stay {s : Situation} : Walk m s [] s
  /-- A move, then the rest. -/
  | step {s t : Situation} {v : Move} {plan : List Nat}
      (first : v ∈ s.moves m) (after : Walk m v.next plan t) :
      Walk m s (v.transition.applied ++ plan) t

/-- An execution is walked off in front of whatever is still open. -/
theorem Execution.walk {m : Model} {s t : IdSet} {xs : List Task} {p : List Nat}
    (h : Execution m s xs p t) : ∀ {ys : List Task} {q : List Nat} {g : Situation},
      Walk m ⟨t, ys⟩ q g → Walk m ⟨s, xs ++ ys⟩ (p ++ q) g := by
  induction h with
  | done => exact fun k => k
  | operator known applicable _ ih =>
    exact fun k =>
      .step (Situation.mem_moves_operator.2 ⟨_, known, applicable, rfl⟩) (ih k)
  | compound known listed chosen applicable _ _ inner outer =>
    intro ys q g k
    rw [List.append_assoc]
    exact .step
      (Situation.mem_moves_compound.2 ⟨_, known, _, listed, _, chosen, applicable, rfl⟩)
      (inner (outer k))

/-- A walk that leaves nothing open carries its network out. -/
theorem Walk.execution {m : Model} {a b : Situation} {p : List Nat} (h : Walk m a p b)
    (hb : b.network = []) : Execution m a.state a.network p b.state := by
  induction h with
  | stay =>
    rw [hb]
    exact .done
  | @step s t v plan first _ ih =>
    obtain ⟨state, network⟩ := s
    match network, first, ih with
    | [], first, _ => exact absurd first List.not_mem_nil
    | .operator i :: rest, first, ih =>
      obtain ⟨o, known, applicable, rfl⟩ := Situation.mem_moves_operator.1 first
      exact .operator known applicable (ih hb)
    | .compound a :: rest, first, ih =>
      obtain ⟨x, known, d, listed, y, chosen, applicable, rfl⟩ :=
        Situation.mem_moves_compound.1 first
      obtain ⟨p₁, p₂, u, rfl, inside, after⟩ := (ih hb).exists_of_append
      show Execution m state (.compound a :: rest) (p₁ ++ p₂) _
      exact .compound known listed chosen applicable inside after

/-- **A network is carried out nested exactly if it is walked off flat.** -/
theorem execution_iff_walk {m : Model} {s t : IdSet} {network : List Task} {plan : List Nat} :
    Execution m s network plan t ↔ Walk m ⟨s, network⟩ plan ⟨t, []⟩ := by
  constructor
  · intro h
    have w : Walk m ⟨s, network ++ []⟩ (plan ++ []) ⟨t, []⟩ := h.walk .stay
    rwa [List.append_nil, List.append_nil] at w
  · exact fun h => h.execution rfl

end HierPlan
