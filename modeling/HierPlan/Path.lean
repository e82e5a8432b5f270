import HierPlan.Progression

/-!
# Path — one move after another, and what is met on the way

    start ──v₁──▸ v₁.next ──v₂──▸ v₂.next ──▸ … ──▸ end

`Path m a moves b` holds when the moves lead from `a` to `b`.  What is met on the way (`Model.Meets`) is every
fact that holds in one of the situations, every operator applied, every method used and every task refined.
-/

namespace HierPlan

/-- From one situation to another by the listed moves. -/
inductive Path (m : Model) : Situation → List Move → Situation → Prop where
  /-- No move. -/
  | stay {s : Situation} : Path m s [] s
  /-- A move, then the rest. -/
  | step {s t : Situation} {v : Move} {rest : List Move} (first : v ∈ s.moves m)
      (after : Path m v.next rest t) : Path m s (v :: rest) t

/-- Whether a move brings something up: a fact that holds afterwards, the operator it applies, the method
it uses, or the task it refines. -/
def Move.Brings (m : Model) (v : Move) : Component → Prop
  | .fact f => f ∈ v.next.state
  | .operator i => v.transition = .operator i
  | .compound a => ∃ d y, v.transition = .method d ∧ m.methods[d]? = some y ∧ y.task = a
  | .method d => v.transition = .method d

/-- Whether something is met on the way that some moves lead from a situation. -/
def Model.Meets (m : Model) (s : Situation) (moves : List Move) (c : Component) : Prop :=
  (∃ f ∈ s.state, c = .fact f) ∨ ∃ v ∈ moves, v.Brings m c

/-- Whether an id names something that is met on the way. -/
def Model.MeetsId (m : Model) (s : Situation) (moves : List Move) (id : Nat) : Prop :=
  ∃ c, m.componentAt? id = some c ∧ m.Meets s moves c

variable {m : Model} {a b s : Situation} {v : Move} {moves more : List Move} {c : Component}

/-- Applying an operator brings up the operator and what holds afterwards. -/
theorem Move.brings_operator {i cost : Nat} :
    Move.Brings m ⟨.operator i, s, cost⟩ c ↔ c = .operator i ∨ ∃ f ∈ s.state, c = .fact f := by
  cases c <;> simp [Brings, eq_comm]

/-- Using a method brings up the method, its task, and what holds afterwards. -/
theorem Move.brings_method {d cost : Nat} {y : Method} (known : m.methods[d]? = some y) :
    Move.Brings m ⟨.method d, s, cost⟩ c ↔
      c = .method d ∨ c = .compound y.task ∨ ∃ f ∈ s.state, c = .fact f := by
  cases c <;> simp [Brings, known, eq_comm]

namespace Path

/-- A path goes on where another ends. -/
theorem append (h : Path m a moves s) (k : Path m s more b) : Path m a (moves ++ more) b := by
  induction h with
  | stay => exact k
  | step first _ ih => exact .step first (ih k)

/-- One more move at the end of a path. -/
theorem snoc (h : Path m a moves s) (last : v ∈ s.moves m) : Path m a (moves ++ [v]) v.next :=
  h.append (.step last .stay)

/-- **A path is known by its transitions.** -/
theorem eq_of_transitions (h : Path m a moves b) (k : Path m a more s)
    (he : moves.map (·.transition) = more.map (·.transition)) : moves = more := by
  induction h generalizing more with
  | stay => exact (List.map_eq_nil_iff.mp he.symm).symm
  | step first _ ih =>
    cases k with
    | stay => cases he
    | step first' after' =>
      obtain ⟨hfirst, hrest⟩ := List.cons.inj he
      obtain rfl := Situation.eq_of_transition_eq first first' hfirst
      rw [ih after' hrest]

end Path

namespace Model

/-- More is met on a longer way. -/
theorem meets_append : m.Meets s (moves ++ more) c ↔ m.Meets s moves c ∨ ∃ v ∈ more, v.Brings m c := by
  simp only [Meets, List.mem_append, or_and_right, exists_or, or_assoc]

/-- What is met on the way is met at its start, or brought up by its first move, or met after that. -/
theorem meets_cons : m.Meets s (v :: moves) c ↔
    (∃ f ∈ s.state, c = .fact f) ∨ v.Brings m c ∨ m.Meets v.next moves c := by
  simp only [Meets, List.mem_cons, exists_eq_or_imp]
  constructor
  · rintro (here | first | later)
    · exact .inl here
    · exact .inr (.inl first)
    · exact .inr (.inr (.inr later))
  · rintro (here | first | ⟨f, hf, rfl⟩ | later)
    · exact .inl here
    · exact .inr (.inl first)
    · exact .inr (.inl hf)
    · exact .inr (.inr later)

/-- What is met on no move holds already. -/
theorem forall_meets_nil {P : Component → Prop} (here : ∀ f ∈ s.state, P (.fact f)) :
    ∀ c, m.Meets s [] c → P c := by
  rintro c (⟨f, hf, rfl⟩ | ⟨v, hv, -⟩)
  · exact here f hf
  · exact absurd hv List.not_mem_nil

/-- A property of what holds at first, of what the first move brings up and of what is met after it is one of all
that is met. -/
theorem forall_meets_cons {P : Component → Prop} (here : ∀ f ∈ s.state, P (.fact f))
    (first : ∀ c, v.Brings m c → P c) (later : ∀ c, m.Meets v.next moves c → P c) :
    ∀ c, m.Meets s (v :: moves) c → P c := by
  intro c hc
  obtain ⟨f, hf, rfl⟩ | hc | hc := meets_cons.mp hc
  · exact here f hf
  · exact first c hc
  · exact later c hc

/-- What holds where a path ends was met on it. -/
theorem meets_of_mem_state (h : Path m a moves b) {f : Nat} (hf : f ∈ b.state) :
    m.Meets a moves (.fact f) := by
  induction h with
  | stay => exact .inl ⟨f, hf, rfl⟩
  | step _ _ ih => exact meets_cons.mpr (.inr (.inr (ih hf)))

/-- The end of a way that leads on from a path is met on the whole. -/
theorem Meets.of_append (h : Path m a moves s) (hc : m.Meets s more c) : m.Meets a (moves ++ more) c := by
  obtain ⟨f, hf, rfl⟩ | hc := hc
  · exact meets_append.mpr (.inl (meets_of_mem_state h hf))
  · exact meets_append.mpr (.inr hc)

/-- A component is met exactly if its id is. -/
theorem meetsId_idOf (hc : m.HasComponent c) : m.MeetsId s moves (m.idOf c) ↔ m.Meets s moves c := by
  rw [MeetsId, componentAt?_idOf hc]
  simp

end Model

end HierPlan
