import HierPlan.Path
import HierPlan.Proofs.Graph.Closure

/-!
# Proofs/Graph/Passage — what a path meets, a graph derives from what the path meets

        up      preconditions ──▸ operator,     preconditions, subtasks ──▸ method ──▸ task
        down    preconditions, recomposition ──▸ operator,     preconditions, task ──▸ method ──▸ subtasks

An execution only ever needs what is met on its way: no node outside has to be derived.  Going up, a task is
derived where all of it was done, so a path that leaves nothing open derives every task it had to do
(`Path.closesUp`); going down, a task is derived before anything of it is done (`Path.closesDown`).  Hence a set
that is closed under the rules of a graph **as far as a path goes** holds everything the path meets.
-/

namespace HierPlan

variable {m : Model} {a b s : Situation} {v : Move} {moves : List Move} {S : Component → Prop}
  {K : Nat → Prop}

/-! ## Moves -/

/-- What a move does: it applies the operator in front, or puts the network of a method in place of the task
that this refines. -/
inductive Situation.Moved (m : Model) : Situation → Move → Prop where
  | operator {state : IdSet} {rest : List Task} {i : Nat} {o : Operator}
      (known : m.operators[i]? = some o) (applicable : o.applicable state = true) :
      Moved m ⟨state, .operator i :: rest⟩ ⟨.operator i, ⟨o.apply state, rest⟩, o.cost⟩
  | method {state : IdSet} {rest : List Task} {d : Nat} {y : Method}
      (known : m.methods[d]? = some y) (applicable : y.applicable state = true) :
      Moved m ⟨state, .compound y.task :: rest⟩ ⟨.method d, ⟨state, y.network ++ rest⟩, 0⟩

/-- **Every move of a well-formed problem is one of these.** -/
theorem Situation.moved (hw : m.WellFormed) (hv : v ∈ s.moves m) : s.Moved m v := by
  obtain ⟨state, network⟩ := s
  match network, hv with
  | [], hv => exact absurd hv List.not_mem_nil
  | .operator i :: rest, hv =>
    obtain ⟨o, known, applicable, rfl⟩ := mem_moves_operator.mp hv
    exact .operator known applicable
  | .compound a :: rest, hv =>
    obtain ⟨x, known, d, listed, y, chosen, applicable, rfl⟩ := mem_moves_compound.mp hv
    obtain ⟨y', chosen', rfl⟩ := (hw.listed a x known d).mp listed
    obtain rfl := Option.some.inj (chosen.symm.trans chosen')
    exact .method chosen applicable

/-- **A path that leaves nothing open meets every task it had to do.** -/
theorem Path.meets_of_mem_network (hw : m.WellFormed) (h : Path m a moves b) (hb : b.network = []) :
    ∀ t ∈ a.network, m.Meets a moves t.component := by
  induction h with
  | stay => exact fun t ht => absurd (hb ▸ ht) List.not_mem_nil
  | @step a b v rest first _ ih =>
    have later : ∀ t ∈ v.next.network, m.Meets a (v :: rest) t.component := fun t ht =>
      Model.meets_cons.mpr (.inr (.inr (ih hb t ht)))
    cases Situation.moved hw first with
    | operator known =>
      exact List.forall_mem_cons.mpr ⟨Model.meets_cons.mpr (.inr (.inl rfl)), later⟩
    | method known =>
      refine List.forall_mem_cons.mpr ⟨Model.meets_cons.mpr (.inr (.inl ?_)), fun t ht => ?_⟩
      · exact ⟨_, _, rfl, known, rfl⟩
      · exact later t (List.mem_append_right _ ht)

/-! ## Going up -/

/-- A set of ids that holds what comes of doing the components in `S`, tasks after their methods. -/
structure Model.ClosesUp (m : Model) (S : Component → Prop) (K : Nat → Prop) : Prop where
  operator : ∀ (i : Nat) (o : Operator), m.operators[i]? = some o → S (.operator i) →
    (∀ f ∈ o.pre, K f) → K (m.operatorId i)
  effect : ∀ (i : Nat) (o : Operator), m.operators[i]? = some o → K (m.operatorId i) →
    ∀ f ∈ o.add, S (.fact f) → K f
  method : ∀ (d : Nat) (y : Method), m.methods[d]? = some y → S (.method d) → (∀ f ∈ y.pre, K f) →
    (∀ t ∈ y.network, K (m.taskId t)) → K (m.methodId d)
  compound : ∀ (d : Nat) (y : Method), m.methods[d]? = some y → S (.compound y.task) →
    K (m.methodId d) → K (m.compoundId y.task)

/-- Operators make true what is met only. -/
theorem forall_mem_apply {o : Operator} {state : IdSet} (hs : ∀ f ∈ state, K f)
    (effect : ∀ f ∈ o.add, S (.fact f) → K f) (met : ∀ f ∈ o.apply state, S (.fact f)) :
    ∀ f ∈ o.apply state, K f := by
  intro f hf
  obtain ⟨hfs, -⟩ | ⟨hadd, -⟩ := Operator.mem_apply.mp hf
  exacts [hs f hfs, effect f hadd (met f hf)]

/-- **A move keeps to a set that closes over what it brings up**: the facts of the next situation are in it, and
where its tasks are, so are those of this one and what was brought up. -/
theorem Situation.Moved.closesUp (h : s.Moved m v) (hK : m.ClosesUp S K) (hS : ∀ c, v.Brings m c → S c)
    (hs : ∀ f ∈ s.state, K f) :
    (∀ f ∈ v.next.state, K f) ∧ ((∀ t ∈ v.next.network, K (m.taskId t)) →
      (∀ c, v.Brings m c → K (m.idOf c)) ∧ ∀ t ∈ s.network, K (m.taskId t)) := by
  cases h with
  | @operator state rest i o known applicable =>
    have hop := hK.operator i o known (hS (.operator i) rfl) fun f hf =>
      hs f ((Operator.applicable_iff.mp applicable).1 f hf)
    have hnext := forall_mem_apply hs (hK.effect i o known hop) fun f hf => hS (.fact f) hf
    refine ⟨hnext, fun hrest => ⟨fun c hc => ?_, List.forall_mem_cons.mpr ⟨hop, hrest⟩⟩⟩
    obtain rfl | ⟨f, hf, rfl⟩ := Move.brings_operator.mp hc
    exacts [hop, hnext f hf]
  | @method state rest d y known applicable =>
    refine ⟨hs, fun htasks => ?_⟩
    obtain ⟨hparts, hrest⟩ := List.forall_mem_append.mp htasks
    have hmethod := hK.method d y known (hS (.method d) rfl)
      (fun f hf => hs f ((Method.applicable_iff.mp applicable).1 f hf)) hparts
    have htask := hK.compound d y known (hS (.compound y.task) ⟨d, y, rfl, known, rfl⟩) hmethod
    refine ⟨fun c hc => ?_, List.forall_mem_cons.mpr ⟨htask, hrest⟩⟩
    obtain rfl | rfl | ⟨f, hf, rfl⟩ := (Move.brings_method known).mp hc
    exacts [hmethod, htask, hs f hf]

/-- **A set that closes over what a path meets holds all of that, and the tasks the path had to do**, if the
path leaves nothing open. -/
theorem Path.closesUp (hw : m.WellFormed) (h : Path m a moves b) (hb : b.network = [])
    (hK : m.ClosesUp S K) (hS : ∀ c, m.Meets a moves c → S c) (ha : ∀ f ∈ a.state, K f) :
    (∀ c, m.Meets a moves c → K (m.idOf c)) ∧ ∀ t ∈ a.network, K (m.taskId t) := by
  induction h with
  | stay => exact ⟨Model.forall_meets_nil ha, fun t ht => absurd (hb ▸ ht) List.not_mem_nil⟩
  | @step a b v rest first _ ih =>
    have brought : ∀ c, v.Brings m c → S c := fun c hc => hS c (Model.meets_cons.mpr (.inr (.inl hc)))
    have met : ∀ c, m.Meets v.next rest c → S c := fun c hc => hS c (Model.meets_cons.mpr (.inr (.inr hc)))
    -- Facts are passed on along the path, tasks are handed back from its end.
    obtain ⟨hnext, hback⟩ := (Situation.moved hw first).closesUp hK brought ha
    obtain ⟨hmeets, hopen⟩ := ih hb met hnext
    obtain ⟨hbrings, htasks⟩ := hback hopen
    exact ⟨Model.forall_meets_cons ha hbrings hmeets, htasks⟩

/-! ## Going down -/

/-- A set of ids that holds what comes of doing the components in `S`, tasks before their methods. -/
structure Model.ClosesDown (m : Model) (S : Component → Prop) (K : Nat → Prop) : Prop where
  operator : ∀ (i : Nat) (o : Operator), m.operators[i]? = some o → S (.operator i) →
    (∀ f ∈ o.pre, K f) → K (View.recompositionId m i) → K (m.operatorId i)
  effect : ∀ (i : Nat) (o : Operator), m.operators[i]? = some o → K (m.operatorId i) →
    ∀ f ∈ o.add, S (.fact f) → K f
  method : ∀ (d : Nat) (y : Method), m.methods[d]? = some y → S (.method d) → (∀ f ∈ y.pre, K f) →
    K (m.compoundId y.task) → K (m.methodId d)
  part : ∀ (d : Nat) (y : Method), m.methods[d]? = some y → K (m.methodId d) →
    ∀ t ∈ y.network, S t.component → K (View.topDown.subtaskId m t)

/-- Whether a set holds the nodes of a component: its own and, for an operator, the recomposition node. -/
def Component.HeldDown (m : Model) (K : Nat → Prop) (c : Component) : Prop :=
  K (m.idOf c) ∧ ∀ i, c = .operator i → K (View.recompositionId m i)

theorem Component.heldDown_fact {f : Nat} (hf : K f) : (Component.fact f).HeldDown m K :=
  ⟨hf, fun _ h => nomatch h⟩

/-- **A move keeps to a set that closes over what it brings up** and that holds the tasks before they are done. -/
theorem Situation.Moved.closesDown (h : s.Moved m v) (hK : m.ClosesDown S K) (hS : ∀ c, v.Brings m c → S c)
    (hopen : ∀ t ∈ v.next.network, S t.component) (hs : ∀ f ∈ s.state, K f)
    (htasks : ∀ t ∈ s.network, K (View.topDown.subtaskId m t)) :
    (∀ f ∈ v.next.state, K f) ∧ (∀ t ∈ v.next.network, K (View.topDown.subtaskId m t)) ∧
      ∀ c, v.Brings m c → c.HeldDown m K := by
  cases h with
  | @operator state rest i o known applicable =>
    obtain ⟨hrecomposed, hrest⟩ := List.forall_mem_cons.mp htasks
    have hop := hK.operator i o known (hS (.operator i) rfl)
      (fun f hf => hs f ((Operator.applicable_iff.mp applicable).1 f hf)) hrecomposed
    have hnext := forall_mem_apply hs (hK.effect i o known hop) fun f hf => hS (.fact f) hf
    refine ⟨hnext, hrest, fun c hc => ?_⟩
    obtain rfl | ⟨f, hf, rfl⟩ := Move.brings_operator.mp hc
    · exact ⟨hop, fun j hj => Component.operator.inj hj ▸ hrecomposed⟩
    · exact Component.heldDown_fact (hnext f hf)
  | @method state rest d y known applicable =>
    obtain ⟨htask, hrest⟩ := List.forall_mem_cons.mp htasks
    have hmethod := hK.method d y known (hS (.method d) rfl)
      (fun f hf => hs f ((Method.applicable_iff.mp applicable).1 f hf)) htask
    have hparts : ∀ t ∈ y.network, K (View.topDown.subtaskId m t) := fun t ht =>
      hK.part d y known hmethod t ht (hopen t (List.mem_append_left _ ht))
    refine ⟨hs, List.forall_mem_append.mpr ⟨hparts, hrest⟩, fun c hc => ?_⟩
    obtain rfl | rfl | ⟨f, hf, rfl⟩ := (Move.brings_method known).mp hc
    · exact ⟨hmethod, fun _ hj => nomatch hj⟩
    · exact ⟨htask, fun _ hj => nomatch hj⟩
    · exact Component.heldDown_fact (hs f hf)

/-- **A set that closes over what a path meets holds all of that**, and the recomposition nodes of the operators
met, if it holds the tasks the path has to do and the path leaves nothing open. -/
theorem Path.closesDown (hw : m.WellFormed) (h : Path m a moves b) (hb : b.network = [])
    (hK : m.ClosesDown S K) (hS : ∀ c, m.Meets a moves c → S c) (ha : ∀ f ∈ a.state, K f)
    (htasks : ∀ t ∈ a.network, K (View.topDown.subtaskId m t)) :
    ∀ c, m.Meets a moves c → c.HeldDown m K := by
  induction h with
  | stay => exact Model.forall_meets_nil fun f hf => Component.heldDown_fact (ha f hf)
  | @step a b v rest first after ih =>
    have brought : ∀ c, v.Brings m c → S c := fun c hc => hS c (Model.meets_cons.mpr (.inr (.inl hc)))
    have met : ∀ c, m.Meets v.next rest c → S c := fun c hc => hS c (Model.meets_cons.mpr (.inr (.inr hc)))
    obtain ⟨hnext, hopen, hbrings⟩ := (Situation.moved hw first).closesDown hK brought
      (fun t ht => met _ (after.meets_of_mem_network hw hb t ht)) ha htasks
    exact Model.forall_meets_cons (fun f hf => Component.heldDown_fact (ha f hf)) hbrings
      (ih hb met hnext hopen)

/-! ## Graphs -/

namespace View

variable {T : Nat → Prop}

/-- **What the bottom-up graph derives among the ids of `S` closes upwards.** -/
theorem closesUp (hw : m.WellFormed) (hK : (View.bottomUp.graph m).ClosedWithin T K)
    (hT : ∀ c, m.HasComponent c → S c → T (m.idOf c)) : m.ClosesUp S K where
  operator i o known hS hpre := by
    have hi := (Array.getElem?_eq_some_iff.mp known).1
    refine of_feeds_all hw hK (label_operator hi) rfl (hT (.operator i) hi hS) fun p hp => ?_
    exact hpre p ((Feeds.to_operator (v := .bottomUp) hw (fun h => nomatch h) known).mp hp).2
  effect i o known hop f hf hS :=
    have hlt : f < m.facts.size := (hw.operators _ _ known).add ▸ IdSet.lt_width_of_mem hf
    of_effect hw hK rfl known hop hf (hT (.fact f) hlt hS)
  method d y known hS hpre hparts := by
    have hd := (Array.getElem?_eq_some_iff.mp known).1
    refine of_feeds_all hw hK (label_method hd) rfl (hT (.method d) hd hS) fun p hp => ?_
    obtain ⟨-, hin⟩ | ⟨t, ht, rfl⟩ := (Feeds.to_method (v := .bottomUp) hw (fun h => nomatch h) known).mp hp
    · exact hpre p hin
    · cases t <;> exact hparts _ ht
  compound d y known hS hin := by
    have ha := (hw.methods _ _ known).task
    have hrule := taskRule_ne_all (m := m) (v := .bottomUp) (.compound y.task)
    exact of_feeds_any hw hK (label_compound ha) hrule (hT (.compound y.task) ha hS)
      (.refines (fun h => nomatch h) known) hin

/-- The node of a subtask has a label that does not ask for all that feeds it. -/
theorem exists_label_subtask {t : Task} (ht : m.HasTask t) :
    ∃ l, View.topDown.label m (View.topDown.subtaskId m t) = some l ∧
      l.rule = View.topDown.taskRule m t := by
  cases t with
  | compound a => exact ⟨_, label_compound ht, rfl⟩
  | operator i =>
    have hi : i < m.operators.size := ht
    refine ⟨⟨.recomposition, View.topDown.taskRule m (.operator i), 0⟩, ?_, rfl⟩
    rw [subtaskId, recompositionId, label_size_add, extraLabel, if_pos hi]

/-- **What the top-down graph derives among the nodes of `S` closes downwards.** -/
theorem closesDown (hw : m.WellFormed) (hK : (View.topDown.graph m).ClosedWithin T K)
    (hT : ∀ c, m.HasComponent c → S c → T (m.idOf c))
    (hR : ∀ t, m.HasTask t → S t.component → T (View.topDown.subtaskId m t)) : m.ClosesDown S K where
  operator i o known hS hpre hasked := by
    have hi := (Array.getElem?_eq_some_iff.mp known).1
    refine of_feeds_all hw hK (label_operator hi) rfl (hT (.operator i) hi hS) fun p hp => ?_
    obtain hin | rfl := Feeds.of_operator_down hw known hp
    exacts [hpre p hin, hasked]
  effect i o known hop f hf hS :=
    have hlt : f < m.facts.size := (hw.operators _ _ known).add ▸ IdSet.lt_width_of_mem hf
    of_effect hw hK rfl known hop hf (hT (.fact f) hlt hS)
  method d y known hS hpre hin := by
    have hd := (Array.getElem?_eq_some_iff.mp known).1
    refine of_feeds_all hw hK (label_method hd) rfl (hT (.method d) hd hS) fun p hp => ?_
    obtain hp | rfl := Feeds.of_method_down hw known hp
    exacts [hpre p hp, hin]
  part d y known hin t ht hS := by
    have hhas := (hw.methods _ _ known).network t ht
    obtain ⟨l, hl, hr⟩ := exists_label_subtask hhas
    refine of_feeds_any hw hK hl ?_ (hR t hhas hS) (.part rfl known ht) hin
    rw [hr]
    exact taskRule_ne_all t

/-- The tasks of the start are given, where tasks feed their methods. -/
theorem of_network (hw : m.WellFormed) (hK : (View.topDown.graph m).ClosedWithin T K) {t : Task}
    (ht : t ∈ m.network) (hid : T (View.topDown.subtaskId m t)) : K (View.topDown.subtaskId m t) := by
  obtain ⟨l, hl, hr⟩ := exists_label_subtask (hw.network t ht)
  refine of_given hK hl ?_ hid
  rw [hr, taskRule, if_pos ⟨rfl, ht⟩]

end View

end HierPlan
