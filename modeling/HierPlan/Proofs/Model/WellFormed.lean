import HierPlan.Model.Draft

/-!
# Proofs/Model/WellFormed — what a built problem may be relied on for

    Draft ──assemble──▸ Model ──withoutTop──▸ Model          both are well-formed

`Model.WellFormed` says that every reference leads somewhere, that all sets of facts are as wide as the
problem has facts, that tasks and methods name each other, and that components store the ids of their
positions.  **A problem that was built is well-formed** (`Draft.wellFormed_of_build`), whatever was
declared.
-/

namespace HierPlan

universe u v w

/-! ## Steps that may fail -/

/-- A computation succeeds only through both of its halves. -/
theorem exists_of_bind_eq_ok {ε : Type u} {α β : Type v} {x : Except ε α} {f : α → Except ε β} {b : β}
    (h : x >>= f = .ok b) : ∃ a, x = .ok a ∧ f a = .ok b := by
  cases x with
  | error e => cases h
  | ok a => exact ⟨a, rfl, h⟩

/-- When every element of a list succeeds, results stand where their elements did. -/
theorem getElem?_of_mapM_eq_ok {ε : Type u} {α : Type w} {β : Type v} {f : α → Except ε β}
    {xs : List α} {ys : List β} (h : xs.mapM f = .ok ys) :
    ys.length = xs.length ∧ ∀ (i : Nat) (y : β), ys[i]? = some y → ∃ x, xs[i]? = some x ∧ f x = .ok y := by
  induction xs generalizing ys with
  | nil =>
    cases h
    exact ⟨rfl, fun i y hy => by simp at hy⟩
  | cons x xs ih =>
    rw [List.mapM_cons] at h
    obtain ⟨y, hy, h⟩ := exists_of_bind_eq_ok h
    obtain ⟨ys', hys, h⟩ := exists_of_bind_eq_ok h
    cases h
    obtain ⟨hlen, hget⟩ := ih hys
    refine ⟨by rw [List.length_cons, List.length_cons, hlen], fun i z hz => ?_⟩
    match i, hz with
    | 0, hz => exact ⟨x, rfl, Option.some.inj hz ▸ hy⟩
    | i + 1, hz => exact hget i z hz

/-- Things are numbered by their places. -/
theorem mem_zipIdx {β : Type u} {xs : Array β} {b : β} {i : Nat} : (b, i) ∈ xs.toList.zipIdx ↔ xs[i]? = some b := by
  rw [List.mem_zipIdx_iff_getElem?, Array.getElem?_toList]

/-- When every element of an array succeeds at its place, results stand where their elements did. -/
theorem getElem?_of_mapM_zipIdx {ε : Type u} {α : Type w} {β : Type v} {f : Nat → α → Except ε β} {xs : Array α}
    {ys : List β} (h : xs.toList.zipIdx.mapM (fun (x, i) => f i x) = .ok ys) :
    ys.length = xs.size ∧ ∀ (i : Nat) (y : β), ys[i]? = some y → ∃ x, xs[i]? = some x ∧ f i x = .ok y := by
  obtain ⟨hlength, hget⟩ := getElem?_of_mapM_eq_ok h
  refine ⟨by rw [hlength, List.length_zipIdx, Array.length_toList], fun i y hy => ?_⟩
  obtain ⟨⟨x, j⟩, hx, hf⟩ := hget i y hy
  rw [List.getElem?_zipIdx, Option.map_eq_some_iff, Array.getElem?_toList] at hx
  obtain ⟨x', hx', he⟩ := hx
  cases he
  rw [Nat.zero_add] at hf
  exact ⟨x, hx', hf⟩

/-! ## Well-formed problems -/

/-- The operator reads and writes facts of the problem only. -/
structure Operator.WellFormed (o : Operator) (facts : Nat) : Prop where
  pre : o.pre.width = facts
  negPre : o.negPre.width = facts
  add : o.add.width = facts
  del : o.del.width = facts

/-- The method reads facts of the problem only, and every reference it makes leads somewhere. -/
structure Method.WellFormed (d : Method) (m : Model) : Prop where
  pre : d.pre.width = m.facts.size
  negPre : d.negPre.width = m.facts.size
  task : d.task < m.compounds.size
  network : ∀ t ∈ d.network, m.HasTask t

/-- Every reference leads somewhere, and tasks and methods name each other. -/
structure Model.WellFormed (m : Model) : Prop where
  operators : ∀ (i : Nat) (o : Operator), m.operators[i]? = some o → o.WellFormed m.facts.size
  methods : ∀ (i : Nat) (d : Method), m.methods[i]? = some d → d.WellFormed m
  /-- A task lists the methods that refine it. -/
  listed : ∀ (a : Nat) (t : Compound), m.compounds[a]? = some t →
    ∀ i, i ∈ t.methods ↔ ∃ d : Method, m.methods[i]? = some d ∧ d.task = a
  init : m.init.width = m.facts.size
  goal : m.goal.width = m.facts.size
  network : ∀ t ∈ m.network, m.HasTask t
  /-- What is held as a component stores its id. -/
  stored : ∀ (c : Component) (x : Item), m.item? c = some x → x.id = m.idOf c

/-- The problem has as many components of each kind as were declared. -/
structure Draft.Counts (d : Draft) (m : Model) : Prop where
  facts : m.facts.size = d.facts.size
  operators : m.operators.size = d.operators.size
  compounds : m.compounds.size = d.compounds.size
  methods : m.methods.size = d.methods.size

namespace Draft

variable {d : Draft} {m : Model}

theorem width_of_factSet {place : Place} {facts : List Nat} {s : IdSet}
    (h : d.factSet place facts = .ok s) : s.width = d.facts.size := by
  unfold factSet at h
  split at h
  · cases h
  · cases h
    exact IdSet.width_ofList ..

/-- A network that was checked is kept, and its tasks are declared. -/
theorem of_checkNetwork {place : Place} {network checked : List Task}
    (h : d.checkNetwork place network = .ok checked) :
    checked = network ∧ ∀ t ∈ network, d.hasTask t = true := by
  unfold checkNetwork at h
  split at h
  · cases h
  · rename_i hnone
    cases h
    refine ⟨rfl, fun t ht => ?_⟩
    have := List.find?_eq_none.mp hnone t ht
    simpa using this

/-- What building an operator makes sure of. -/
theorem of_buildOperator {i : Nat} {o : OperatorDraft} {built : Operator} (h : d.buildOperator i o = .ok built) :
    built.id = d.facts.size + i ∧ built.WellFormed d.facts.size := by
  unfold buildOperator at h
  obtain ⟨pre, hpre, h⟩ := exists_of_bind_eq_ok h
  obtain ⟨negPre, hneg, h⟩ := exists_of_bind_eq_ok h
  obtain ⟨add, hadd, h⟩ := exists_of_bind_eq_ok h
  obtain ⟨del, hdel, h⟩ := exists_of_bind_eq_ok h
  cases h
  exact ⟨rfl, width_of_factSet hpre, width_of_factSet hneg, width_of_factSet hadd, width_of_factSet hdel⟩

/-- What building a method makes sure of. -/
theorem of_buildMethod {i : Nat} {x : MethodDraft} {built : Method}
    (h : d.buildMethod i x = .ok built) :
    built.id = d.facts.size + d.operators.size + d.compounds.size + i ∧ built.pre.width = d.facts.size ∧
      built.negPre.width = d.facts.size ∧ built.task = x.task ∧ x.task < d.compounds.size ∧
      ∀ t ∈ built.network, d.hasTask t = true := by
  unfold buildMethod at h
  split at h
  · cases h
  · rename_i htask
    obtain ⟨network, hnet, h⟩ := exists_of_bind_eq_ok h
    obtain ⟨pre, hpre, h⟩ := exists_of_bind_eq_ok h
    obtain ⟨negPre, hneg, h⟩ := exists_of_bind_eq_ok h
    cases h
    obtain ⟨rfl, htasks⟩ := of_checkNetwork hnet
    exact ⟨rfl, width_of_factSet hpre, width_of_factSet hneg, rfl, Nat.lt_of_not_le htask, htasks⟩

/-- The methods of a task are those declared for it. -/
theorem mem_methodsOf {a i : Nat} :
    i ∈ d.methodsOf a ↔ ∃ x, d.methods[i]? = some x ∧ x.task = a := by
  rw [methodsOf, List.mem_map]
  constructor
  · rintro ⟨⟨x, j⟩, hx, rfl⟩
    rw [List.mem_filter, mem_zipIdx, beq_iff_eq] at hx
    exact ⟨x, hx⟩
  · rintro ⟨x, hx, ht⟩
    exact ⟨(x, i), List.mem_filter.mpr ⟨mem_zipIdx.mpr hx, beq_iff_eq.mpr ht⟩, rfl⟩

/-- A declared task is one of the problem, when operators and tasks are as many as declared. -/
theorem hasTask_of_declared (hops : m.operators.size = d.operators.size)
    (htasks : m.compounds.size = d.compounds.size) {t : Task} (h : d.hasTask t = true) :
    m.HasTask t := by
  cases t with
  | operator i => exact Nat.lt_of_lt_of_eq (of_decide_eq_true h) hops.symm
  | compound a => exact Nat.lt_of_lt_of_eq (of_decide_eq_true h) htasks.symm

/-- A problem is assembled from parts that were checked one by one. -/
theorem exists_of_assemble (h : d.assemble = .ok m) :
    ∃ operators methods init goal,
      d.operators.toList.zipIdx.mapM (fun (o, i) => d.buildOperator i o) = .ok operators ∧
      d.methods.toList.zipIdx.mapM (fun (x, i) => d.buildMethod i x) = .ok methods ∧
      d.factSet .init d.init = .ok init ∧ d.factSet .goal d.goal = .ok goal ∧
      (∀ t ∈ d.network, d.hasTask t = true) ∧
      m = {
        facts := d.buildFacts
        operators := operators.toArray
        compounds := d.buildCompounds
        methods := methods.toArray
        init, goal
        network := d.network } := by
  unfold assemble at h
  obtain ⟨operators, hops, h⟩ := exists_of_bind_eq_ok h
  obtain ⟨methods, hmethods, h⟩ := exists_of_bind_eq_ok h
  obtain ⟨init, hinit, h⟩ := exists_of_bind_eq_ok h
  obtain ⟨goal, hgoal, h⟩ := exists_of_bind_eq_ok h
  obtain ⟨network, hnet, h⟩ := exists_of_bind_eq_ok h
  obtain ⟨rfl, htasks⟩ := of_checkNetwork hnet
  cases h
  exact ⟨operators, methods, init, goal, hops, hmethods, hinit, hgoal, htasks, rfl⟩

/-- Nothing that was declared is left out. -/
theorem counts_of_assemble (h : d.assemble = .ok m) : d.Counts m := by
  obtain ⟨_, _, _, _, hops, hmethods, -, -, -, rfl⟩ := exists_of_assemble h
  exact ⟨Array.size_mapIdx, (getElem?_of_mapM_zipIdx (f := d.buildOperator) hops).1, Array.size_mapIdx,
    (getElem?_of_mapM_zipIdx (f := d.buildMethod) hmethods).1⟩

/-- Operators stand where they were declared. -/
theorem operator_of_assemble (h : d.assemble = .ok m) {i : Nat} {o : Operator} (known : m.operators[i]? = some o) :
    ∃ x, d.operators[i]? = some x ∧ d.buildOperator i x = .ok o := by
  obtain ⟨_, _, _, _, hops, -, -, -, -, rfl⟩ := exists_of_assemble h
  rw [List.getElem?_toArray] at known
  exact (getElem?_of_mapM_zipIdx (f := d.buildOperator) hops).2 i o known

/-- Methods stand where they were declared. -/
theorem method_of_assemble (h : d.assemble = .ok m) {i : Nat} {y : Method} (known : m.methods[i]? = some y) :
    ∃ x, d.methods[i]? = some x ∧ d.buildMethod i x = .ok y := by
  obtain ⟨_, _, _, _, -, hmethods, -, -, -, rfl⟩ := exists_of_assemble h
  rw [List.getElem?_toArray] at known
  exact (getElem?_of_mapM_zipIdx (f := d.buildMethod) hmethods).2 i y known

/-- Tasks stand where they were declared, with the methods declared for them. -/
theorem compound_of_assemble (h : d.assemble = .ok m) {a : Nat} {t : Compound} (known : m.compounds[a]? = some t) :
    t.id = d.facts.size + d.operators.size + a ∧ d.compounds[a]? = some t.name ∧ t.methods = d.methodsOf a := by
  obtain ⟨_, _, _, _, -, -, -, -, -, rfl⟩ := exists_of_assemble h
  rw [buildCompounds, Array.getElem?_mapIdx, Option.map_eq_some_iff] at known
  obtain ⟨name, declared, rfl⟩ := known
  exact ⟨rfl, declared, rfl⟩

/-- Facts stand where they were declared. -/
theorem fact_of_assemble (h : d.assemble = .ok m) {i : Nat} {f : Fact} (known : m.facts[i]? = some f) :
    f.id = i ∧ d.facts[i]? = some f.name := by
  obtain ⟨_, _, _, _, -, -, -, -, -, rfl⟩ := exists_of_assemble h
  rw [buildFacts, Array.getElem?_mapIdx, Option.map_eq_some_iff] at known
  obtain ⟨name, declared, rfl⟩ := known
  exact ⟨rfl, declared⟩

/-- **Ids are given out by position.** -/
theorem stored_of_assemble (h : d.assemble = .ok m) {c : Component} {x : Item} (hx : m.item? c = some x) :
    x.id = m.idOf c := by
  have hcounts := counts_of_assemble h
  cases c with
  | fact i =>
    obtain ⟨f, hf, rfl⟩ := Option.map_eq_some_iff.mp hx
    exact (fact_of_assemble h hf).1
  | operator i =>
    obtain ⟨o, ho, rfl⟩ := Option.map_eq_some_iff.mp hx
    obtain ⟨_, -, built⟩ := operator_of_assemble h ho
    rw [Model.idOf, Model.operatorId, hcounts.facts]
    exact (of_buildOperator built).1
  | compound a =>
    obtain ⟨t, ht, rfl⟩ := Option.map_eq_some_iff.mp hx
    rw [Model.idOf, Model.compoundId, hcounts.facts, hcounts.operators]
    exact (compound_of_assemble h ht).1
  | method i =>
    obtain ⟨y, hy, rfl⟩ := Option.map_eq_some_iff.mp hx
    obtain ⟨_, -, built⟩ := method_of_assemble h hy
    rw [Model.idOf, Model.methodId, hcounts.facts, hcounts.operators, hcounts.compounds]
    exact (of_buildMethod built).1

/-- **A problem as declared is well-formed.** -/
theorem wellFormed_of_assemble (h : d.assemble = .ok m) : m.WellFormed := by
  have hcounts := counts_of_assemble h
  obtain ⟨_, _, _, _, -, -, hinit, hgoal, htasks, hm⟩ := exists_of_assemble h
  have hknown : ∀ t, d.hasTask t = true → m.HasTask t := fun t ht =>
    hasTask_of_declared hcounts.operators hcounts.compounds ht
  refine ⟨fun i o ho => ?_, fun i y hy => ?_, fun a t ht i => ?_, ?_, ?_, ?_, fun c x hx => stored_of_assemble h hx⟩
  · obtain ⟨_, -, built⟩ := operator_of_assemble h ho
    exact hcounts.facts ▸ (of_buildOperator built).2
  · obtain ⟨_, -, built⟩ := method_of_assemble h hy
    obtain ⟨-, hpre, hneg, htask, hlt, hsub⟩ := of_buildMethod built
    exact ⟨hpre.trans hcounts.facts.symm, hneg.trans hcounts.facts.symm,
      htask ▸ Nat.lt_of_lt_of_eq hlt hcounts.compounds.symm, fun t ht => hknown t (hsub t ht)⟩
  · rw [(compound_of_assemble h ht).2.2, mem_methodsOf]
    constructor
    · rintro ⟨x, hx, rfl⟩
      have hi : i < m.methods.size :=
        Nat.lt_of_lt_of_eq (Array.getElem?_eq_some_iff.mp hx).1 hcounts.methods.symm
      have hy := Array.getElem?_eq_getElem hi
      obtain ⟨x', hx', built⟩ := method_of_assemble h hy
      obtain rfl := Option.some.inj (hx'.symm.trans hx)
      exact ⟨_, hy, (of_buildMethod built).2.2.2.1⟩
    · rintro ⟨y, hy, rfl⟩
      obtain ⟨x, hx, built⟩ := method_of_assemble h hy
      exact ⟨x, hx, (of_buildMethod built).2.2.2.1.symm⟩
  · rw [hcounts.facts, hm]
    exact width_of_factSet hinit
  · rw [hcounts.facts, hm]
    exact width_of_factSet hgoal
  · intro t ht
    rw [hm] at ht
    exact hknown t (htasks t ht)

end Draft

/-- **A top method is the only one of the only task to be done.** -/
theorem Model.topMethod?_eq_some {m : Model} {y : Method} (h : m.topMethod? = some y) :
    ∃ a d x, m.network = [.compound a] ∧ m.compounds[a]? = some x ∧ x.methods = [d] ∧
      m.methods[d]? = some y := by
  unfold topMethod? at h
  split at h
  · rename_i a hnet
    split at h
    · rename_i x hx
      split at h
      · split at h
        · rename_i d hd
          exact ⟨a, d, x, hnet, hx, hd, h⟩
        · cases h
      · cases h
    · cases h
  · cases h

/-- **Unwrapping a top task keeps a problem well-formed**: the network of its method was checked. -/
theorem Model.WellFormed.withoutTop {m : Model} (h : m.WellFormed) : m.withoutTop.WellFormed := by
  have hmethods : ∀ (network : List Task) (i : Nat) (d : Method), m.methods[i]? = some d →
      d.WellFormed { m with network } := fun _ i d hd =>
    ⟨(h.methods i d hd).pre, (h.methods i d hd).negPre, (h.methods i d hd).task, (h.methods i d hd).network⟩
  unfold Model.withoutTop
  split
  · rename_i network hnet
    obtain ⟨y, hy, rfl⟩ := Option.map_eq_some_iff.mp hnet
    obtain ⟨_, d, _, _, _, _, chosen⟩ := Model.topMethod?_eq_some hy
    exact ⟨h.operators, hmethods _, h.listed, h.init, h.goal, (h.methods d y chosen).network,
      fun
        | .fact i => h.stored (.fact i)
        | .operator i => h.stored (.operator i)
        | .compound a => h.stored (.compound a)
        | .method i => h.stored (.method i)⟩
  · exact h

namespace Draft

variable {d : Draft} {m : Model}

/-- A built problem is an assembled one without its top task, and there is something to do. -/
theorem exists_of_build (h : d.build = .ok m) :
    ∃ m₀, d.assemble = .ok m₀ ∧ m = m₀.withoutTop ∧ m.network ≠ [] := by
  unfold build at h
  obtain ⟨m₀, hm₀, h⟩ := exists_of_bind_eq_ok h
  split at h
  · cases h
  · rename_i hne
    cases h
    refine ⟨m₀, hm₀, rfl, fun hnil => hne ?_⟩
    rw [hnil]
    rfl

/-- **A built problem is well-formed.** -/
theorem wellFormed_of_build (h : d.build = .ok m) : m.WellFormed := by
  obtain ⟨m₀, hm₀, rfl, -⟩ := exists_of_build h
  exact (wellFormed_of_assemble hm₀).withoutTop

end Draft

/-! ## A lamp

Small enough to be searched by hand: a lamp is lit by its switch or, at greater cost, by a spark.
Nothing ever pays the bill. -/

/-- The lamp as declared; facts are `lit` and `paid`. -/
def Draft.lamp (goal : List Nat) : Draft where
  facts := #["lit", "paid"]
  operators := #[⟨"spark", 5, [], [], [0], []⟩, ⟨"switch", 3, [], [], [0], []⟩]
  compounds := #["light"]
  methods := #[⟨"by-spark", 0, [], [], [.operator 0]⟩, ⟨"by-switch", 0, [], [], [.operator 1]⟩]
  goal
  network := [.compound 0]

/-- The lamp as built. -/
def Model.lamp (goal : List Nat) : Model where
  facts := #[⟨0, "lit"⟩, ⟨1, "paid"⟩]
  operators := #[⟨2, "spark", 5, .ofList 2 [], .ofList 2 [], .ofList 2 [0], .ofList 2 []⟩,
    ⟨3, "switch", 3, .ofList 2 [], .ofList 2 [], .ofList 2 [0], .ofList 2 []⟩]
  compounds := #[⟨4, "light", [0, 1]⟩]
  methods := #[⟨5, "by-spark", 0, .ofList 2 [], .ofList 2 [], [.operator 0]⟩,
    ⟨6, "by-switch", 0, .ofList 2 [], .ofList 2 [], [.operator 1]⟩]
  init := .ofList 2 []
  goal := .ofList 2 goal
  network := [.compound 0]

example : (Draft.lamp [0]).build = .ok (Model.lamp [0]) := rfl

end HierPlan
