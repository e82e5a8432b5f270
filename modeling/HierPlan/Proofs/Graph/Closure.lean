import HierPlan.Execution
import HierPlan.Proofs.Graph.Incoming

/-!
# Proofs/Graph/Closure — executions stay among what a graph derives

A set of ids is closed when it holds whatever the rules of a graph derive from it.  Forgetting what is
deleted and what must not hold, an execution applies those rules:

    facts of the state ∪ closed ──execution──▸ the facts at the end and the tasks done are in it

**So a closed set around the facts of a state holds the tasks of every network that can be carried out
from there, and every fact that can be made true on the way** (`Execution.closes`).
-/

namespace HierPlan

/-- A set of ids that holds what the rules of a graph derive from it. -/
structure AndOrGraph.Closed (g : AndOrGraph) (K : Nat → Prop) : Prop where
  given : ∀ (id : Nat) (n : GraphNode), g.node? id = some n → n.rule = .given → K id
  any : ∀ (id : Nat) (n : GraphNode), g.node? id = some n → n.rule = .any →
    ∀ p ∈ n.predecessors, K p → K id
  all : ∀ (id : Nat) (n : GraphNode), g.node? id = some n → n.rule = .all →
    (∀ p ∈ n.predecessors, K p) → K id

/-- A set of ids that holds what the rules of a graph derive from it, as far as `S` goes. -/
structure AndOrGraph.ClosedWithin (g : AndOrGraph) (S K : Nat → Prop) : Prop where
  given : ∀ (id : Nat) (n : GraphNode), g.node? id = some n → n.rule = .given → S id → K id
  any : ∀ (id : Nat) (n : GraphNode), g.node? id = some n → n.rule = .any → S id →
    ∀ p ∈ n.predecessors, K p → K id
  all : ∀ (id : Nat) (n : GraphNode), g.node? id = some n → n.rule = .all → S id →
    (∀ p ∈ n.predecessors, K p) → K id

/-- A closed set is closed as far as anything goes. -/
theorem AndOrGraph.Closed.within {g : AndOrGraph} {K : Nat → Prop} (h : g.Closed K) (S : Nat → Prop) :
    g.ClosedWithin S K :=
  ⟨fun id n here rule _ => h.given id n here rule, fun id n here rule _ => h.any id n here rule,
    fun id n here rule _ => h.all id n here rule⟩

/-- A set of ids that holds what doing tasks brings about, when only the operators in `used` are
applied; `sub` names tasks. -/
structure Model.Closes (m : Model) (sub : Task → Nat) (used : Nat → Prop) (K : Nat → Prop) : Prop where
  operator : ∀ (i : Nat) (o : Operator), used i → m.operators[i]? = some o →
    (∀ f ∈ o.pre, K f) → K (m.operatorId i)
  effect : ∀ (i : Nat) (o : Operator), used i → m.operators[i]? = some o → K (m.operatorId i) →
    ∀ f ∈ o.add, K f
  subtask : ∀ i, used i → i < m.operators.size → K (m.operatorId i) → K (sub (.operator i))
  method : ∀ (i : Nat) (d : Method), m.methods[i]? = some d → (∀ f ∈ d.pre, K f) →
    (∀ t ∈ d.network, K (sub t)) → K (m.methodId i)
  compound : ∀ (i : Nat) (d : Method), m.methods[i]? = some d → K (m.methodId i) →
    K (sub (.compound d.task))

/-- With fewer operators in use a set closes all the more. -/
theorem Model.Closes.mono {m : Model} {sub : Task → Nat} {used fewer : Nat → Prop} {K : Nat → Prop}
    (h : m.Closes sub used K) (hu : ∀ i, fewer i → used i) : m.Closes sub fewer K :=
  ⟨fun i o hi => h.operator i o (hu i hi), fun i o hi => h.effect i o (hu i hi),
    fun i hi => h.subtask i (hu i hi), h.method, h.compound⟩

/-- **An execution stays in a set that closes**: it holds the facts at the end and the tasks done. -/
theorem Execution.closes {m : Model} (hw : m.WellFormed) {sub : Task → Nat} {K : Nat → Prop}
    {s t : IdSet} {network : List Task} {plan : List Nat} (h : Execution m s network plan t)
    (hK : m.Closes sub (· ∈ plan) K) (hs : ∀ f ∈ s, K f) :
    (∀ f ∈ t, K f) ∧ ∀ x ∈ network, K (sub x) := by
  induction h with
  | done => exact ⟨hs, fun x hx => absurd hx List.not_mem_nil⟩
  | @operator s t i o rest plan known applicable after ih =>
    have hi := (Array.getElem?_eq_some_iff.mp known).1
    have hop : K (m.operatorId i) :=
      hK.operator i o List.mem_cons_self known fun f hf =>
        hs f ((Operator.applicable_iff.mp applicable).1 f hf)
    have hstate : ∀ f ∈ o.apply s, K f := by
      intro f hf
      rcases Operator.mem_apply.mp hf with ⟨hfs, -⟩ | ⟨hadd, -⟩
      · exact hs f hfs
      · exact hK.effect i o List.mem_cons_self known hop f hadd
    obtain ⟨hend, htasks⟩ := ih (hK.mono fun j hj => List.mem_cons_of_mem i hj) hstate
    exact ⟨hend, List.forall_mem_cons.mpr
      ⟨hK.subtask i List.mem_cons_self hi hop, htasks⟩⟩
  | @compound s u t a d x y rest plan more known listed chosen applicable inside after ih₁ ih₂ =>
    obtain ⟨hmid, hsub⟩ := ih₁ (hK.mono fun j hj => List.mem_append_left more hj) hs
    obtain ⟨hend, htasks⟩ := ih₂ (hK.mono fun j hj => List.mem_append_right plan hj) hmid
    have htask : y.task = a := by
      obtain ⟨y', chosen', rfl⟩ := (hw.listed a x known d).mp listed
      rw [Option.some.inj (chosen.symm.trans chosen')]
    have hmethod : K (m.methodId d) :=
      hK.method d y chosen (fun f hf => hs f ((Method.applicable_iff.mp applicable).1 f hf)) hsub
    exact ⟨hend, List.forall_mem_cons.mpr ⟨htask ▸ hK.compound d y chosen hmethod, htasks⟩⟩

/-- The operators of an execution are operators of the problem. -/
theorem Execution.lt_of_mem_plan {m : Model} {s t : IdSet} {network : List Task} {plan : List Nat}
    (h : Execution m s network plan t) : ∀ i ∈ plan, i < m.operators.size := by
  induction h with
  | done => exact fun i hi => absurd hi List.not_mem_nil
  | operator known _ _ ih =>
    exact List.forall_mem_cons.mpr ⟨(Array.getElem?_eq_some_iff.mp known).1, ih⟩
  | compound _ _ _ _ _ _ inner outer => exact List.forall_mem_append.mpr ⟨inner, outer⟩

/-- The tasks of a network that can be carried out are tasks of the problem. -/
theorem Execution.hasTask {m : Model} {s t : IdSet} {network : List Task} {plan : List Nat}
    (h : Execution m s network plan t) : ∀ x ∈ network, m.HasTask x := by
  induction h with
  | done => exact fun x hx => absurd hx List.not_mem_nil
  | operator known _ _ ih =>
    exact List.forall_mem_cons.mpr ⟨(Array.getElem?_eq_some_iff.mp known).1, ih⟩
  | compound known _ _ _ _ _ _ outer =>
    exact List.forall_mem_cons.mpr ⟨(Array.getElem?_eq_some_iff.mp known).1, outer⟩

namespace View

variable {m : Model} {v : View} {K : Nat → Prop}

/-- **A set that goes along with what feeds what closes.**  Of the nodes that need all that feeds them,
the goal and unused operators are no matter. -/
theorem closes_of_feeds (hw : m.WellFormed) (hv : v ≠ .topDown) (hf : v.hasFacts = true)
    {used : Nat → Prop}
    (any : ∀ (id p : Nat) (l : NodeLabel), v.label m id = some l → l.rule ≠ .all →
      v.Feeds m p id → K p → K id)
    (all : ∀ (id : Nat) (l : NodeLabel), v.label m id = some l → l.rule = .all → l.kind ≠ .goal →
      (∀ i, i < m.operators.size → id = m.operatorId i → used i) →
      (∀ p, v.Feeds m p id → K p) → K id) :
    m.Closes (v.subtaskId m) used K := by
  refine ⟨fun i o hused known hpre => ?_, fun i o _ known hop f hadd => ?_, fun i _ hi hop => ?_,
    fun i d known hpre hsub => ?_, fun i d known hin => ?_⟩
  · have hi := (Array.getElem?_eq_some_iff.mp known).1
    refine all _ _ (label_operator hi) rfl (fun h => nomatch h) (fun j _ he => ?_) fun p hp => ?_
    · obtain rfl : i = j := Nat.add_left_cancel he
      exact hused
    · exact hpre p ((Feeds.to_operator hw hv known).mp hp).2
  · have hlt := (hw.operators _ _ known).add ▸ IdSet.lt_width_of_mem hadd
    refine any _ _ _ (label_fact hf hlt) ?_ (.effect hf known hadd) hop
    dsimp only
    split <;> exact fun h => nomatch h
  · cases v with
    | topDown => exact absurd rfl hv
    | bottomUp => exact hop
    | decomposition w => exact hop
    | composition =>
      exact any _ _ _ (label_recomposition hi) (fun h => nomatch h) (.recompose rfl hi) hop
  · have hi := (Array.getElem?_eq_some_iff.mp known).1
    refine all _ _ (label_method hi) rfl (fun h => nomatch h) (fun j hj he => ?_) fun p hp => ?_
    · simp only [Model.methodId, Model.operatorId] at he
      omega
    · rcases (Feeds.to_method hw hv known).mp hp with ⟨-, hpin⟩ | ⟨t, ht, rfl⟩
      · exact hpre p hpin
      · exact hsub t ht
  · have ha := (hw.methods _ _ known).task
    exact any _ _ _ (label_compound ha) (taskRule_ne_all _) (.refines hv known) hin

/-- A node that is given is in a closed set. -/
theorem of_given {S : Nat → Prop} (hK : (v.graph m).ClosedWithin S K) {id : Nat} {l : NodeLabel}
    (hl : v.label m id = some l) (hr : l.rule = .given) (hid : S id) : K id := by
  obtain ⟨n, hn, rfl⟩ := exists_node hl
  exact hK.given id n hn hr hid

/-- Facts that hold at the start are given, where facts are. -/
theorem of_init (hw : m.WellFormed) {S : Nat → Prop} (hK : (v.graph m).ClosedWithin S K) (hv : v.hasFacts = true)
    (hg : v.givesFacts = true) {f : Nat} (hf : f ∈ m.init) (hid : S f) : K f := by
  have hlt := hw.init ▸ IdSet.lt_width_of_mem hf
  refine of_given hK (label_fact hv hlt) ?_ hid
  rw [hg, IdSet.mem_def.mp hf]
  rfl

/-- Of a node that needs any of what feeds it, one is enough. -/
theorem of_feeds_any (hw : m.WellFormed) {S : Nat → Prop} (hK : (v.graph m).ClosedWithin S K) {id p : Nat}
    {l : NodeLabel} (hl : v.label m id = some l) (hr : l.rule ≠ .all) (hid : S id) (hp : v.Feeds m p id)
    (hin : K p) : K id := by
  obtain ⟨n, hn, rfl⟩ := exists_node hl
  cases hrule : n.rule with
  | all => exact absurd hrule hr
  | given => exact hK.given id n hn hrule hid
  | any =>
    have hne : n.rule ≠ .given := by rw [hrule]; exact fun h => nomatch h
    exact hK.any id n hn hrule hid p ((mem_predecessors hw hn hne).mpr hp) hin

/-- Of a node that needs all of what feeds it, all are enough. -/
theorem of_feeds_all (hw : m.WellFormed) {S : Nat → Prop} (hK : (v.graph m).ClosedWithin S K) {id : Nat}
    {l : NodeLabel} (hl : v.label m id = some l) (hr : l.rule = .all) (hid : S id)
    (hin : ∀ p, v.Feeds m p id → K p) : K id := by
  obtain ⟨n, hn, rfl⟩ := exists_node hl
  have hne : n.rule ≠ .given := by rw [hr]; exact fun h => nomatch h
  exact hK.all id n hn hr hid fun p hp => hin p ((mem_predecessors hw hn hne).mp hp)

/-- Operators bring about what they make true, in every graph with facts. -/
theorem of_effect (hw : m.WellFormed) {S : Nat → Prop} (hK : (v.graph m).ClosedWithin S K) (hv : v.hasFacts = true)
    {i f : Nat} {o : Operator} (known : m.operators[i]? = some o) (hop : K (m.operatorId i)) (hf : f ∈ o.add)
    (hid : S f) : K f := by
  have hlt := (hw.operators _ _ known).add ▸ IdSet.lt_width_of_mem hf
  refine of_feeds_any hw hK (label_fact hv hlt) ?_ hid (.effect hv known hf) hop
  dsimp only
  split <;> exact fun h => nomatch h

/-- **What a graph with facts derives, doing tasks brings about.** -/
theorem closes_of_closed (hw : m.WellFormed) (hv : v ≠ .topDown) (hf : v.hasFacts = true)
    (hK : (v.graph m).Closed K) (used : Nat → Prop) : m.Closes (v.subtaskId m) used K :=
  closes_of_feeds hw hv hf
    (fun _ _ _ hl hr hp hin => of_feeds_any hw (hK.within fun _ => True) hl hr trivial hp hin)
    fun _ _ hl hr _ _ hin => of_feeds_all hw (hK.within fun _ => True) hl hr trivial hin

end View

end HierPlan
