import HierPlan.Proofs.Graph.Arcs
import Mathlib.Data.List.Count
import Mathlib.Data.List.Nodup
import Mathlib.Data.List.Sigma

/-!
# Proofs/Graph/Incoming — every arc into every slot

                     subtasks feed methods              tasks feed methods
    fact             the operators that make it true    the operators that make it true
    operator         its preconditions                  its preconditions, its recomposition node
    method           its preconditions, its subtasks    its preconditions, its task
    task             its methods                        the methods that ask for it, each time
    recomposition    its operator                       the methods that ask for it, each time
    goal             nothing

`View.Slot.incoming` is this table for every view: a list for each slot, with an entry for each arc.  What the arcs of
one operator or method bring in is said slot by slot (`fromOperator`, `fromMethod`, …), since no two slots stand in one
place; put together, **the sources of all arcs into a slot are its line of the table, in the order in which they are
drawn** (`View.Slot.sources_arcs`).  What feeds a slot is what is in that line (`View.Slot.mem_incoming`).
-/

namespace HierPlan

universe u w

/-! ## Lists -/

section Lists

variable {α : Type u} {β : Type w}

theorem flatMap_nil (xs : List α) : (xs.flatMap fun _ => ([] : List β)) = [] :=
  List.flatMap_eq_nil_iff.mpr fun _ _ => rfl

/-- Where only one member of a list adds anything, that is all that is added. -/
theorem flatMap_of_unique {xs : List α} {x : α} {f : α → List β} (hn : xs.Nodup) (hx : x ∈ xs)
    (hrest : ∀ y ∈ xs, y ≠ x → f y = []) : xs.flatMap f = f x := by
  obtain ⟨before, after, rfl⟩ := List.append_of_mem hx
  have hnil : ∀ ys : List α, (∀ y ∈ ys, y ∈ before ++ x :: after ∧ y ≠ x) → ys.flatMap f = [] :=
    fun ys hys => List.flatMap_eq_nil_iff.mpr fun y hy => hrest y (hys y hy).1 (hys y hy).2
  rw [List.nodup_middle, List.nodup_cons, List.mem_append, not_or] at hn
  rw [List.flatMap_append, List.flatMap_cons, hnil before, hnil after, List.nil_append, List.append_nil]
  · exact fun y hy => ⟨List.mem_append_right _ (List.mem_cons_of_mem _ hy), fun he => hn.1.2 (he ▸ hy)⟩
  · exact fun y hy => ⟨List.mem_append_left _ hy, fun he => hn.1.1 (he ▸ hy)⟩

/-- What is added at one place of an array only. -/
theorem flatMap_zipIdx_ite {xs : Array α} {i : Nat} {x : α} (hx : xs[i]? = some x) (f : α → List β) :
    (xs.toList.zipIdx.flatMap fun y => if i = y.2 then f y.1 else []) = f x := by
  have hn : xs.toList.zipIdx.Nodup := .of_map _ (List.nodup_zipIdx_map_snd _)
  rw [flatMap_of_unique hn (mem_zipIdx.mpr hx), if_pos rfl]
  rintro ⟨y, j⟩ hy hne
  refine if_neg fun hj : i = j => hne ?_
  subst hj
  rw [Option.some.inj ((mem_zipIdx.mp hy).symm.trans hx)]

/-- What is added for one number of a range only, and not always. -/
theorem flatMap_range_ite {n i : Nat} (hi : i < n) (p : Prop) [Decidable p] (f : Nat → List β) :
    ((List.range n).flatMap fun j => if p ∧ i = j then f j else []) = if p then f i else [] := by
  rw [flatMap_of_unique List.nodup_range (List.mem_range.mpr hi)]
  · simp only [and_true]
  · exact fun j _ hj => if_neg fun h => hj h.2.symm

theorem count_map_of_ne [DecidableEq β] {f : α → β} {xs : List α} {y : β} (h : ∀ x, f x ≠ y) :
    (xs.map f).count y = 0 :=
  List.count_eq_zero.mpr fun hmem =>
    let ⟨x, _, hx⟩ := List.mem_map.mp hmem
    h x hx

/-- A set lists each of its members once. -/
theorem IdSet.count_toList (t : IdSet) (i : Nat) : t.toList.count i = if i ∈ t then 1 else 0 := by
  rw [t.nodup_toList.count]
  simp only [IdSet.mem_toList]

end Lists

namespace View

variable {m : Model} {v : View}

/-! ## Slots -/

/-- A component, or one of the further slots of a graph. -/
inductive Slot where
  | component (c : Component)
  | recomposition (i : Nat)
  | goal
  deriving DecidableEq

/-- The facts of a set, where facts have nodes. -/
def conditions (v : View) (facts : IdSet) : List Nat := if v.hasFacts then facts.toList else []

/-- The operators that make a fact true. -/
def adders (m : Model) (f : Nat) : List Nat :=
  m.operators.toList.zipIdx.flatMap fun (o, i) => if f ∈ o.add then [m.operatorId i] else []

/-- The methods that refine a task. -/
def refiners (m : Model) (a : Nat) : List Nat :=
  m.methods.toList.zipIdx.flatMap fun (d, i) => if d.task = a then [m.methodId i] else []

/-- The methods that ask for a task, once for each time they do. -/
def askers (m : Model) (t : Task) : List Nat :=
  m.methods.toList.zipIdx.flatMap fun (d, i) => List.replicate (d.network.count t) (m.methodId i)

namespace Slot

variable {s t : Slot} {p : Nat}

/-- Where a slot stands. -/
def id (m : Model) : Slot → Nat
  | component c => m.idOf c
  | recomposition i => recompositionId m i
  | goal => goalId m

/-- Whether there is such a slot. -/
def Known (m : Model) : Slot → Prop
  | component c => m.HasComponent c
  | recomposition i => i < m.operators.size
  | goal => True

/-- **What comes in to a slot**, once for each arc, in the order in which arcs are drawn. -/
def incoming (m : Model) (v : View) : Slot → List Nat
  | component (.fact f) => if v.hasFacts then adders m f else []
  | component (.operator i) =>
    ((m.operators[i]?.map fun o => v.conditions o.pre).getD []) ++
      if v = .topDown then [recompositionId m i] else []
  | component (.compound a) => if v = .topDown then askers m (.compound a) else refiners m a
  | component (.method i) =>
    (m.methods[i]?.map fun d =>
      v.conditions d.pre ++ if v = .topDown then [m.compoundId d.task] else d.network.map (v.subtaskId m)).getD []
  | recomposition i =>
    match v with
    | .topDown => askers m (.operator i)
    | .composition => [m.operatorId i]
    | _ => []
  | goal => []

/-- **No two slots stand in one place.** -/
theorem id_inj {s t : Slot} (hs : s.Known m) (ht : t.Known m) (h : s.id m = t.id m) : s = t := by
  have hlt : ∀ {c}, m.HasComponent c → m.idOf c < m.size := idOf_lt_size
  cases s with
  | component c =>
    cases t with
    | component c' =>
      have hc := Model.componentAt?_idOf hs
      rw [show m.idOf c = m.idOf c' from h, Model.componentAt?_idOf ht] at hc
      rw [Option.some.inj hc]
    | recomposition i => exact absurd (hlt hs) (by simp only [id, recompositionId] at h; omega)
    | goal => exact absurd (hlt hs) (by simp only [id, goalId] at h; omega)
  | recomposition i =>
    simp only [Known] at hs
    cases t with
    | component c => exact absurd (hlt ht) (by simp only [id, recompositionId] at h; omega)
    | recomposition j => exact congrArg recomposition (Nat.add_left_cancel h)
    | goal => exact absurd h (by simp only [id, recompositionId, goalId]; omega)
  | goal =>
    cases t with
    | component c => exact absurd (hlt ht) (by simp only [id, goalId] at h; omega)
    | recomposition j =>
      simp only [Known] at ht
      exact absurd h (by simp only [id, recompositionId, goalId]; omega)
    | goal => rfl

/-- The slot that stands for a subtask. -/
def ofSubtask (v : View) : Task → Slot
  | .operator i =>
    match v with
    | .topDown | .composition => recomposition i
    | _ => component (.operator i)
  | .compound a => component (.compound a)

theorem id_ofSubtask (x : Task) : (ofSubtask v x).id m = v.subtaskId m x := by
  cases x <;> cases v <;> rfl

theorem known_ofSubtask {x : Task} (h : m.HasTask x) : (ofSubtask v x).Known m := by
  cases x <;> cases v <;> exact h

theorem ofSubtask_injective : Function.Injective (ofSubtask .topDown) := by
  intro x y h
  cases x <;> cases y <;> cases h <;> rfl

/-! ## What some arcs bring in -/

/-- Arcs into one slot come in there, and nowhere else. -/
theorem sources_into {α : Type} (hs : s.Known m) (ht : t.Known m) (f : α → Nat) (xs : List α) :
    AndOrGraph.sources (xs.map fun x => (f x, t.id m)) (s.id m) = if t = s then xs.map f else [] := by
  by_cases h : t = s
  · rw [if_pos h, h, AndOrGraph.sources_map]
  · rw [if_neg h, AndOrGraph.sources_eq_nil]
    intro a ha he
    obtain ⟨x, -, rfl⟩ := List.mem_map.mp ha
    exact h (id_inj ht hs he)

theorem sources_arc (hs : s.Known m) (ht : t.Known m) (p : Nat) :
    AndOrGraph.sources [(p, t.id m)] (s.id m) = if t = s then [p] else [] :=
  sources_into hs ht (fun _ : Unit => p) [()]

/-- Arcs out of one slot come in at each of their targets, as often as it is listed. -/
theorem sources_outOf {α : Type} (hs : s.Known m) {target : α → Slot} {xs : List α}
    (ht : ∀ x ∈ xs, (target x).Known m) (p : Nat) :
    AndOrGraph.sources (xs.map fun x => (p, (target x).id m)) (s.id m) =
      List.replicate ((xs.map target).count s) p := by
  induction xs with
  | nil => rfl
  | cons x xs ih =>
    obtain ⟨hx, hxs⟩ := List.forall_mem_cons.mp ht
    rw [List.map_cons, ← List.singleton_append, AndOrGraph.sources_append, sources_arc hs hx, ih hxs, List.map_cons,
      List.count_cons, Nat.add_comm, List.replicate_add]
    by_cases h : target x = s <;> simp [h]

/-- What the arcs of an operator bring in: to the operator its preconditions, to the facts it makes true the
operator. -/
def fromOperator (m : Model) (i : Nat) (o : Operator) : Slot → List Nat
  | component (.operator j) => if j = i then o.pre.toList else []
  | component (.fact f) => if f ∈ o.add then [m.operatorId i] else []
  | _ => []

/-- What the preconditions of a method bring in. -/
def fromGuard (i : Nat) (d : Method) : Slot → List Nat
  | component (.method j) => if j = i then d.pre.toList else []
  | _ => []

/-- What the arcs between a method, its task and its subtasks bring in. -/
def fromMethod (m : Model) (v : View) (i : Nat) (d : Method) : Slot → List Nat
  | component (.method j) =>
    if j = i then if v = .topDown then [m.compoundId d.task] else d.network.map (v.subtaskId m) else []
  | component (.compound a) =>
    if v = .topDown then List.replicate (d.network.count (.compound a)) (m.methodId i)
    else if d.task = a then [m.methodId i] else []
  | recomposition j =>
    if v = .topDown then List.replicate (d.network.count (.operator j)) (m.methodId i) else []
  | _ => []

/-- What the arc between an operator and its recomposition node brings in. -/
def fromRecomposition (m : Model) (v : View) (i : Nat) : Slot → List Nat
  | component (.operator j) => if v = .topDown ∧ j = i then [recompositionId m i] else []
  | recomposition j => if v = .composition ∧ j = i then [m.operatorId i] else []
  | _ => []

theorem sources_operatorArcs (hw : m.WellFormed) (hs : s.Known m) {i : Nat} {o : Operator}
    (known : m.operators[i]? = some o) :
    AndOrGraph.sources (operatorArcs (m.operatorId i) o) (s.id m) = s.fromOperator m i o := by
  have hi : (component (.operator i)).Known m := (Array.getElem?_eq_some_iff.mp known).1
  have hadd : ∀ f ∈ o.add.toList, (component (.fact f)).Known m := by
    intro f hf
    have hlt := IdSet.lt_width_of_mem (IdSet.mem_toList.mp hf)
    rwa [(hw.operators _ _ known).add] at hlt
  have hpre := sources_into hs hi (fun f => f) o.pre.toList
  have heffect := sources_outOf hs hadd (m.operatorId i)
  have hinj : Function.Injective fun f => component (.fact f) := fun _ _ h => by cases h; rfl
  refine (AndOrGraph.sources_append ..).trans ((congrArg₂ _ hpre heffect).trans ?_)
  clear hpre heffect
  match s with
  | component (.fact f) =>
    rw [List.count_map_of_injective _ _ hinj, IdSet.count_toList, if_neg nofun, fromOperator]
    split <;> rfl
  | component (.operator j) =>
    rw [count_map_of_ne fun _ => by nofun]
    simp [fromOperator, eq_comm]
  | component (.compound _) | component (.method _) | recomposition _ | goal =>
    rw [count_map_of_ne fun _ => by nofun]
    rfl

theorem sources_methodPreArcs (hs : s.Known m) {i : Nat} {d : Method} (known : m.methods[i]? = some d) :
    AndOrGraph.sources (methodPreArcs (m.methodId i) d) (s.id m) = s.fromGuard i d := by
  have hi : (component (.method i)).Known m := (Array.getElem?_eq_some_iff.mp known).1
  refine (sources_into hs hi (fun f => f) d.pre.toList).trans ?_
  match s with
  | component (.method j) => simp [fromGuard, eq_comm]
  | component (.fact _) | component (.operator _) | component (.compound _) | recomposition _ | goal => rfl

/-- Where tasks feed their methods, a subtask is fed once for each time it is asked for. -/
theorem sources_methodArcs_down (hw : m.WellFormed) (hs : s.Known m) {i : Nat} {d : Method}
    (known : m.methods[i]? = some d) :
    AndOrGraph.sources (View.topDown.methodArcs m (m.methodId i) d) (s.id m) = s.fromMethod m .topDown i d := by
  have hi : (component (.method i)).Known m := (Array.getElem?_eq_some_iff.mp known).1
  have hsub : ∀ t ∈ d.network, (ofSubtask .topDown t).Known m := fun t ht =>
    known_ofSubtask ((hw.methods _ _ known).network t ht)
  have hchosen := sources_arc hs hi (m.compoundId d.task)
  have hparts := sources_outOf hs hsub (m.methodId i)
  simp only [id_ofSubtask] at hparts
  have hcount : ∀ t, (d.network.map (ofSubtask .topDown)).count (ofSubtask .topDown t) = d.network.count t :=
    List.count_map_of_injective _ _ ofSubtask_injective
  refine (AndOrGraph.sources_append [_] _ _).trans ((congrArg₂ _ hchosen hparts).trans ?_)
  clear hchosen hparts
  match s with
  | component (.compound a) => exact congrArg (List.replicate · _) (hcount (.compound a))
  | recomposition j => exact congrArg (List.replicate · _) (hcount (.operator j))
  | component (.method j) =>
    rw [count_map_of_ne fun t => by cases t <;> nofun]
    simp [fromMethod, eq_comm]
  | component (.fact _) | component (.operator _) | goal =>
    rw [count_map_of_ne fun t => by cases t <;> nofun]
    rfl

/-- Elsewhere all subtasks feed the method, and the method feeds its task. -/
theorem sources_methodArcs_up (hw : m.WellFormed) (hv : v ≠ .topDown) (hs : s.Known m) {i : Nat} {d : Method}
    (known : m.methods[i]? = some d) :
    AndOrGraph.sources (v.methodArcs m (m.methodId i) d) (s.id m) = s.fromMethod m v i d := by
  have hi : (component (.method i)).Known m := (Array.getElem?_eq_some_iff.mp known).1
  have ha : (component (.compound d.task)).Known m := (hw.methods _ _ known).task
  have harcs : v.methodArcs m (m.methodId i) d =
      (d.network.map fun t => (v.subtaskId m t, m.methodId i)) ++ [(m.methodId i, m.compoundId d.task)] := by
    cases v <;> first | rfl | exact absurd rfl hv
  have hsub := sources_into hs hi (v.subtaskId m) d.network
  have htask := sources_arc hs ha (m.methodId i)
  rw [harcs, AndOrGraph.sources_append]
  refine (congrArg₂ _ hsub htask).trans ?_
  clear hsub htask
  match s with
  | component (.method j) => simp [fromMethod, hv, eq_comm]
  | component (.compound a) => simp [fromMethod, hv]
  | recomposition j => simp [fromMethod, hv]
  | component (.fact _) | component (.operator _) | goal => rfl

theorem sources_methodArcs (hw : m.WellFormed) (hs : s.Known m) {i : Nat} {d : Method}
    (known : m.methods[i]? = some d) :
    AndOrGraph.sources (v.methodArcs m (m.methodId i) d) (s.id m) = s.fromMethod m v i d := by
  by_cases hv : v = .topDown
  · exact hv ▸ sources_methodArcs_down hw hs known
  · exact sources_methodArcs_up hw hv hs known

theorem sources_recompositionArcs (hs : s.Known m) {i : Nat} (hi : i < m.operators.size) :
    AndOrGraph.sources (v.recompositionArcs m i (m.operatorId i)) (s.id m) = s.fromRecomposition m v i := by
  cases v with
  | bottomUp | decomposition w =>
    cases s with
    | component c => cases c <;> simp [fromRecomposition, recompositionArcs, AndOrGraph.sources]
    | recomposition j => simp [fromRecomposition, recompositionArcs, AndOrGraph.sources]
    | goal => rfl
  | topDown =>
    refine (sources_arc (t := component (.operator i)) hs hi (recompositionId m i)).trans ?_
    cases s with
    | component c => cases c <;> simp [fromRecomposition, eq_comm]
    | recomposition j => simp [fromRecomposition]
    | goal => rfl
  | composition =>
    refine (sources_arc (t := recomposition i) hs hi (m.operatorId i)).trans ?_
    cases s with
    | component c => cases c <;> simp [fromRecomposition]
    | recomposition j => simp [fromRecomposition, eq_comm]
    | goal => rfl

/-! ## All arcs -/

theorem sources_factArcs (hw : m.WellFormed) (hs : s.Known m) :
    AndOrGraph.sources (v.factArcs m) (s.id m) =
      if v.hasFacts then
        (m.operators.toList.zipIdx.flatMap fun x => s.fromOperator m x.2 x.1) ++
          m.methods.toList.zipIdx.flatMap fun x => s.fromGuard x.2 x.1
      else [] := by
  unfold factArcs
  split
  · rw [AndOrGraph.sources_append, AndOrGraph.sources_flatMap, AndOrGraph.sources_flatMap]
    congr 1
    · exact List.flatMap_congr fun x hx => sources_operatorArcs hw hs (mem_zipIdx.mp hx)
    · exact List.flatMap_congr fun x hx => sources_methodPreArcs hs (mem_zipIdx.mp hx)
  · rfl

/-- What comes in to a slot is what each operator and method brings in, layer after layer. -/
theorem sources_arcs_eq_flatMap (hw : m.WellFormed) (hs : s.Known m) :
    AndOrGraph.sources (v.arcs m) (s.id m) =
      (if v.hasFacts then
        (m.operators.toList.zipIdx.flatMap fun x => s.fromOperator m x.2 x.1) ++
          m.methods.toList.zipIdx.flatMap fun x => s.fromGuard x.2 x.1
      else []) ++
      (m.methods.toList.zipIdx.flatMap fun x => s.fromMethod m v x.2 x.1) ++
      (List.range m.operators.size).flatMap fun i => s.fromRecomposition m v i := by
  rw [arcs, AndOrGraph.sources_append, AndOrGraph.sources_append, sources_factArcs hw hs,
    AndOrGraph.sources_flatMap, AndOrGraph.sources_flatMap]
  congr 1
  · congr 1
    exact List.flatMap_congr fun x hx => sources_methodArcs hw hs (mem_zipIdx.mp hx)
  · exact List.flatMap_congr fun i hi => sources_recompositionArcs hs (List.mem_range.mp hi)

/-- **The sources of all arcs into a slot are what comes in to it**, in the same order. -/
theorem sources_arcs (hw : m.WellFormed) (hs : s.Known m) :
    AndOrGraph.sources (v.arcs m) (s.id m) = s.incoming m v := by
  rw [sources_arcs_eq_flatMap hw hs]
  match s with
  | component (.fact f) =>
    simp only [fromOperator, fromGuard, fromMethod, fromRecomposition, incoming, flatMap_nil, List.append_nil, adders]
  | component (.operator i) =>
    have hi : i < m.operators.size := hs
    have known := Array.getElem?_eq_getElem hi
    have hpre := flatMap_zipIdx_ite known fun o => o.pre.toList
    simp only [fromOperator, fromGuard, fromMethod, fromRecomposition, incoming, flatMap_nil, List.append_nil,
      hpre, flatMap_range_ite hi, known, Option.map_some, Option.getD_some, conditions]
  | component (.compound a) =>
    simp only [fromOperator, fromGuard, fromMethod, fromRecomposition, incoming, flatMap_nil, List.append_nil,
      ite_self, List.nil_append, askers, refiners]
    split <;> rfl
  | component (.method i) =>
    have hi : i < m.methods.size := hs
    have known := Array.getElem?_eq_getElem hi
    have hpre := flatMap_zipIdx_ite known fun d => d.pre.toList
    have hnetwork := flatMap_zipIdx_ite known fun d =>
      if v = .topDown then [m.compoundId d.task] else d.network.map (v.subtaskId m)
    simp only [fromOperator, fromGuard, fromMethod, fromRecomposition, incoming, flatMap_nil, List.append_nil,
      List.nil_append, hpre, hnetwork, known, Option.map_some, Option.getD_some, conditions]
  | recomposition i =>
    have hi : i < m.operators.size := hs
    simp only [fromOperator, fromGuard, fromMethod, fromRecomposition, incoming, flatMap_nil, List.append_nil,
      flatMap_range_ite hi, ite_self, List.nil_append, askers]
    cases v <;> simp
  | goal =>
    simp only [fromOperator, fromGuard, fromMethod, fromRecomposition, incoming, flatMap_nil, List.append_nil,
      ite_self]

/-- **What feeds a slot comes in to it, and nothing else does.** -/
theorem mem_incoming (hw : m.WellFormed) (hs : s.Known m) : p ∈ s.incoming m v ↔ v.Feeds m p (s.id m) := by
  rw [← sources_arcs hw hs, AndOrGraph.mem_sources, mem_arcs]

end Slot

/-! ## What feeds a slot

Wherever tasks are derived from their methods, not the other way round. -/

section Members

variable {p : Nat}

theorem mem_conditions {facts : IdSet} : p ∈ v.conditions facts ↔ v.hasFacts = true ∧ p ∈ facts := by
  unfold conditions
  split <;> simp_all

theorem mem_adders {f : Nat} : p ∈ adders m f ↔ ∃ i o, m.operators[i]? = some o ∧ f ∈ o.add ∧ p = m.operatorId i := by
  simp only [adders, List.mem_flatMap, Prod.exists, mem_zipIdx, List.mem_ite_nil_right, List.mem_singleton]
  exact exists_comm

theorem mem_refiners {a : Nat} : p ∈ refiners m a ↔ ∃ i d, m.methods[i]? = some d ∧ d.task = a ∧ p = m.methodId i := by
  simp only [refiners, List.mem_flatMap, Prod.exists, mem_zipIdx, List.mem_ite_nil_right, List.mem_singleton]
  exact exists_comm

end Members

namespace Slot

variable {p : Nat}

/-- What feeds a slot: an operator its preconditions, a fact the operators that make it true, a task its
methods, a method its preconditions and subtasks. -/
def FedBy (m : Model) (v : View) (p : Nat) : Slot → Prop
  | component (.fact f) =>
    v.hasFacts = true ∧ ∃ i o, m.operators[i]? = some o ∧ f ∈ o.add ∧ p = m.operatorId i
  | component (.operator i) => v.hasFacts = true ∧ ∃ o, m.operators[i]? = some o ∧ p ∈ o.pre
  | component (.compound a) => ∃ i d, m.methods[i]? = some d ∧ d.task = a ∧ p = m.methodId i
  | component (.method i) => ∃ d, m.methods[i]? = some d ∧
      ((v.hasFacts = true ∧ p ∈ d.pre) ∨ ∃ t ∈ d.network, p = v.subtaskId m t)
  | recomposition i => v = .composition ∧ p = m.operatorId i
  | goal => False

/-- **A slot is fed by what it depends on, and by nothing else.** -/
theorem feeds_iff (hw : m.WellFormed) (hv : v ≠ .topDown) (s : Slot) (hs : s.Known m) :
    v.Feeds m p (s.id m) ↔ s.FedBy m v p := by
  rw [← mem_incoming hw hs]
  match s with
  | component (.fact f) => simp only [incoming, FedBy, List.mem_ite_nil_right, mem_adders]
  | component (.operator i) =>
    have hi : i < m.operators.size := hs
    have known := Array.getElem?_eq_getElem hi
    simp [incoming, FedBy, hv, known, mem_conditions]
  | component (.compound a) => simp only [incoming, FedBy, if_neg hv, mem_refiners]
  | component (.method i) =>
    have hi : i < m.methods.size := hs
    have known := Array.getElem?_eq_getElem hi
    simp [incoming, FedBy, hv, known, mem_conditions, @eq_comm Nat p]
  | recomposition i => cases v <;> simp [incoming, FedBy] at hv ⊢
  | goal => simp only [incoming, FedBy, List.not_mem_nil]

end Slot

namespace Feeds

variable {p : Nat}

/-- An operator is fed by its preconditions only. -/
theorem to_operator (hw : m.WellFormed) (hv : v ≠ .topDown) {i : Nat} {o : Operator}
    (known : m.operators[i]? = some o) :
    v.Feeds m p (m.operatorId i) ↔ v.hasFacts = true ∧ p ∈ o.pre := by
  have hs : (Slot.component (.operator i)).Known m := (Array.getElem?_eq_some_iff.mp known).1
  refine (Slot.mem_incoming hw hs).symm.trans ?_
  simp [Slot.incoming, hv, known, mem_conditions]

/-- A method is fed by its preconditions and its subtasks only. -/
theorem to_method (hw : m.WellFormed) (hv : v ≠ .topDown) {i : Nat} {d : Method}
    (known : m.methods[i]? = some d) :
    v.Feeds m p (m.methodId i) ↔
      (v.hasFacts = true ∧ p ∈ d.pre) ∨ ∃ t ∈ d.network, p = v.subtaskId m t := by
  have hs : (Slot.component (.method i)).Known m := (Array.getElem?_eq_some_iff.mp known).1
  refine (Slot.mem_incoming hw hs).symm.trans ?_
  simp [Slot.incoming, hv, known, mem_conditions, @eq_comm Nat p]

/-- Where tasks feed their methods, an operator is fed by its preconditions and its recomposition node only. -/
theorem of_operator_down (hw : m.WellFormed) {i : Nat} {o : Operator} (known : m.operators[i]? = some o)
    (h : View.topDown.Feeds m p (m.operatorId i)) : p ∈ o.pre ∨ p = recompositionId m i := by
  have hs : (Slot.component (.operator i)).Known m := (Array.getElem?_eq_some_iff.mp known).1
  have hmem := (Slot.mem_incoming hw hs).mpr h
  simp only [Slot.incoming, known, Option.map_some, Option.getD_some, if_true, List.mem_append, mem_conditions,
    List.mem_singleton] at hmem
  exact hmem.imp_left And.right

/-- Where tasks feed their methods, a method is fed by its preconditions and its task only. -/
theorem of_method_down (hw : m.WellFormed) {i : Nat} {d : Method} (known : m.methods[i]? = some d)
    (h : View.topDown.Feeds m p (m.methodId i)) : p ∈ d.pre ∨ p = m.compoundId d.task := by
  have hs : (Slot.component (.method i)).Known m := (Array.getElem?_eq_some_iff.mp known).1
  have hmem := (Slot.mem_incoming hw hs).mpr h
  simp only [Slot.incoming, known, Option.map_some, Option.getD_some, if_true, List.mem_append, mem_conditions,
    List.mem_singleton] at hmem
  exact hmem.imp_left And.right

/-- Nothing feeds the goal node. -/
theorem not_to_goal (hw : m.WellFormed) : ¬ View.composition.Feeds m p (goalId m) := fun h =>
  List.not_mem_nil ((Slot.mem_incoming (s := .goal) hw trivial).mpr h)

end Feeds

end View

end HierPlan
