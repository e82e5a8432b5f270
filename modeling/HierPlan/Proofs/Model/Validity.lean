import HierPlan.Proofs.Model.TopTask
import Mathlib.Data.List.Nodup

/-!
# Proofs/Model/Validity — which drafts are problems, and what an id of one means

    every reference leads somewhere, and something is left to do   ⟺   the draft builds

`Draft.Valid` says so of the declarations alone: no problem is built to find out.  **A draft is built
exactly if it is valid** (`Draft.exists_build_iff`).  In what is built **ids and components are two names for
the same** (`Model.numbered`), and **every method stands once, in order, with the task it refines and with no
other** (`Draft.filed_of_build`).
-/

namespace HierPlan

universe u v w

/-! ## Steps that may fail -/

/-- A computation succeeds exactly if both of its halves do. -/
theorem exists_bind_iff {ε : Type u} {α β : Type v} {x : Except ε α} {f : α → Except ε β} :
    (∃ b, x >>= f = .ok b) ↔ ∃ a, x = .ok a ∧ ∃ b, f a = .ok b := by
  constructor
  · rintro ⟨b, h⟩
    obtain ⟨a, ha, hb⟩ := exists_of_bind_eq_ok h
    exact ⟨a, ha, b, hb⟩
  · rintro ⟨a, rfl, b, hb⟩
    exact ⟨b, hb⟩

/-- All elements of a list succeed together exactly if each of them does. -/
theorem exists_mapM_iff {ε : Type u} {α : Type w} {β : Type v} {f : α → Except ε β} {xs : List α} :
    (∃ ys, xs.mapM f = .ok ys) ↔ ∀ x ∈ xs, ∃ y, f x = .ok y := by
  induction xs with
  | nil => exact ⟨fun _ x hx => absurd hx List.not_mem_nil, fun _ => ⟨[], rfl⟩⟩
  | cons x xs ih =>
    rw [List.mapM_cons, exists_bind_iff, List.forall_mem_cons, ← ih]
    constructor
    · rintro ⟨y, hy, h⟩
      obtain ⟨ys, hys, -⟩ := exists_bind_iff.mp h
      exact ⟨⟨y, hy⟩, ys, hys⟩
    · rintro ⟨⟨y, hy⟩, ys, hys⟩
      exact ⟨y, hy, exists_bind_iff.mpr ⟨ys, hys, y :: ys, rfl⟩⟩

/-- All elements of an array succeed together exactly if each of them does, wherever it stands. -/
theorem exists_mapM_zipIdx_iff {ε : Type u} {α : Type w} {β : Type v} {f : Nat → α → Except ε β} {P : α → Prop}
    {a : Array α} (hf : ∀ i x, (∃ y, f i x = .ok y) ↔ P x) :
    (∃ ys, a.toList.zipIdx.mapM (fun (x, i) => f i x) = .ok ys) ↔ ∀ x ∈ a, P x := by
  rw [exists_mapM_iff]
  constructor
  · intro h x hx
    obtain ⟨i, hi⟩ := List.getElem?_of_mem (Array.mem_toList_iff.mpr hx)
    exact (hf i x).mp (h (x, i) (List.mem_zipIdx_iff_getElem?.mpr hi))
  · rintro h ⟨x, i⟩ hx
    exact (hf i x).mpr (h x (Array.mem_toList_iff.mp (List.mem_of_getElem? (List.mem_zipIdx_iff_getElem?.mp hx))))

/-! ## Valid drafts -/

/-- Every fact the operator mentions is declared. -/
structure OperatorDraft.Valid (o : OperatorDraft) (d : Draft) : Prop where
  pre : ∀ f ∈ o.pre, f < d.facts.size
  negPre : ∀ f ∈ o.negPre, f < d.facts.size
  add : ∀ f ∈ o.add, f < d.facts.size
  del : ∀ f ∈ o.del, f < d.facts.size

/-- Every fact and every task the method mentions is declared. -/
structure MethodDraft.Valid (x : MethodDraft) (d : Draft) : Prop where
  task : x.task < d.compounds.size
  pre : ∀ f ∈ x.pre, f < d.facts.size
  negPre : ∀ f ∈ x.negPre, f < d.facts.size
  network : ∀ t ∈ x.network, d.hasTask t = true

namespace Draft

variable {d : Draft} {m : Model}

/-- The network that a lone artificial top task with a single method stands for. -/
def topNetwork? (d : Draft) : Option (List Task) :=
  match d.network with
  | [.compound a] =>
    match d.compounds[a]? with
    | some name =>
      if isArtificialTop name then
        match d.methodsOf a with
        | [i] => d.methods[i]?.map (·.network)
        | _ => none
      else none
    | none => none
  | _ => none

/-- What is left to do once a lone artificial top task is unwrapped. -/
def unwrapped (d : Draft) : List Task := d.topNetwork?.getD d.network

/-- Every reference of the draft leads somewhere, and something is left to do. -/
structure Valid (d : Draft) : Prop where
  operators : ∀ o ∈ d.operators, o.Valid d
  methods : ∀ x ∈ d.methods, x.Valid d
  init : ∀ f ∈ d.init, f < d.facts.size
  goal : ∀ f ∈ d.goal, f < d.facts.size
  network : ∀ t ∈ d.network, d.hasTask t = true
  unwrapped : d.unwrapped ≠ []

/-! ## What each check asks -/

theorem exists_factSet_iff {place : Place} {facts : List Nat} :
    (∃ s, d.factSet place facts = .ok s) ↔ ∀ f ∈ facts, f < d.facts.size := by
  unfold factSet
  split
  · rename_i f hf
    refine ⟨fun ⟨s, hs⟩ => (nomatch hs), fun h => ?_⟩
    have hge : d.facts.size ≤ f := by simpa using List.find?_some hf
    exact absurd (h f (List.mem_of_find?_eq_some hf)) (Nat.not_lt.mpr hge)
  · rename_i hnone
    refine ⟨fun _ f hf => Nat.lt_of_not_le fun hge => ?_, fun _ => ⟨_, rfl⟩⟩
    exact List.find?_eq_none.mp hnone f hf (decide_eq_true hge)

theorem exists_checkNetwork_iff {place : Place} {network : List Task} :
    (∃ checked, d.checkNetwork place network = .ok checked) ↔ ∀ t ∈ network, d.hasTask t = true := by
  unfold checkNetwork
  split
  · rename_i t ht
    refine ⟨fun ⟨s, hs⟩ => (nomatch hs), fun h => ?_⟩
    have hnot := List.find?_some ht
    rw [h t (List.mem_of_find?_eq_some ht)] at hnot
    cases hnot
  · rename_i hnone
    refine ⟨fun _ t ht => ?_, fun _ => ⟨_, rfl⟩⟩
    simpa using List.find?_eq_none.mp hnone t ht

/-- **An operator is built exactly if its facts are declared.** -/
theorem exists_buildOperator_iff {i : Nat} {o : OperatorDraft} :
    (∃ built, d.buildOperator i o = .ok built) ↔ o.Valid d := by
  unfold buildOperator
  simp only [exists_bind_iff]
  constructor
  · rintro ⟨_, hpre, _, hneg, _, hadd, _, hdel, -⟩
    exact ⟨exists_factSet_iff.mp ⟨_, hpre⟩, exists_factSet_iff.mp ⟨_, hneg⟩,
      exists_factSet_iff.mp ⟨_, hadd⟩, exists_factSet_iff.mp ⟨_, hdel⟩⟩
  · intro h
    obtain ⟨_, hpre⟩ := exists_factSet_iff.mpr h.pre
    obtain ⟨_, hneg⟩ := exists_factSet_iff.mpr h.negPre
    obtain ⟨_, hadd⟩ := exists_factSet_iff.mpr h.add
    obtain ⟨_, hdel⟩ := exists_factSet_iff.mpr h.del
    exact ⟨_, hpre, _, hneg, _, hadd, _, hdel, _, rfl⟩

/-- **A method is built exactly if its facts and tasks are declared.** -/
theorem exists_buildMethod_iff {i : Nat} {x : MethodDraft} :
    (∃ built, d.buildMethod i x = .ok built) ↔ x.Valid d := by
  unfold buildMethod
  split
  · rename_i htask
    exact ⟨fun ⟨_, h⟩ => (nomatch h), fun h => absurd h.task (Nat.not_lt.mpr htask)⟩
  rename_i htask
  change (∃ built, (_ >>= _ : Except ModelError Method) = .ok built) ↔ _
  simp only [exists_bind_iff]
  constructor
  · rintro ⟨_, hnet, _, hpre, _, hneg, -⟩
    exact ⟨Nat.lt_of_not_le htask, exists_factSet_iff.mp ⟨_, hpre⟩, exists_factSet_iff.mp ⟨_, hneg⟩,
      exists_checkNetwork_iff.mp ⟨_, hnet⟩⟩
  · intro h
    obtain ⟨_, hnet⟩ := exists_checkNetwork_iff.mpr h.network
    obtain ⟨_, hpre⟩ := exists_factSet_iff.mpr h.pre
    obtain ⟨_, hneg⟩ := exists_factSet_iff.mpr h.negPre
    exact ⟨_, hnet, _, hpre, _, hneg, _, rfl⟩

/-- A problem is assembled exactly if every reference leads somewhere. -/
theorem exists_assemble_iff : (∃ m, d.assemble = .ok m) ↔
    (∀ o ∈ d.operators, o.Valid d) ∧ (∀ x ∈ d.methods, x.Valid d) ∧ (∀ f ∈ d.init, f < d.facts.size) ∧
      (∀ f ∈ d.goal, f < d.facts.size) ∧ ∀ t ∈ d.network, d.hasTask t = true := by
  have hoperators := exists_mapM_zipIdx_iff (f := d.buildOperator) (a := d.operators) fun _ _ =>
    exists_buildOperator_iff
  have hmethods := exists_mapM_zipIdx_iff (f := d.buildMethod) (a := d.methods) fun _ _ => exists_buildMethod_iff
  constructor
  · rintro ⟨m, h⟩
    obtain ⟨_, _, _, _, hops, hmeth, hinit, hgoal, htasks, -⟩ := exists_of_assemble h
    exact ⟨hoperators.mp ⟨_, hops⟩, hmethods.mp ⟨_, hmeth⟩, exists_factSet_iff.mp ⟨_, hinit⟩,
      exists_factSet_iff.mp ⟨_, hgoal⟩, htasks⟩
  · rintro ⟨hops, hmeth, hinit, hgoal, htasks⟩
    obtain ⟨_, hops⟩ := hoperators.mpr hops
    obtain ⟨_, hmeth⟩ := hmethods.mpr hmeth
    obtain ⟨_, hinit⟩ := exists_factSet_iff.mpr hinit
    obtain ⟨_, hgoal⟩ := exists_factSet_iff.mpr hgoal
    obtain ⟨_, hnet⟩ := exists_checkNetwork_iff.mpr htasks
    unfold assemble
    simp only [exists_bind_iff]
    exact ⟨_, hops, _, hmeth, _, hinit, _, hgoal, _, hnet, _, rfl⟩

/-! ## What is left to do -/

/-- A method is built with the network it was declared with. -/
theorem network_of_buildMethod {i : Nat} {x : MethodDraft} {built : Method}
    (h : d.buildMethod i x = .ok built) : built.network = x.network := by
  unfold buildMethod at h
  split at h
  · cases h
  · obtain ⟨-, -, h⟩ := exists_of_bind_eq_ok h
    obtain ⟨network, hnet, h⟩ := exists_of_bind_eq_ok h
    obtain ⟨pre, -, h⟩ := exists_of_bind_eq_ok h
    obtain ⟨negPre, -, h⟩ := exists_of_bind_eq_ok h
    cases h
    exact (of_checkNetwork hnet).1

/-- Methods stand where they were declared, with the networks they were declared with. -/
theorem networks_of_assemble (h : d.assemble = .ok m) (i : Nat) :
    (m.methods[i]?).map (·.network) = (d.methods[i]?).map (·.network) := by
  cases hi : m.methods[i]? with
  | none =>
    rw [Array.getElem?_eq_none_iff, (counts_of_assemble h).methods, ← Array.getElem?_eq_none_iff] at hi
    rw [hi]
    rfl
  | some y =>
    obtain ⟨x, hx, built⟩ := method_of_assemble h hi
    rw [hx, Option.map_some, Option.map_some, network_of_buildMethod built]

/-- Draft and problem agree on what a top task stands for. -/
theorem topNetwork?_of_assemble (h : d.assemble = .ok m) : m.topNetwork? = d.topNetwork? := by
  have hmethods := networks_of_assemble h
  unfold Model.topNetwork? Model.topMethod? topNetwork?
  rw [network_of_assemble h]
  match d.network with
  | [.compound a] =>
    dsimp only
    cases ht : m.compounds[a]? with
    | none =>
      rw [Array.getElem?_eq_none_iff, (counts_of_assemble h).compounds, ← Array.getElem?_eq_none_iff] at ht
      rw [ht]
      rfl
    | some t =>
      obtain ⟨-, hname, hlisted⟩ := compound_of_assemble h ht
      rw [hname]
      dsimp only
      rw [hlisted]
      split
      · match d.methodsOf a with
        | [i] => exact hmethods i
        | [] | _ :: _ :: _ => rfl
      · rfl
  | [] | .operator _ :: _ | .compound _ :: _ :: _ => rfl

/-- **What is left to do can be told from the draft.** -/
theorem network_withoutTop_of_assemble (h : d.assemble = .ok m) : m.withoutTop.network = d.unwrapped := by
  rw [Model.withoutTop, unwrapped, topNetwork?_of_assemble h, ← network_of_assemble h]
  cases d.topNetwork? <;> rfl

/-- **A draft is built exactly if it is valid.** -/
theorem exists_build_iff : (∃ m, d.build = .ok m) ↔ d.Valid := by
  constructor
  · rintro ⟨m, h⟩
    obtain ⟨m₀, hm₀, rfl, hne⟩ := exists_of_build h
    obtain ⟨hops, hmethods, hinit, hgoal, htasks⟩ := exists_assemble_iff.mp ⟨m₀, hm₀⟩
    exact ⟨hops, hmethods, hinit, hgoal, htasks, network_withoutTop_of_assemble hm₀ ▸ hne⟩
  · intro h
    obtain ⟨m₀, hm₀⟩ := exists_assemble_iff.mpr ⟨h.operators, h.methods, h.init, h.goal, h.network⟩
    have hne : m₀.withoutTop.network.isEmpty = false := by
      rw [network_withoutTop_of_assemble hm₀]
      exact List.isEmpty_eq_false_iff.mpr h.unwrapped
    unfold build
    refine exists_bind_iff.mpr ⟨m₀, hm₀, m₀.withoutTop, ?_⟩
    rw [hne]
    rfl

end Draft

/-! ## What is built -/

/-- Nothing that was declared is left out. -/
theorem Draft.counts_of_build {d : Draft} {m : Model} (h : d.build = .ok m) : d.Counts m := by
  have hcounts := counts_of_assemble (assemble_of_build h).1
  exact ⟨hcounts.facts, hcounts.operators, hcounts.compounds, hcounts.methods⟩

/-- Every method stands once in the list of the task it refines, methods are listed in order, and no other
task lists them. -/
structure Model.Filed (m : Model) : Prop where
  sorted : ∀ (a : Nat) (t : Compound), m.compounds[a]? = some t → t.methods.Pairwise (· < ·)
  count : ∀ (i : Nat) (y : Method), m.methods[i]? = some y → ∀ (a : Nat) (t : Compound),
    m.compounds[a]? = some t → t.methods.count i = if a = y.task then 1 else 0
  /-- Nothing but methods of the problem is listed. -/
  lt : ∀ (a : Nat) (t : Compound), m.compounds[a]? = some t → ∀ i ∈ t.methods, i < m.methods.size

namespace Draft

variable {d : Draft} {m : Model}

/-- Methods are listed in the order of their positions. -/
theorem pairwise_methodsOf (d : Draft) (a : Nat) : (d.methodsOf a).Pairwise (· < ·) := by
  have hall : (d.methods.toList.zipIdx.map Prod.snd).Pairwise (· < ·) := by
    rw [List.zipIdx_map_snd]
    exact List.pairwise_lt_range'
  exact hall.sublist (List.filter_sublist.map Prod.snd)

/-- **A built problem files its methods.** -/
theorem filed_of_build (h : d.build = .ok m) : m.Filed := by
  have hw := wellFormed_of_build h
  have hsorted : ∀ (a : Nat) (t : Compound), m.compounds[a]? = some t → t.methods.Pairwise (· < ·) := by
    intro a t ht
    rw [(compound_of_assemble (assemble_of_build h).1 ht).2.2]
    exact pairwise_methodsOf d a
  refine ⟨hsorted, fun i y hy a t ht => ?_, fun a t ht i hi => ?_⟩
  · have hnodup : t.methods.Nodup := (hsorted a t ht).imp Nat.ne_of_lt
    split
    · rename_i ha
      exact List.count_eq_one_of_mem hnodup ((hw.listed a t ht i).mpr ⟨y, hy, ha.symm⟩)
    · rename_i ha
      refine List.count_eq_zero.mpr fun hi => ha ?_
      obtain ⟨y', hy', rfl⟩ := (hw.listed a t ht i).mp hi
      rw [Option.some.inj (hy.symm.trans hy')]
  · obtain ⟨y, hy, -⟩ := (hw.listed a t ht i).mp hi
    exact (Array.getElem?_eq_some_iff.mp hy).1

end Draft

/-! ## Ids and components -/

namespace Model

variable {m : Model} {c : Component} {x : Item} {id : Nat}

/-- A component is located at its id. -/
theorem locate_idOf (h : m.HasComponent c) : m.locate (m.idOf c) = .ok c := by
  rw [locate, componentAt?_idOf h]

/-- **What is looked up at an id is found if it stores that id**; if it stores another, both ids are named. -/
theorem component_idOf (h : m.HasComponent c) (hx : m.item? c = some x) :
    m.component (m.idOf c) =
      if x.id = m.idOf c then .ok x else .error (.idMismatch (m.idOf c) x.id) := by
  rw [component, locate_idOf h]
  simp only [bind, Except.bind, hx]
  rfl

/-- Nothing is looked up past the range. -/
theorem locate_eq_error (h : m.size ≤ id) : m.locate id = .error (.idOutOfRange id m.size) := by
  rw [locate, componentAt?_eq_none h]

example : Model.component { Model.lamp [0] with operators := #[⟨9, "spark", 5, .ofList 2 [], .ofList 2 [],
    .ofList 2 [0], .ofList 2 []⟩] } 2 = .error (.idMismatch 2 9) := rfl

/-- Every id below the bound is that of one component, which stores it, and no other id is. -/
structure Numbered (m : Model) : Prop where
  /-- An id leads to a component of the problem that has this id, and what the problem holds there stores it. -/
  found : ∀ id < m.size, ∃ c x, m.locate id = .ok c ∧ m.HasComponent c ∧ m.idOf c = id ∧ m.item? c = some x ∧
    m.component id = .ok x ∧ x.id = id
  /-- The id of a component leads back to it. -/
  back : ∀ c, m.HasComponent c → m.idOf c < m.size ∧ m.locate (m.idOf c) = .ok c ∧
    ∃ x, m.item? c = some x ∧ m.component (m.idOf c) = .ok x
  beyond : ∀ id, m.size ≤ id →
    m.locate id = .error (.idOutOfRange id m.size) ∧ m.component id = .error (.idOutOfRange id m.size)

/-- **Ids number the components of a problem**, if each component stores its own. -/
theorem WellFormed.numbered (hw : m.WellFormed) : m.Numbered := by
  have hback : ∀ {c}, m.HasComponent c → ∃ x, m.item? c = some x ∧ m.component (m.idOf c) = .ok x := by
    intro c hc
    obtain ⟨x, hx⟩ := exists_item? hc
    exact ⟨x, hx, by rw [component_idOf hc hx, if_pos (hw.stored c x hx)]⟩
  refine ⟨fun id hid => ?_, fun c hc => ⟨Nat.lt_of_not_le fun hle => ?_, locate_idOf hc, hback hc⟩,
    fun id hid => ⟨locate_eq_error hid, ?_⟩⟩
  · obtain ⟨c, hat⟩ := exists_componentAt? hid
    obtain ⟨rfl, hc⟩ := idOf_componentAt? hat
    obtain ⟨x, hx, hfound⟩ := hback hc
    exact ⟨c, x, locate_idOf hc, hc, rfl, hx, hfound, hw.stored c x hx⟩
  · exact absurd (componentAt?_idOf hc) (componentAt?_eq_none hle ▸ nofun)
  · rw [component, locate_eq_error hid]
    rfl

end Model

end HierPlan
