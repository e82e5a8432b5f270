import HierPlan.Model.Document
import HierPlan.Proofs.Model.Validity
import Mathlib.Data.List.Forall2
import Mathlib.Data.List.Sort

/-!
# Proofs/Model/Naming — which documents are problems, and which problem a document is

    tasks ["goto-b"]   operators ["drive"]   subtasks ["drive", "goto-b"]  ──▸  [.operator 0, .compound 0]

`Document.Resolvable` asks for what a reader of the names would: no name is declared twice in its family, none is both
an operator and a task, every name that is used is declared, and something is left to do.  `Document.Describes` says
of a problem that it is the one the names speak of.  **A document is a problem exactly if it is resolvable, and then
it is the one it describes**; every refusal points at a flaw in the names (`Document.Flaw`), never at a position
(`Document.toModel_iff`).
-/

namespace HierPlan

universe u v w

/-! ## Lists of steps that may fail -/

/-- A computation fails in one of its halves. -/
theorem of_bind_eq_error {ε : Type u} {α β : Type v} {x : Except ε α} {f : α → Except ε β} {e : ε}
    (h : x >>= f = .error e) : x = .error e ∨ ∃ a, x = .ok a ∧ f a = .error e := by
  cases x with
  | error e' =>
    cases h
    exact .inl rfl
  | ok a => exact .inr ⟨a, rfl, h⟩

/-- When a list fails, one of its elements does. -/
theorem exists_of_mapM_eq_error {ε : Type u} {α : Type w} {β : Type v} {f : α → Except ε β} {xs : List α} {e : ε}
    (h : xs.mapM f = .error e) : ∃ x ∈ xs, f x = .error e := by
  induction xs with
  | nil => cases h
  | cons x xs ih =>
    rw [List.mapM_cons] at h
    rcases of_bind_eq_error h with hx | ⟨y, -, h⟩
    · exact ⟨x, List.mem_cons_self, hx⟩
    · rcases of_bind_eq_error h with hxs | ⟨ys, -, h⟩
      · obtain ⟨x', hx', hfail⟩ := ih hxs
        exact ⟨x', List.mem_cons_of_mem x hx', hfail⟩
      · cases h

/-- When a list succeeds, each result is that of its element. -/
theorem forall₂_of_mapM_eq_ok {ε : Type u} {α : Type w} {β : Type v} {f : α → Except ε β} {xs : List α} {ys : List β}
    (h : xs.mapM f = .ok ys) : List.Forall₂ (fun x y => f x = .ok y) xs ys := by
  induction xs generalizing ys with
  | nil =>
    cases h
    exact .nil
  | cons x xs ih =>
    rw [List.mapM_cons] at h
    obtain ⟨y, hy, h⟩ := exists_of_bind_eq_ok h
    obtain ⟨ys', hys, h⟩ := exists_of_bind_eq_ok h
    cases h
    exact .cons hy (ih hys)

/-- Results stand where the elements of an array did, whose places they were made with. -/
theorem forall₂_of_mapM_zipIdx {ε : Type u} {α : Type v} {β : Type w} {f : Nat → α → Except ε β} {xs : Array α}
    {ys : List β} (h : xs.toList.zipIdx.mapM (fun (x, i) => f i x) = .ok ys) :
    List.Forall₂ (fun x y => ∃ i, f i x = .ok y) xs.toList ys := by
  have hplaced : List.Forall₂ (fun x y => ∃ i, f i x = .ok y) (xs.toList.zipIdx.map Prod.fst) ys :=
    List.forall₂_map_left_iff.mpr ((forall₂_of_mapM_eq_ok h).imp fun z _ hz => ⟨z.2, hz⟩)
  rwa [List.zipIdx_map_fst] at hplaced

/-- Lists related through a third. -/
theorem forall₂_trans {α : Type u} {β : Type v} {γ : Type w} {R : α → β → Prop} {S : β → γ → Prop} {T : α → γ → Prop}
    (hT : ∀ a b c, R a b → S b c → T a c) {xs : List α} {ys : List β} {zs : List γ} (h : List.Forall₂ R xs ys)
    (k : List.Forall₂ S ys zs) : List.Forall₂ T xs zs := by
  induction h generalizing zs with
  | nil =>
    cases k
    exact .nil
  | cons hab _ ih =>
    cases k with
    | cons hbc hrest => exact .cons (hT _ _ _ hab hbc) (ih hrest)

/-- Elements of related lists are related to those at the same place. -/
theorem getElem?_of_forall₂ {α : Type u} {β : Type v} {R : α → β → Prop} {xs : List α} {ys : List β}
    (h : List.Forall₂ R xs ys) {i : Nat} {x : α} (hx : xs[i]? = some x) : ∃ y, ys[i]? = some y ∧ R x y := by
  induction h generalizing i with
  | nil => cases hx
  | cons hab _ ih =>
    cases i with
    | zero =>
      cases hx
      exact ⟨_, rfl, hab⟩
    | succ i => exact ih hx

/-- Lists related to one list are the same if what stands in one place and is related to one thing is. -/
theorem eq_of_forall₂ {α : Type u} {β : Type v} {R : α → β → Prop} {xs : List α} {ys zs : List β}
    (hy : List.Forall₂ R xs ys) (hz : List.Forall₂ R xs zs)
    (h : ∀ (i : Nat) (x : α) (y z : β), ys[i]? = some y → zs[i]? = some z → R x y → R x z → y = z) : ys = zs := by
  induction hy generalizing zs with
  | nil =>
    cases hz
    rfl
  | cons hxy _ ih =>
    cases hz with
    | cons hxz hrest =>
      rw [h 0 _ _ _ rfl rfl hxy hxz, ih hrest fun i x y z hy hz => h (i + 1) x y z hy hz]

/-! ## Names of one family -/

/-- A name that was met, or stands twice, is the one reported. -/
theorem count_of_firstRepeated {met names : List String} {name : String}
    (h : firstRepeated?.go met names = some name) : 2 ≤ met.count name + names.count name := by
  induction names generalizing met with
  | nil => cases h
  | cons x names ih =>
    unfold firstRepeated?.go at h
    split at h
    · rename_i hmet
      cases h
      have hin := List.count_pos_iff.mpr hmet
      rw [List.count_cons_self]
      omega
    · have hcount := ih h
      rw [List.count_cons] at hcount ⊢
      omega

/-- No name is reported exactly if all differ, from each other and from those met. -/
theorem firstRepeated_eq_none {met names : List String} :
    firstRepeated?.go met names = none ↔ names.Nodup ∧ ∀ name ∈ names, name ∉ met := by
  induction names generalizing met with
  | nil => exact iff_of_true rfl ⟨.nil, fun _ hn => absurd hn List.not_mem_nil⟩
  | cons x names ih =>
    unfold firstRepeated?.go
    split
    · rename_i hmet
      exact iff_of_false (nomatch ·) fun h => h.2 x List.mem_cons_self hmet
    · rename_i hmet
      rw [ih, List.nodup_cons, List.forall_mem_cons]
      refine ⟨fun h => ⟨⟨fun hx => h.2 x hx List.mem_cons_self, h.1⟩, hmet, fun n hn hm =>
        h.2 n hn (List.mem_cons_of_mem x hm)⟩, fun h => ⟨h.1.2, fun n hn hm => ?_⟩⟩
      rcases List.mem_cons.mp hm with rfl | hm
      · exact h.1.1 hn
      · exact h.2.2 n hn hm

theorem exists_checkDistinct_iff (kind : NameKind) {names : List String} :
    (∃ u, checkDistinct kind names = .ok u) ↔ names.Nodup := by
  have hnone : firstRepeated? names = none ↔ names.Nodup :=
    firstRepeated_eq_none.trans (and_iff_left fun _ _ => List.not_mem_nil)
  rw [← hnone]
  unfold checkDistinct
  cases firstRepeated? names with
  | none => exact iff_of_true ⟨_, rfl⟩ rfl
  | some name => exact iff_of_false (fun ⟨_, h⟩ => nomatch h) (nomatch ·)

/-- **A repeated name is reported as such.** -/
theorem checkDistinct_eq_error {kind : NameKind} {names : List String} {e : ModelError}
    (h : checkDistinct kind names = .error e) : ∃ name, e = .duplicateName kind name ∧ 2 ≤ names.count name := by
  unfold checkDistinct at h
  split at h
  · rename_i name hname
    cases h
    refine ⟨name, rfl, ?_⟩
    have hcount := count_of_firstRepeated hname
    rwa [List.count_nil, Nat.zero_add] at hcount
  · cases h

section LookUp

variable {kind : NameKind} {names : List String} {name : String} {i : Nat}

/-- A name is found where it was declared. -/
theorem getElem?_of_lookUp (h : lookUp kind names name = .ok i) : names[i]? = some name := by
  unfold lookUp at h
  split at h
  · rename_i j hj
    cases h
    obtain ⟨hlt, heq, -⟩ := List.findIdx?_eq_some_iff_getElem.mp hj
    rw [List.getElem?_eq_getElem hlt, eq_of_beq heq]
  · cases h

theorem exists_lookUp_iff (kind : NameKind) : (∃ i, lookUp kind names name = .ok i) ↔ name ∈ names := by
  refine ⟨fun ⟨i, h⟩ => List.mem_of_getElem? (getElem?_of_lookUp h), fun h => ?_⟩
  unfold lookUp
  split
  · exact ⟨_, rfl⟩
  · rename_i hnone
    exact absurd (BEq.rfl) (Bool.eq_false_iff.mp (List.findIdx?_eq_none_iff.mp hnone name h))

/-- **A name that is not declared is reported as such.** -/
theorem lookUp_eq_error {e : ModelError} (h : lookUp kind names name = .error e) :
    e = .unknownName kind name ∧ name ∉ names := by
  refine ⟨?_, fun hmem => ?_⟩
  · unfold lookUp at h
    split at h <;> cases h
    rfl
  · obtain ⟨i, hi⟩ := (exists_lookUp_iff kind).mpr hmem
    rw [hi] at h
    cases h

end LookUp

/-! ## What a document says -/

namespace Document

/-- The names a document declares. -/
def namesOf (d : Document) : NameKind → List String
  | .fact => d.facts
  | .operator => d.operatorNames
  | .task => d.tasks
  | .method => d.methods.map (·.name)

/-- The names it uses for facts. -/
def factsUsed (d : Document) : List String :=
  d.operators.flatMap (fun o => o.pre ++ o.negPre ++ o.add ++ o.del) ++
    d.methods.flatMap (fun x => x.pre ++ x.negPre) ++ d.init ++ d.goal

/-- The names it uses for what is to be done. -/
def tasksUsed (d : Document) : List String := d.methods.flatMap (·.subtasks) ++ d.network

/-- The names of what is left to do, once a lone artificial top task gives way to its only method. -/
def unwrapped (d : Document) : List String :=
  match d.network with
  | [name] =>
    if isArtificialTop name ∧ name ∈ d.tasks then
      match d.methods.filter (·.task == name) with
      | [x] => x.subtasks
      | _ => [name]
    else [name]
  | names => names

/-- Every name has one meaning, every name that is used has a meaning, and something is left to do. -/
structure Resolvable (d : Document) : Prop where
  distinct : ∀ kind, (d.namesOf kind).Nodup
  apart : ∀ name ∈ d.operatorNames, name ∉ d.tasks
  facts : ∀ name ∈ d.factsUsed, name ∈ d.facts
  refined : ∀ x ∈ d.methods, x.task ∈ d.tasks
  tasks : ∀ name ∈ d.tasksUsed, name ∈ d.operatorNames ∨ name ∈ d.tasks
  unwrapped : d.unwrapped ≠ []

/-- What a document is refused for. -/
inductive Flaw (d : Document) : ModelError → Prop where
  | duplicateName {kind : NameKind} {name : String} (twice : 2 ≤ (d.namesOf kind).count name) :
      Flaw d (.duplicateName kind name)
  | ambiguousTask {name : String} (operator : name ∈ d.operatorNames) (task : name ∈ d.tasks) :
      Flaw d (.ambiguousTask name)
  | unknownFact {name : String} (used : name ∈ d.factsUsed) (unknown : name ∉ d.facts) :
      Flaw d (.unknownName .fact name)
  | unknownRefined {x : MethodEntry} (used : x ∈ d.methods) (unknown : x.task ∉ d.tasks) :
      Flaw d (.unknownName .task x.task)
  | unknownTask {name : String} (used : name ∈ d.tasksUsed) (unknown : ¬ (name ∈ d.operatorNames ∨ name ∈ d.tasks)) :
      Flaw d (.unknownName .task name)
  | emptyNetwork (nothing : d.unwrapped = []) : Flaw d .emptyNetwork

/-- The name of the operator or task at a position. -/
def taskName? (d : Document) : Task → Option String
  | .operator i => d.operatorNames[i]?
  | .compound a => d.tasks[a]?

/-- The network of the tasks of a list of names, in order. -/
def Spells (d : Document) (names : List String) (network : List Task) : Prop :=
  List.Forall₂ (fun name t => d.taskName? t = some name) names network

/-- The set of the positions of the facts of a list of names. -/
structure Lists (d : Document) (names : List String) (s : IdSet) : Prop where
  width : s.width = d.facts.length
  mem_iff : ∀ i, i ∈ s ↔ ∃ name ∈ names, d.facts[i]? = some name

/-- The operator an entry speaks of. -/
structure DescribesOperator (d : Document) (e : OperatorEntry) (o : Operator) : Prop where
  name : o.name = e.name
  cost : o.cost = e.cost
  pre : d.Lists e.pre o.pre
  negPre : d.Lists e.negPre o.negPre
  add : d.Lists e.add o.add
  del : d.Lists e.del o.del

/-- The method an entry speaks of. -/
structure DescribesMethod (d : Document) (e : MethodEntry) (y : Method) : Prop where
  name : y.name = e.name
  task : d.tasks[y.task]? = some e.task
  pre : d.Lists e.pre y.pre
  negPre : d.Lists e.negPre y.negPre
  network : d.Spells e.subtasks y.network

/-- The problem a document speaks of: everything stands in the order of the document. -/
structure Describes (d : Document) (m : Model) : Prop where
  facts : m.facts.toList.map (·.name) = d.facts
  operators : List.Forall₂ d.DescribesOperator d.operators m.operators.toList
  tasks : m.compounds.toList.map (·.name) = d.tasks
  methods : List.Forall₂ d.DescribesMethod d.methods m.methods.toList
  /-- A task lists the methods that name it, in order. -/
  listed : ∀ (a : Nat) (t : Compound), m.compounds[a]? = some t → t.methods.Pairwise (· < ·) ∧
    ∀ i, i ∈ t.methods ↔ ∃ e, d.methods[i]? = some e ∧ e.task = t.name
  init : d.Lists d.init m.init
  goal : d.Lists d.goal m.goal
  network : d.Spells d.unwrapped m.network
  /-- Components are numbered by their positions. -/
  stored : ∀ (c : Component) (x : Item), m.item? c = some x → x.id = m.idOf c

/-! ## A document speaks of one problem -/

section Unique

variable {d : Document} {names : List String}

/-- **A name that has one meaning names one task.** -/
theorem taskName?_inj (h : d.Resolvable) {t u : Task} {name : String} (ht : d.taskName? t = some name)
    (hu : d.taskName? u = some name) : t = u := by
  have hin : ∀ {names : List String} {i j : Nat}, names.Nodup → names[i]? = some name → names[j]? = some name →
      i = j := fun hnodup hi hj =>
    (List.getElem?_inj (List.getElem?_eq_some_iff.mp hi).1 hnodup).mp (hi.trans hj.symm)
  have hapart := h.apart name
  cases t with
  | operator i =>
    cases u with
    | operator j => rw [hin (h.distinct .operator) ht hu]
    | compound b => exact absurd (List.mem_of_getElem? hu) (hapart (List.mem_of_getElem? ht))
  | compound a =>
    cases u with
    | operator j => exact absurd (List.mem_of_getElem? ht) (hapart (List.mem_of_getElem? hu))
    | compound b => rw [hin (h.distinct .task) ht hu]

theorem Spells.unique (h : d.Resolvable) {network other : List Task} (hn : d.Spells names network)
    (ho : d.Spells names other) : network = other :=
  List.right_unique_forall₂' (fun name _ _ (ht : _ = some name) hu => taskName?_inj h ht hu) hn ho

theorem Lists.unique {s t : IdSet} (hs : d.Lists names s) (ht : d.Lists names t) : s = t :=
  IdSet.ext (hs.width.trans ht.width.symm) fun i => (hs.mem_iff i).trans (ht.mem_iff i).symm

theorem DescribesOperator.unique {e : OperatorEntry} {o p : Operator} (hid : o.id = p.id)
    (ho : d.DescribesOperator e o) (hp : d.DescribesOperator e p) : o = p := by
  obtain ⟨id, name, cost, pre, negPre, add, del⟩ := o
  obtain rfl : id = _ := hid
  obtain rfl : name = _ := ho.name.trans hp.name.symm
  obtain rfl : cost = _ := ho.cost.trans hp.cost.symm
  obtain rfl := ho.pre.unique hp.pre
  obtain rfl := ho.negPre.unique hp.negPre
  obtain rfl := ho.add.unique hp.add
  obtain rfl := ho.del.unique hp.del
  rfl

theorem DescribesMethod.unique (h : d.Resolvable) {e : MethodEntry} {x y : Method} (hid : x.id = y.id)
    (hx : d.DescribesMethod e x) (hy : d.DescribesMethod e y) : x = y := by
  have htask := taskName?_inj h (t := .compound x.task) (u := .compound y.task) hx.task hy.task
  obtain ⟨id, name, task, pre, negPre, network⟩ := x
  obtain rfl : id = _ := hid
  obtain rfl : name = _ := hx.name.trans hy.name.symm
  cases htask
  obtain rfl := hx.pre.unique hy.pre
  obtain rfl := hx.negPre.unique hy.negPre
  obtain rfl := hx.network.unique h hy.network
  rfl

section Problems

variable {m n : Model} {c : Component} {x y : Item}

/-- Problems that a document speaks of have the same ids. -/
theorem Describes.idOf_eq (hm : d.Describes m) (hn : d.Describes n) (c : Component) : m.idOf c = n.idOf c := by
  have hfacts : m.facts.size = n.facts.size := by
    simpa using congrArg List.length (hm.facts.trans hn.facts.symm)
  have hoperators : m.operators.size = n.operators.size := by
    simpa using hm.operators.length_eq.symm.trans hn.operators.length_eq
  have htasks : m.compounds.size = n.compounds.size := by
    simpa using congrArg List.length (hm.tasks.trans hn.tasks.symm)
  cases c <;> simp only [Model.idOf, Model.operatorId, Model.compoundId, Model.methodId, hfacts, hoperators, htasks]

/-- What stands in one place stores one id. -/
theorem Describes.id_eq (hm : d.Describes m) (hn : d.Describes n) (hx : m.item? c = some x) (hy : n.item? c = some y) :
    x.id = y.id :=
  (hm.stored c x hx).trans ((hm.idOf_eq hn c).trans (hn.stored c y hy).symm)

/-- Names that are read off a list are those of its members, in order. -/
theorem forall₂_of_map_eq {α : Type} {f : α → String} {xs : List α} (h : xs.map f = names) :
    List.Forall₂ (fun name x => name = f x) names xs :=
  List.forall₂_map_right_iff.mp (h ▸ List.forall₂_same.mpr fun _ _ => rfl)

theorem Describes.facts_eq (hm : d.Describes m) (hn : d.Describes n) : m.facts = n.facts := by
  refine Array.toList_inj.mp (eq_of_forall₂ (forall₂_of_map_eq hm.facts) (forall₂_of_map_eq hn.facts) ?_)
  rintro i name ⟨id, _⟩ ⟨id', _⟩ hf hf' rfl rfl
  rw [Array.getElem?_toList] at hf hf'
  obtain rfl : id = id' := hm.id_eq hn (Model.item?_fact hf) (Model.item?_fact hf')
  rfl

theorem Describes.operators_eq (hm : d.Describes m) (hn : d.Describes n) : m.operators = n.operators := by
  refine Array.toList_inj.mp (eq_of_forall₂ hm.operators hn.operators fun i e o p ho hp heo hep => ?_)
  rw [Array.getElem?_toList] at ho hp
  exact heo.unique (hm.id_eq hn (Model.item?_operator ho) (Model.item?_operator hp)) hep

theorem Describes.compounds_eq (hm : d.Describes m) (hn : d.Describes n) : m.compounds = n.compounds := by
  refine Array.toList_inj.mp (eq_of_forall₂ (forall₂_of_map_eq hm.tasks) (forall₂_of_map_eq hn.tasks) ?_)
  rintro a name ⟨id, _, methods⟩ ⟨id', _, methods'⟩ ht hu rfl rfl
  rw [Array.getElem?_toList] at ht hu
  obtain ⟨hsorted, hmem⟩ := hm.listed a _ ht
  obtain ⟨hsorted', hmem'⟩ := hn.listed a _ hu
  obtain rfl : id = id' := hm.id_eq hn (Model.item?_compound ht) (Model.item?_compound hu)
  obtain rfl : methods = methods' := hsorted.eq_of_mem_iff hsorted' fun i => (hmem i).trans (hmem' i).symm
  rfl

theorem Describes.methods_eq (h : d.Resolvable) (hm : d.Describes m) (hn : d.Describes n) : m.methods = n.methods := by
  refine Array.toList_inj.mp (eq_of_forall₂ hm.methods hn.methods fun i e x y hx hy hex hey => ?_)
  rw [Array.getElem?_toList] at hx hy
  exact hex.unique h (hm.id_eq hn (Model.item?_method hx) (Model.item?_method hy)) hey

/-- **A resolvable document speaks of one problem.** -/
theorem Describes.unique (h : d.Resolvable) (hm : d.Describes m) (hn : d.Describes n) : m = n := by
  have hfacts := hm.facts_eq hn
  have hoperators := hm.operators_eq hn
  have hcompounds := hm.compounds_eq hn
  have hmethods := hm.methods_eq h hn
  obtain ⟨facts, operators, compounds, methods, init, goal, network⟩ := m
  obtain rfl : facts = _ := hfacts
  obtain rfl : operators = _ := hoperators
  obtain rfl : compounds = _ := hcompounds
  obtain rfl : methods = _ := hmethods
  obtain rfl := hm.init.unique hn.init
  obtain rfl := hm.goal.unique hn.goal
  obtain rfl := hm.network.unique h hn.network
  rfl

end Problems

end Unique

/-! ## What each pass asks of the names, and what it says of them otherwise -/

section Passes

variable {d : Document} {names : List String} {ids : List Nat} {name : String} {e : ModelError}

theorem exists_factIds_iff : (∃ ids, d.factIds names = .ok ids) ↔ ∀ name ∈ names, name ∈ d.facts := by
  simp only [factIds, exists_mapM_iff, exists_lookUp_iff]

theorem forall₂_of_factIds (h : d.factIds names = .ok ids) :
    List.Forall₂ (fun name i => d.facts[i]? = some name) names ids :=
  (forall₂_of_mapM_eq_ok h).imp fun _ _ => getElem?_of_lookUp

theorem factIds_eq_error (h : d.factIds names = .error e) :
    ∃ name ∈ names, e = .unknownName .fact name ∧ name ∉ d.facts := by
  obtain ⟨name, hname, h⟩ := exists_of_mapM_eq_error h
  exact ⟨name, hname, lookUp_eq_error h⟩

/-- A name is looked for among the operators, then among the tasks. -/
theorem taskName?_of_taskNamed {t : Task} (h : d.taskNamed name = .ok t) : d.taskName? t = some name := by
  unfold taskNamed at h
  split at h
  · rename_i i hi
    cases h
    have hfound : lookUp .operator d.operatorNames name = .ok i := by rw [lookUp, hi]
    exact getElem?_of_lookUp hfound
  · cases ha : lookUp .task d.tasks name with
    | error e =>
      rw [ha] at h
      cases h
    | ok a =>
      rw [ha] at h
      cases h
      exact getElem?_of_lookUp ha

theorem taskNamed_eq_error (h : d.taskNamed name = .error e) :
    e = .unknownName .task name ∧ ¬ (name ∈ d.operatorNames ∨ name ∈ d.tasks) := by
  unfold taskNamed at h
  split at h
  · cases h
  · rename_i hnone
    have hoperator : name ∉ d.operatorNames := fun hin =>
      absurd BEq.rfl (Bool.eq_false_iff.mp (List.findIdx?_eq_none_iff.mp hnone name hin))
    cases ha : lookUp .task d.tasks name with
    | error e' =>
      obtain ⟨rfl, htask⟩ := lookUp_eq_error ha
      rw [ha] at h
      cases h
      exact ⟨rfl, not_or.mpr ⟨hoperator, htask⟩⟩
    | ok a =>
      rw [ha] at h
      cases h

theorem exists_taskNamed_iff : (∃ t, d.taskNamed name = .ok t) ↔ name ∈ d.operatorNames ∨ name ∈ d.tasks := by
  constructor
  · rintro ⟨t, h⟩
    have hname := taskName?_of_taskNamed h
    cases t with
    | operator i => exact .inl (List.mem_of_getElem? hname)
    | compound a => exact .inr (List.mem_of_getElem? hname)
  · intro hin
    cases h : d.taskNamed name with
    | ok t => exact ⟨t, rfl⟩
    | error e => exact absurd hin (taskNamed_eq_error h).2

/-- Networks are resolved name by name. -/
theorem spells_of_mapM {network : List Task} (h : names.mapM d.taskNamed = .ok network) : d.Spells names network :=
  (forall₂_of_mapM_eq_ok h).imp fun _ _ => taskName?_of_taskNamed

theorem exists_operatorDraft_iff {o : OperatorEntry} : (∃ draft, d.operatorDraft o = .ok draft) ↔
    ∀ name ∈ o.pre ++ o.negPre ++ o.add ++ o.del, name ∈ d.facts := by
  unfold operatorDraft
  simp only [List.forall_mem_append, ← exists_factIds_iff, exists_bind_iff]
  constructor
  · rintro ⟨_, hpre, _, hneg, _, hadd, _, hdel, -⟩
    exact ⟨⟨⟨⟨_, hpre⟩, _, hneg⟩, _, hadd⟩, _, hdel⟩
  · rintro ⟨⟨⟨⟨_, hpre⟩, _, hneg⟩, _, hadd⟩, _, hdel⟩
    exact ⟨_, hpre, _, hneg, _, hadd, _, hdel, _, rfl⟩

theorem operatorDraft_eq_error {o : OperatorEntry} (h : d.operatorDraft o = .error e) :
    ∃ name ∈ o.pre ++ o.negPre ++ o.add ++ o.del, e = .unknownName .fact name ∧ name ∉ d.facts := by
  unfold operatorDraft at h
  rcases of_bind_eq_error h with hpre | ⟨pre, -, h⟩
  · obtain ⟨name, hname, hflaw⟩ := factIds_eq_error hpre
    exact ⟨name, by simp [hname], hflaw⟩
  rcases of_bind_eq_error h with hneg | ⟨negPre, -, h⟩
  · obtain ⟨name, hname, hflaw⟩ := factIds_eq_error hneg
    exact ⟨name, by simp [hname], hflaw⟩
  rcases of_bind_eq_error h with hadd | ⟨add, -, h⟩
  · obtain ⟨name, hname, hflaw⟩ := factIds_eq_error hadd
    exact ⟨name, by simp [hname], hflaw⟩
  rcases of_bind_eq_error h with hdel | ⟨del, -, h⟩
  · obtain ⟨name, hname, hflaw⟩ := factIds_eq_error hdel
    exact ⟨name, by simp [hname], hflaw⟩
  · cases h

theorem exists_methodDraft_iff {x : MethodEntry} : (∃ draft, d.methodDraft x = .ok draft) ↔
    x.task ∈ d.tasks ∧ (∀ name ∈ x.subtasks, name ∈ d.operatorNames ∨ name ∈ d.tasks) ∧
      ∀ name ∈ x.pre ++ x.negPre, name ∈ d.facts := by
  have hsub : (∃ network, x.subtasks.mapM d.taskNamed = .ok network) ↔
      ∀ name ∈ x.subtasks, name ∈ d.operatorNames ∨ name ∈ d.tasks := by
    simp only [exists_mapM_iff, exists_taskNamed_iff]
  unfold methodDraft
  rw [← exists_lookUp_iff .task, ← hsub, List.forall_mem_append, ← exists_factIds_iff, ← exists_factIds_iff]
  simp only [exists_bind_iff]
  constructor
  · rintro ⟨_, htask, _, hsub, _, hpre, _, hneg, -⟩
    exact ⟨⟨_, htask⟩, ⟨_, hsub⟩, ⟨_, hpre⟩, _, hneg⟩
  · rintro ⟨⟨_, htask⟩, ⟨_, hsub⟩, ⟨_, hpre⟩, _, hneg⟩
    exact ⟨_, htask, _, hsub, _, hpre, _, hneg, _, rfl⟩

/-- **A method that cannot be resolved has a flaw.** -/
theorem flaw_of_methodDraft {x : MethodEntry} (hx : x ∈ d.methods) (h : d.methodDraft x = .error e) : d.Flaw e := by
  have hused : ∀ name ∈ x.pre ++ x.negPre, name ∈ d.factsUsed := fun name hname =>
    List.mem_append_left _ (List.mem_append_left _ (List.mem_append_right _ (List.mem_flatMap_of_mem hx hname)))
  unfold methodDraft at h
  rcases of_bind_eq_error h with htask | ⟨task, -, h⟩
  · obtain ⟨rfl, hunknown⟩ := lookUp_eq_error htask
    exact .unknownRefined hx hunknown
  rcases of_bind_eq_error h with hsub | ⟨network, -, h⟩
  · obtain ⟨name, hname, hfail⟩ := exists_of_mapM_eq_error hsub
    obtain ⟨rfl, hunknown⟩ := taskNamed_eq_error hfail
    exact .unknownTask (List.mem_append_left _ (List.mem_flatMap_of_mem hx hname)) hunknown
  rcases of_bind_eq_error h with hpre | ⟨pre, -, h⟩
  · obtain ⟨name, hname, rfl, hunknown⟩ := factIds_eq_error hpre
    exact .unknownFact (hused name (List.mem_append_left _ hname)) hunknown
  rcases of_bind_eq_error h with hneg | ⟨negPre, -, h⟩
  · obtain ⟨name, hname, rfl, hunknown⟩ := factIds_eq_error hneg
    exact .unknownFact (hused name (List.mem_append_right _ hname)) hunknown
  · cases h

theorem exists_checkNames_iff : (∃ u, d.checkNames = .ok u) ↔
    (∀ kind, (d.namesOf kind).Nodup) ∧ ∀ name ∈ d.operatorNames, name ∉ d.tasks := by
  unfold checkNames
  simp only [exists_bind_iff]
  cases hfind : d.operatorNames.find? (· ∈ d.tasks) with
  | some name =>
    refine iff_of_false ?_ fun h => ?_
    · rintro ⟨_, -, _, -, _, -, _, h⟩
      cases h
    · exact h.2 name (List.mem_of_find?_eq_some hfind) (by simpa using List.find?_some hfind)
  | none =>
    have hapart : ∀ name ∈ d.operatorNames, name ∉ d.tasks := fun name hname htask =>
      List.find?_eq_none.mp hfind name hname (decide_eq_true htask)
    constructor
    · rintro ⟨_, hfacts, _, hoperators, _, htasks, hmethods⟩
      refine ⟨fun kind => ?_, hapart⟩
      cases kind with
      | fact => exact (exists_checkDistinct_iff .fact).mp ⟨_, hfacts⟩
      | operator => exact (exists_checkDistinct_iff .operator).mp ⟨_, hoperators⟩
      | task => exact (exists_checkDistinct_iff .task).mp ⟨_, htasks⟩
      | method => exact (exists_checkDistinct_iff .method).mp hmethods
    · rintro ⟨hdistinct, -⟩
      obtain ⟨_, hfacts⟩ := (exists_checkDistinct_iff .fact).mpr (hdistinct .fact)
      obtain ⟨_, hoperators⟩ := (exists_checkDistinct_iff .operator).mpr (hdistinct .operator)
      obtain ⟨_, htasks⟩ := (exists_checkDistinct_iff .task).mpr (hdistinct .task)
      exact ⟨_, hfacts, _, hoperators, _, htasks, (exists_checkDistinct_iff .method).mpr (hdistinct .method)⟩

/-- **Names that do not mean one thing each are a flaw.** -/
theorem flaw_of_checkNames (h : d.checkNames = .error e) : d.Flaw e := by
  have hdistinct : ∀ kind, checkDistinct kind (d.namesOf kind) = .error e → d.Flaw e := by
    intro kind h
    obtain ⟨name, rfl, htwice⟩ := checkDistinct_eq_error h
    exact .duplicateName htwice
  unfold checkNames at h
  rcases of_bind_eq_error h with hfacts | ⟨_, -, h⟩
  · exact hdistinct .fact hfacts
  rcases of_bind_eq_error h with hoperators | ⟨_, -, h⟩
  · exact hdistinct .operator hoperators
  rcases of_bind_eq_error h with htasks | ⟨_, -, h⟩
  · exact hdistinct .task htasks
  split at h
  · rename_i name hname
    cases h
    exact .ambiguousTask (List.mem_of_find?_eq_some hname) (by simpa using List.find?_some hname)
  · exact hdistinct .method h

end Passes

/-! ## From names to positions -/

/-- The draft says by position what the document says by name. -/
structure Drafted (d : Document) (draft : Draft) : Prop where
  facts : draft.facts = d.facts.toArray
  operators : List.Forall₂ (fun e o => d.operatorDraft e = .ok o) d.operators draft.operators.toList
  compounds : draft.compounds = d.tasks.toArray
  methods : List.Forall₂ (fun e x => d.methodDraft e = .ok x) d.methods draft.methods.toList
  init : d.factIds d.init = .ok draft.init
  goal : d.factIds d.goal = .ok draft.goal
  network : d.Spells d.network draft.network

section Draft

variable {d : Document} {draft : Draft} {e : ModelError}

theorem drafted_of_toDraft (h : d.toDraft = .ok draft) : d.Drafted draft := by
  unfold toDraft at h
  obtain ⟨-, -, h⟩ := exists_of_bind_eq_ok h
  obtain ⟨operators, hops, h⟩ := exists_of_bind_eq_ok h
  obtain ⟨methods, hmethods, h⟩ := exists_of_bind_eq_ok h
  obtain ⟨init, hinit, h⟩ := exists_of_bind_eq_ok h
  obtain ⟨goal, hgoal, h⟩ := exists_of_bind_eq_ok h
  obtain ⟨network, hnet, h⟩ := exists_of_bind_eq_ok h
  cases h
  exact ⟨rfl, forall₂_of_mapM_eq_ok hops, rfl, forall₂_of_mapM_eq_ok hmethods, hinit, hgoal, spells_of_mapM hnet⟩

/-- **Names turn into positions exactly if each has one meaning**, whether or not something is left to do. -/
theorem exists_toDraft_iff : (∃ draft, d.toDraft = .ok draft) ↔
    ((∀ kind, (d.namesOf kind).Nodup) ∧ ∀ name ∈ d.operatorNames, name ∉ d.tasks) ∧
      (∀ name ∈ d.factsUsed, name ∈ d.facts) ∧ (∀ x ∈ d.methods, x.task ∈ d.tasks) ∧
      ∀ name ∈ d.tasksUsed, name ∈ d.operatorNames ∨ name ∈ d.tasks := by
  have hops : (∃ os, d.operators.mapM d.operatorDraft = .ok os) ↔
      ∀ name ∈ d.operators.flatMap (fun o => o.pre ++ o.negPre ++ o.add ++ o.del), name ∈ d.facts := by
    simp only [exists_mapM_iff, exists_operatorDraft_iff, List.forall_mem_flatMap]
  have hmethods : (∃ xs, d.methods.mapM d.methodDraft = .ok xs) ↔ (∀ x ∈ d.methods, x.task ∈ d.tasks) ∧
      (∀ name ∈ d.methods.flatMap (·.subtasks), name ∈ d.operatorNames ∨ name ∈ d.tasks) ∧
      ∀ name ∈ d.methods.flatMap (fun x => x.pre ++ x.negPre), name ∈ d.facts := by
    simp only [exists_mapM_iff, exists_methodDraft_iff, List.forall_mem_flatMap, ← forall_and]
  have hnet : (∃ network, d.network.mapM d.taskNamed = .ok network) ↔
      ∀ name ∈ d.network, name ∈ d.operatorNames ∨ name ∈ d.tasks := by
    simp only [exists_mapM_iff, exists_taskNamed_iff]
  have hinit : (∃ ids, d.factIds d.init = .ok ids) ↔ ∀ name ∈ d.init, name ∈ d.facts := exists_factIds_iff
  have hgoal : (∃ ids, d.factIds d.goal = .ok ids) ↔ ∀ name ∈ d.goal, name ∈ d.facts := exists_factIds_iff
  rw [← exists_checkNames_iff, factsUsed, tasksUsed, List.forall_mem_append, List.forall_mem_append,
    List.forall_mem_append, List.forall_mem_append, ← hops, ← hinit, ← hgoal, ← hnet]
  unfold toDraft
  simp only [exists_bind_iff]
  constructor
  · rintro ⟨_, hnames, _, hos, _, hxs, _, hinit, _, hgoal, _, hn, -⟩
    obtain ⟨hrefined, hsub, hpre⟩ := hmethods.mp ⟨_, hxs⟩
    exact ⟨⟨_, hnames⟩, ⟨⟨⟨⟨_, hos⟩, hpre⟩, _, hinit⟩, _, hgoal⟩, hrefined, hsub, _, hn⟩
  · rintro ⟨⟨_, hnames⟩, ⟨⟨⟨⟨_, hos⟩, hpre⟩, _, hinit⟩, _, hgoal⟩, hrefined, hsub, _, hn⟩
    obtain ⟨_, hxs⟩ := hmethods.mpr ⟨hrefined, hsub, hpre⟩
    exact ⟨_, hnames, _, hos, _, hxs, _, hinit, _, hgoal, _, hn, _, rfl⟩

/-- **Names that cannot be turned into positions are flawed.** -/
theorem flaw_of_toDraft (h : d.toDraft = .error e) : d.Flaw e := by
  unfold toDraft at h
  rcases of_bind_eq_error h with hnames | ⟨_, -, h⟩
  · exact flaw_of_checkNames hnames
  rcases of_bind_eq_error h with hops | ⟨_, -, h⟩
  · obtain ⟨o, ho, hfail⟩ := exists_of_mapM_eq_error hops
    obtain ⟨name, hname, rfl, hunknown⟩ := operatorDraft_eq_error hfail
    have hused := List.mem_flatMap_of_mem (f := fun o => o.pre ++ o.negPre ++ o.add ++ o.del) ho hname
    exact .unknownFact (by simp only [factsUsed, List.mem_append, hused, true_or]) hunknown
  rcases of_bind_eq_error h with hmethods | ⟨_, -, h⟩
  · obtain ⟨x, hx, hfail⟩ := exists_of_mapM_eq_error hmethods
    exact flaw_of_methodDraft hx hfail
  rcases of_bind_eq_error h with hinit | ⟨_, -, h⟩
  · obtain ⟨name, hname, rfl, hunknown⟩ := factIds_eq_error hinit
    exact .unknownFact (by simp [factsUsed, hname]) hunknown
  rcases of_bind_eq_error h with hgoal | ⟨_, -, h⟩
  · obtain ⟨name, hname, rfl, hunknown⟩ := factIds_eq_error hgoal
    exact .unknownFact (by simp [factsUsed, hname]) hunknown
  rcases of_bind_eq_error h with hnet | ⟨_, -, h⟩
  · obtain ⟨name, hname, hfail⟩ := exists_of_mapM_eq_error hnet
    obtain ⟨rfl, hunknown⟩ := taskNamed_eq_error hfail
    exact .unknownTask (List.mem_append_right _ hname) hunknown
  · cases h

end Draft

namespace Drafted

variable {d : Document} {draft : Draft} {names : List String} {ids : List Nat}

/-- Positions found for facts are those of facts. -/
theorem lt_of_factIds (h : d.Drafted draft) (hids : d.factIds names = .ok ids) : ∀ f ∈ ids, f < draft.facts.size := by
  intro f hf
  obtain ⟨i, hi⟩ := List.getElem?_of_mem hf
  obtain ⟨name, -, hname⟩ := getElem?_of_forall₂ (forall₂_of_factIds hids).flip hi
  rw [h.facts, List.size_toArray]
  exact (List.getElem?_eq_some_iff.mp hname).1

/-- **The set of the positions found for a list of names is the set of its facts.** -/
theorem lists_of_factSet (h : d.Drafted draft) (hnodup : d.facts.Nodup) {place : Place} {s : IdSet}
    (hids : d.factIds names = .ok ids) (hs : draft.factSet place ids = .ok s) : d.Lists names s := by
  have hwidth : draft.facts.size = d.facts.length := by rw [h.facts, List.size_toArray]
  have hlt := h.lt_of_factIds hids
  have hfound := forall₂_of_factIds hids
  have hset : s = IdSet.ofList draft.facts.size ids := by
    unfold Draft.factSet at hs
    split at hs <;> cases hs
    rfl
  refine ⟨(Draft.width_of_factSet hs).trans hwidth, fun i => ?_⟩
  rw [hset, IdSet.mem_ofList]
  constructor
  · rintro ⟨hi, -⟩
    obtain ⟨k, hk⟩ := List.getElem?_of_mem hi
    obtain ⟨name, hname, hat⟩ := getElem?_of_forall₂ hfound.flip hk
    exact ⟨name, List.mem_of_getElem? hname, hat⟩
  · rintro ⟨name, hname, hat⟩
    obtain ⟨k, hk⟩ := List.getElem?_of_mem hname
    obtain ⟨j, hj, hat'⟩ := getElem?_of_forall₂ hfound hk
    obtain rfl : i = j := (List.getElem?_inj (List.getElem?_eq_some_iff.mp hat).1 hnodup).mp (hat.trans hat'.symm)
    exact ⟨List.mem_of_getElem? hj, hlt _ (List.mem_of_getElem? hj)⟩

/-- A task that has a name is declared. -/
theorem hasTask (h : d.Drafted draft) {t : Task} {name : String} (ht : d.taskName? t = some name) :
    draft.hasTask t = true := by
  cases t with
  | operator i =>
    have hlt := (List.getElem?_eq_some_iff.mp ht).1
    rw [operatorNames, List.length_map, h.operators.length_eq, Array.length_toList] at hlt
    exact decide_eq_true hlt
  | compound a =>
    have hlt := (List.getElem?_eq_some_iff.mp ht).1
    rw [Draft.hasTask, h.compounds, List.size_toArray]
    exact decide_eq_true hlt

/-- The tasks of a network that was spelled out are declared. -/
theorem hasTask_of_spells (h : d.Drafted draft) {network : List Task} (hspells : d.Spells names network) :
    ∀ t ∈ network, draft.hasTask t = true := by
  intro t ht
  obtain ⟨k, hk⟩ := List.getElem?_of_mem ht
  obtain ⟨name, -, hname⟩ := getElem?_of_forall₂ hspells.flip hk
  exact h.hasTask hname

/-- **No position leads nowhere.** -/
theorem exists_assemble (h : d.Drafted draft) : ∃ m, draft.assemble = .ok m := by
  refine Draft.exists_assemble_iff.mpr ⟨fun o ho => ?_, fun x hx => ?_, h.lt_of_factIds h.init, h.lt_of_factIds h.goal,
    h.hasTask_of_spells h.network⟩
  · obtain ⟨i, hi⟩ := List.getElem?_of_mem (Array.mem_toList_iff.mpr ho)
    obtain ⟨e, -, he⟩ := getElem?_of_forall₂ h.operators.flip hi
    unfold operatorDraft at he
    obtain ⟨pre, hpre, he⟩ := exists_of_bind_eq_ok he
    obtain ⟨negPre, hneg, he⟩ := exists_of_bind_eq_ok he
    obtain ⟨add, hadd, he⟩ := exists_of_bind_eq_ok he
    obtain ⟨del, hdel, he⟩ := exists_of_bind_eq_ok he
    cases he
    exact ⟨h.lt_of_factIds hpre, h.lt_of_factIds hneg, h.lt_of_factIds hadd, h.lt_of_factIds hdel⟩
  · obtain ⟨i, hi⟩ := List.getElem?_of_mem (Array.mem_toList_iff.mpr hx)
    obtain ⟨e, -, he⟩ := getElem?_of_forall₂ h.methods.flip hi
    unfold methodDraft at he
    obtain ⟨task, htask, he⟩ := exists_of_bind_eq_ok he
    obtain ⟨network, hnet, he⟩ := exists_of_bind_eq_ok he
    obtain ⟨pre, hpre, he⟩ := exists_of_bind_eq_ok he
    obtain ⟨negPre, hneg, he⟩ := exists_of_bind_eq_ok he
    cases he
    refine ⟨?_, h.lt_of_factIds hpre, h.lt_of_factIds hneg, h.hasTask_of_spells (spells_of_mapM hnet)⟩
    have hlt := (List.getElem?_eq_some_iff.mp (getElem?_of_lookUp htask)).1
    rwa [h.compounds, List.size_toArray]

theorem describesOperator (h : d.Drafted draft) (hnodup : d.facts.Nodup) {e : OperatorEntry} {o : OperatorDraft}
    {i : Nat} {built : Operator} (he : d.operatorDraft e = .ok o) (ho : draft.buildOperator i o = .ok built) :
    d.DescribesOperator e built := by
  unfold operatorDraft at he
  obtain ⟨pre, hpre, he⟩ := exists_of_bind_eq_ok he
  obtain ⟨negPre, hneg, he⟩ := exists_of_bind_eq_ok he
  obtain ⟨add, hadd, he⟩ := exists_of_bind_eq_ok he
  obtain ⟨del, hdel, he⟩ := exists_of_bind_eq_ok he
  cases he
  unfold Draft.buildOperator at ho
  obtain ⟨_, hpre', ho⟩ := exists_of_bind_eq_ok ho
  obtain ⟨_, hneg', ho⟩ := exists_of_bind_eq_ok ho
  obtain ⟨_, hadd', ho⟩ := exists_of_bind_eq_ok ho
  obtain ⟨_, hdel', ho⟩ := exists_of_bind_eq_ok ho
  cases ho
  exact ⟨rfl, rfl, h.lists_of_factSet hnodup hpre hpre', h.lists_of_factSet hnodup hneg hneg',
    h.lists_of_factSet hnodup hadd hadd', h.lists_of_factSet hnodup hdel hdel'⟩

theorem describesMethod (h : d.Drafted draft) (hnodup : d.facts.Nodup) {e : MethodEntry} {x : MethodDraft} {i : Nat}
    {built : Method} (he : d.methodDraft e = .ok x) (hx : draft.buildMethod i x = .ok built) :
    d.DescribesMethod e built := by
  unfold methodDraft at he
  obtain ⟨task, htask, he⟩ := exists_of_bind_eq_ok he
  obtain ⟨network, hnet, he⟩ := exists_of_bind_eq_ok he
  obtain ⟨pre, hpre, he⟩ := exists_of_bind_eq_ok he
  obtain ⟨negPre, hneg, he⟩ := exists_of_bind_eq_ok he
  cases he
  have hnetwork := Draft.network_of_buildMethod hx
  unfold Draft.buildMethod at hx
  split at hx
  · cases hx
  · obtain ⟨-, -, hx⟩ := exists_of_bind_eq_ok hx
    obtain ⟨_, -, hx⟩ := exists_of_bind_eq_ok hx
    obtain ⟨_, hpre', hx⟩ := exists_of_bind_eq_ok hx
    obtain ⟨_, hneg', hx⟩ := exists_of_bind_eq_ok hx
    cases hx
    exact ⟨rfl, getElem?_of_lookUp htask, h.lists_of_factSet hnodup hpre hpre',
      h.lists_of_factSet hnodup hneg hneg', hnetwork ▸ spells_of_mapM hnet⟩

/-- What drafting a method keeps of its task and its subtasks. -/
theorem of_methodDraft {e : MethodEntry} {x : MethodDraft} (he : d.methodDraft e = .ok x) :
    d.tasks[x.task]? = some e.task ∧ d.Spells e.subtasks x.network := by
  unfold methodDraft at he
  obtain ⟨task, htask, he⟩ := exists_of_bind_eq_ok he
  obtain ⟨network, hnet, he⟩ := exists_of_bind_eq_ok he
  obtain ⟨_, -, he⟩ := exists_of_bind_eq_ok he
  obtain ⟨_, -, he⟩ := exists_of_bind_eq_ok he
  cases he
  exact ⟨getElem?_of_lookUp htask, spells_of_mapM hnet⟩

/-- The methods a task lists are those that name it, in order. -/
theorem map_methodsOf (draft : Draft) (a : Nat) :
    (draft.methodsOf a).map (draft.methods[·]?) = (draft.methods.toList.filter (·.task == a)).map some := by
  have hfst := List.filter_map (f := Prod.fst) (p := fun x : MethodDraft => x.task == a) (l := draft.methods.toList.zipIdx)
  rw [List.zipIdx_map_fst] at hfst
  rw [hfst, Draft.methodsOf, List.map_map, List.map_map]
  refine List.map_congr_left fun z hz => ?_
  exact mem_zipIdx.mp (List.mem_filter.mp hz).1

/-- **A task has the methods whose entries name it.** -/
theorem forall₂_filter (h : d.Drafted draft) (hnodup : d.tasks.Nodup) {a : Nat} {name : String}
    (ha : d.tasks[a]? = some name) : List.Forall₂ (fun e x => d.methodDraft e = .ok x)
      (d.methods.filter (·.task == name)) (draft.methods.toList.filter (·.task == a)) := by
  refine List.rel_filter (R := fun e x => d.methodDraft e = .ok x) (fun e x he => ?_) h.methods
  have htask := (of_methodDraft he).1
  change (e.task == name) = true ↔ (x.task == a) = true
  rw [beq_iff_eq, beq_iff_eq]
  constructor
  · intro hname
    rw [← hname] at ha
    exact (List.getElem?_inj (List.getElem?_eq_some_iff.mp htask).1 hnodup).mp (htask.trans ha.symm)
  · rintro rfl
    exact Option.some.inj (htask.symm.trans ha)

/-- **One method refines a task exactly if one entry names it**, and then it is that of the entry. -/
theorem sole_method (h : d.Drafted draft) (hnodup : d.tasks.Nodup) {a : Nat} {name : String}
    (ha : d.tasks[a]? = some name) :
    (∃ e x i, d.methods.filter (·.task == name) = [e] ∧ draft.methodsOf a = [i] ∧ draft.methods[i]? = some x ∧
      d.methodDraft e = .ok x) ∨
    ((∀ e, d.methods.filter (·.task == name) ≠ [e]) ∧ ∀ i, draft.methodsOf a ≠ [i]) := by
  have hfilter := h.forall₂_filter hnodup ha
  have hlisted := map_methodsOf draft a
  generalize d.methods.filter (·.task == name) = entries at hfilter ⊢
  generalize draft.methods.toList.filter (·.task == a) = found at hfilter hlisted
  generalize draft.methodsOf a = listed at hlisted ⊢
  cases hfilter with
  | nil =>
    obtain rfl := List.map_eq_nil_iff.mp hlisted
    exact .inr ⟨nofun, nofun⟩
  | cons hx hrest =>
    obtain ⟨i, others, rfl, hi, hothers⟩ := List.map_eq_cons_iff.mp hlisted
    cases hrest with
    | nil =>
      obtain rfl := List.map_eq_nil_iff.mp hothers
      exact .inl ⟨_, _, i, rfl, rfl, hi, hx⟩
    | cons _ _ =>
      obtain ⟨j, more, rfl, -, -⟩ := List.map_eq_cons_iff.mp hothers
      exact .inr ⟨nofun, nofun⟩

/-- A lone task gives way to its only method where its name is that of an artificial top task. -/
theorem spells_unwrapped_compound (h : d.Drafted draft) (hnodup : d.tasks.Nodup) {a : Nat} {name : String}
    (hone : d.network = [name]) (hcompound : draft.network = [.compound a]) (hname : d.tasks[a]? = some name) :
    d.Spells d.unwrapped draft.unwrapped := by
  have hnet := h.network
  have hdeclared : draft.compounds[a]? = some name := by rw [h.compounds, List.getElem?_toArray, hname]
  unfold Document.unwrapped Draft.unwrapped Draft.topNetwork?
  rw [hone, hcompound] at hnet ⊢
  dsimp only
  rw [hdeclared]
  dsimp only
  by_cases htop : isArtificialTop name = true
  · rw [if_pos ⟨htop, List.mem_of_getElem? hname⟩, if_pos htop]
    obtain ⟨e, x, i, hentry, hlisted, hx, he⟩ | ⟨hentries, hlisted⟩ := h.sole_method hnodup hname
    · rw [hentry, hlisted]
      dsimp only
      rw [hx]
      exact (of_methodDraft he).2
    · generalize d.methods.filter (·.task == name) = entries at hentries ⊢
      generalize draft.methodsOf a = listed at hlisted ⊢
      split
      · exact absurd rfl (hentries _)
      · split
        · exact absurd rfl (hlisted _)
        · exact hnet
  · rw [if_neg fun hc => htop hc.1, if_neg htop]
    exact hnet

/-- **What is left to do is what the names say**, a lone top task unwrapped or not. -/
theorem spells_unwrapped (h : d.Drafted draft) (hnodup : d.tasks.Nodup)
    (hapart : ∀ name ∈ d.operatorNames, name ∉ d.tasks) : d.Spells d.unwrapped draft.unwrapped := by
  have hnet := h.network
  by_cases hlone : ∃ name, d.network = [name]
  · obtain ⟨name, hone⟩ := hlone
    rw [hone] at hnet
    obtain ⟨t, rest, hname, hrest, ht⟩ := List.forall₂_cons_left_iff.mp hnet
    obtain rfl := List.forall₂_nil_left_iff.mp hrest
    cases t with
    | operator i =>
      unfold Document.unwrapped Draft.unwrapped Draft.topNetwork?
      rw [ht] at hnet ⊢
      rw [hone]
      dsimp only
      rw [if_neg fun hc => hapart name (List.mem_of_getElem? hname) hc.2]
      exact hnet
    | compound a => exact h.spells_unwrapped_compound hnodup hone ht hname
  · -- no lone name, and so no lone task
    unfold Document.unwrapped Draft.unwrapped Draft.topNetwork?
    split
    · rename_i name hone
      exact absurd ⟨name, hone⟩ hlone
    · split
      · rename_i a hone
        rw [hone] at hnet
        obtain ⟨name, rest, -, hrest, hone'⟩ := List.forall₂_cons_right_iff.mp hnet
        obtain rfl := List.forall₂_nil_right_iff.mp hrest
        exact absurd ⟨name, hone'⟩ hlone
      · exact hnet

end Drafted

section Model

variable {d : Document} {m : Model} {e : ModelError}

/-- The methods of a task are those whose entries name it. -/
theorem exists_method_iff {methods : List Method} (hentries : List.Forall₂ d.DescribesMethod d.methods methods)
    (hnodup : d.tasks.Nodup) {a : Nat} {name : String} (ha : d.tasks[a]? = some name) (i : Nat) :
    (∃ y, methods[i]? = some y ∧ y.task = a) ↔ ∃ e, d.methods[i]? = some e ∧ e.task = name := by
  constructor
  · rintro ⟨y, hy, rfl⟩
    obtain ⟨e, he, hdescribes⟩ := getElem?_of_forall₂ hentries.flip hy
    exact ⟨e, he, Option.some.inj (hdescribes.task.symm.trans ha)⟩
  · rintro ⟨e, he, rfl⟩
    obtain ⟨y, hy, hdescribes⟩ := getElem?_of_forall₂ hentries he
    have hlt := (List.getElem?_eq_some_iff.mp hdescribes.task).1
    exact ⟨y, hy, (List.getElem?_inj hlt hnodup).mp (hdescribes.task.trans ha.symm)⟩

/-- **A built problem is the one its names describe.** -/
theorem describes_of_build {draft : Draft} (h : d.Drafted draft) (hdistinct : ∀ kind, (d.namesOf kind).Nodup)
    (hapart : ∀ name ∈ d.operatorNames, name ∉ d.tasks) (hm : draft.build = .ok m) : d.Describes m := by
  have hfiled := Draft.filed_of_build hm
  have hw := Draft.wellFormed_of_build hm
  obtain ⟨hassembled, hunwrapped⟩ := Draft.assemble_of_build hm
  have hnet : m.network = draft.unwrapped :=
    (congrArg Model.network hunwrapped).trans (Draft.network_withoutTop_of_assemble hassembled)
  obtain ⟨operators, methods, init, goal, hops, hmethods, hinit, hgoal, -, hfields⟩ := Draft.exists_of_assemble hassembled
  rw [Model.mk.injEq] at hfields
  obtain ⟨hfacts, hoperators, hcompounds, hmethods', hinit', hgoal', -⟩ := hfields
  have hnames : m.facts.toList.map (·.name) = d.facts := by
    rw [hfacts, Draft.buildFacts, h.facts]
    refine List.ext_getElem? fun i => ?_
    simp [Option.map_map, Function.comp_def]
  have htasks : m.compounds.toList.map (·.name) = d.tasks := by
    rw [hcompounds, Draft.buildCompounds, h.compounds]
    refine List.ext_getElem? fun a => ?_
    simp [Option.map_map, Function.comp_def]
  have hentries : List.Forall₂ d.DescribesMethod d.methods methods :=
    forall₂_trans (fun _ _ _ he hx => hx.elim fun _ => h.describesMethod (hdistinct .fact) he) h.methods
      (forall₂_of_mapM_zipIdx (f := draft.buildMethod) hmethods)
  refine ⟨hnames, ?_, htasks, by rw [hmethods']; exact hentries, fun a t ht =>
    ⟨hfiled.sorted a t ht, fun i => (hw.listed a t ht i).trans ?_⟩,
    hinit' ▸ h.lists_of_factSet (hdistinct .fact) h.init hinit,
    hgoal' ▸ h.lists_of_factSet (hdistinct .fact) h.goal hgoal, ?_, hw.stored⟩
  · rw [hoperators]
    exact forall₂_trans (fun _ _ _ he ho => ho.elim fun _ => h.describesOperator (hdistinct .fact) he) h.operators
      (forall₂_of_mapM_zipIdx (f := draft.buildOperator) hops)
  · have hname : d.tasks[a]? = some t.name := by
      rw [← htasks, List.getElem?_map, Array.getElem?_toList, ht]
      rfl
    rw [hmethods', List.getElem?_toArray]
    exact exists_method_iff hentries (hdistinct .task) hname i
  · rw [hnet]
    exact h.spells_unwrapped (hdistinct .task) hapart

/-- What a draft leaves to do is nothing exactly if the names do. -/
theorem Drafted.unwrapped_eq_nil_iff {draft : Draft} (h : d.Drafted draft) (hdistinct : ∀ kind, (d.namesOf kind).Nodup)
    (hapart : ∀ name ∈ d.operatorNames, name ∉ d.tasks) : draft.unwrapped = [] ↔ d.unwrapped = [] := by
  have hlength := (h.spells_unwrapped (hdistinct .task) hapart).length_eq
  rw [← List.length_eq_zero_iff, ← List.length_eq_zero_iff, hlength]

/-- **A document is a problem exactly if its names can be resolved.** -/
theorem exists_toModel_iff : (∃ m, d.toModel = .ok m) ↔ d.Resolvable := by
  have hbuilds : ∀ {draft}, d.toDraft = .ok draft → ((∃ m, draft.build = .ok m) ↔ d.unwrapped ≠ []) := by
    intro draft hdraft
    have h := drafted_of_toDraft hdraft
    obtain ⟨⟨hdistinct, hapart⟩, -⟩ := exists_toDraft_iff.mp ⟨draft, hdraft⟩
    rw [ne_eq, ← h.unwrapped_eq_nil_iff hdistinct hapart, Draft.exists_build_iff]
    obtain ⟨hops, hmethods, hinit, hgoal, htasks⟩ := Draft.exists_assemble_iff.mp h.exists_assemble
    exact ⟨Draft.Valid.unwrapped, fun hne => ⟨hops, hmethods, hinit, hgoal, htasks, hne⟩⟩
  unfold toModel
  rw [exists_bind_iff]
  constructor
  · rintro ⟨draft, hdraft, hm⟩
    obtain ⟨⟨hdistinct, hapart⟩, hfacts, hrefined, htasks⟩ := exists_toDraft_iff.mp ⟨draft, hdraft⟩
    exact ⟨hdistinct, hapart, hfacts, hrefined, htasks, (hbuilds hdraft).mp hm⟩
  · intro h
    obtain ⟨draft, hdraft⟩ := exists_toDraft_iff.mpr ⟨⟨h.distinct, h.apart⟩, h.facts, h.refined, h.tasks⟩
    exact ⟨draft, hdraft, (hbuilds hdraft).mpr h.unwrapped⟩

/-- **A document is refused for a flaw in its names.** -/
theorem flaw_of_toModel (h : d.toModel = .error e) : d.Flaw e := by
  unfold toModel at h
  rcases of_bind_eq_error h with hdraft | ⟨draft, hdraft, h⟩
  · exact flaw_of_toDraft hdraft
  have hdrafted := drafted_of_toDraft hdraft
  obtain ⟨⟨hdistinct, hapart⟩, -⟩ := exists_toDraft_iff.mp ⟨draft, hdraft⟩
  obtain ⟨m, hm⟩ := hdrafted.exists_assemble
  unfold Draft.build at h
  rcases of_bind_eq_error h with hfail | ⟨m', hm', h⟩
  · rw [hm] at hfail
    cases hfail
  obtain rfl := Except.ok.inj (hm.symm.trans hm')
  split at h
  · rename_i hempty
    cases h
    rw [Draft.network_withoutTop_of_assemble hm, List.isEmpty_iff, hdrafted.unwrapped_eq_nil_iff hdistinct hapart] at hempty
    exact .emptyNetwork hempty
  · cases h

/-- **Which documents are problems, and which problem a document is.**  A document is turned into a problem exactly if
its names can be resolved; the problem is the one they describe, of which there is only one; and a document that is
refused has the flaw it is refused for, which is one of its names and never a position. -/
theorem toModel_iff (d : Document) :
    ((∃ m, d.toModel = .ok m) ↔ d.Resolvable) ∧ (∀ m, d.toModel = .ok m ↔ d.Resolvable ∧ d.Describes m) ∧
      ∀ e, d.toModel = .error e → d.Flaw e := by
  have hdescribes : ∀ m, d.toModel = .ok m → d.Describes m := by
    intro m hm
    have h := exists_toModel_iff.mp ⟨m, hm⟩
    obtain ⟨draft, hdraft, hm⟩ := exists_of_bind_eq_ok hm
    exact describes_of_build (drafted_of_toDraft hdraft) h.distinct h.apart hm
  refine ⟨exists_toModel_iff, fun m => ⟨fun hm => ⟨exists_toModel_iff.mp ⟨m, hm⟩, hdescribes m hm⟩, ?_⟩, fun e =>
    flaw_of_toModel⟩
  rintro ⟨h, hm⟩
  obtain ⟨n, hn⟩ := exists_toModel_iff.mpr h
  rw [hn, (hdescribes n hn).unique h hm]

end Model

end Document

end HierPlan
