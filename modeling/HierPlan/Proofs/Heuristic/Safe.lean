import HierPlan.Proofs.Cost.Decomposition
import HierPlan.Proofs.Heuristic.LandmarkCount
import HierPlan.Proofs.Landmark.Rounds
import HierPlan.Proofs.Model.WellFormed
import HierPlan.Proofs.Search.Coverage

/-!
# Proofs/Heuristic/Safe — a dead end is one

    blind           calls nothing a dead end
    landmarks       the root only, where an open id is not derived bottom-up
    decomposition   a network that costs the cap
    cuts            a network whose goal costs the cap

Each relaxation derives whatever an execution does, so **no situation from which the goal can be reached is
called a dead end** (`Estimator.Serves.safe`, `Heuristic.looked`).  Decomposition costs end at the cap,
so they answer for plans that weigh less (`HeuristicOptions.Admits`); cuts add up costs, so all operators
together must cost less; and a count of landmarks has to fit a word (`HeuristicOptions.Holds`).
-/

namespace HierPlan

variable {α : Type} [Scale α] {m : Model} {o : HeuristicOptions}

/-- Plans that a heuristic answers for. -/
def HeuristicOptions.Admits (o : HeuristicOptions) (m : Model) (plan : List Nat) : Prop :=
  o.kind = .decomposition → m.planWeight o.weighting plan < costCap

/-- Problems that a heuristic answers for: ids are machine words, and costs that are added up stay below
the cap. -/
structure HeuristicOptions.Holds (o : HeuristicOptions) (m : Model) : Prop where
  landmarkCount : o.kind = .landmarkCount → m.size < wordBound
  landmarkCut : o.kind = .landmarkCut → m.totalCost < costCap

/-- An estimator the options ask for.  A landmark counter may be fresh, or was asked about the start. -/
inductive Estimator.Serves (m : Model) (o : HeuristicOptions) : Estimator α → Prop where
  | blind (kind : o.kind = .blind) : Serves m o .blind
  | landmarkCount {c : LandmarkCount α} (kind : o.kind = .landmarkCount)
      (counter : c = .build m o.landmarks ∨ c.Ready m) : Serves m o (.landmarkCount c)
  | decomposition (kind : o.kind = .decomposition) :
      Serves m o (.decomposition (.ofModel m o.weighting))
  | landmarkCut (kind : o.kind = .landmarkCut) : Serves m o (.landmarkCut (.build m))

/-- A heuristic that the options ask for, fresh or after any searches of the problem. -/
inductive Heuristic.Used (m : Model) (o : HeuristicOptions) : Heuristic α → Prop where
  | fresh {h : Heuristic α} (built : Heuristic.build m o = .ok h) : Used m o h
  | again {h : Heuristic α} {x : Search} {mon : Monitor} {fuel : Nat} {done : Finished α}
      (before : Used m o h) (same : x.model = m) (ran : x.run mon fuel (x.start h) = some done) :
      Used m o done.last.heuristic

/-! ## Situations worth keeping -/

/-- A situation worth keeping has an execution that reaches the goal. -/
theorem Worth.exists_execution {fits : List Nat → Prop} {s : Situation} (h : Worth m fits s) :
    ∃ p t, Execution m s.state s.network p t ∧ (∀ f ∈ m.goal, f ∈ t) ∧ fits p := by
  obtain ⟨p, b, hwalk, hgoal, hfits⟩ := h.solvable
  obtain ⟨hempty, hfacts⟩ := Situation.isGoal_iff.mp hgoal
  exact ⟨p, b.state, hwalk.execution hempty, hfacts, hfits⟩

/-- The start is worth keeping if there is a solution. -/
theorem worth_start (hw : m.WellFormed) {fits : List Nat → Prop} {plan : List Nat}
    (h : m.IsSolution plan) (hp : fits plan) : Worth m fits m.start := by
  obtain ⟨t, hexec, hgoal⟩ := h
  exact ⟨hw.init, plan, ⟨t, []⟩, execution_iff_walk.mp hexec, Situation.isGoal_iff.mpr ⟨rfl, hgoal⟩, hp⟩

/-- The rest of a plan that is answered for is answered for. -/
theorem HeuristicOptions.Admits.suffix {p q : List Nat} (h : o.Admits m (p ++ q)) : o.Admits m q := by
  intro hkind
  have hsum := h hkind
  rw [Model.planWeight, List.map_append, List.sum_append] at hsum
  exact (Nat.le_add_left _ _).trans_lt hsum

/-! ## Estimates -/

section Lawful

variable [Scale.Lawful α] (hw : m.WellFormed) (ho : o.Holds m)

/-- A cost up to the cap is no dead end. -/
theorem finite_ofNat {n : Nat} (h : n ≤ costCap) : Scale.isFinite (Scale.ofNat n : α) = true :=
  Scale.Lawful.finite_ofNat n (Nat.lt_succ_of_le h)

include hw ho in
/-- **What is worth keeping is called no dead end**, if nothing is marked. -/
theorem Estimator.Serves.finite_plain {e : Estimator α} (he : e.Serves m o)
    (hk : ∀ c, e ≠ .landmarkCount c) {s : Situation} (hs : Worth m (o.Admits m) s) :
    Scale.isFinite (Heuristic.plain m s e) = true := by
  obtain ⟨p, t, hexec, hgoal, hfits⟩ := hs.exists_execution
  cases he with
  | blind => exact finite_ofNat (Nat.zero_le _)
  | landmarkCount => exact absurd rfl (hk _)
  | decomposition kind =>
    obtain ⟨c, hc, hle⟩ := DecompositionCosts.network?_le hw hexec (hfits kind)
    rw [Heuristic.plain, hc]
    exact finite_ofNat (hle.trans (hfits kind).le)
  | landmarkCut kind =>
    rw [Heuristic.plain, LandmarkCut.compute_of_execution hw hexec.hasTask (ho.landmarkCut kind) hs.width
      hexec hgoal]
    exact finite_ofNat (Nat.min_le_right _ _)

/-- Any landmark counter that serves is ready. -/
def Estimator.IsReady (m : Model) (e : Estimator α) : Prop :=
  ∀ c, e = .landmarkCount c → c.Ready m

include hw ho in
/-- **Estimators that serve and are ready are safe.** -/
theorem Estimator.Serves.safe {e : Estimator α} (he : e.Serves m o) (hready : e.IsReady m) :
    e.Safe m (Worth m (o.Admits m)) := by
  rintro ⟨e, statistics⟩ rfl a marks v haccepts hworth
  cases e with
  | landmarkCount c =>
    obtain ⟨k, rfl, hk⟩ := haccepts
    cases he with
    | landmarkCount kind =>
      exact LandmarkCount.finite_atMove (hready c rfl) (ho.landmarkCount kind) hk a v
  | blind => exact he.finite_plain hw ho (fun _ hc => nomatch hc) hworth
  | decomposition t =>
    exact he.finite_plain hw ho (fun _ hc => nomatch hc) hworth
  | landmarkCut k =>
    exact he.finite_plain hw ho (fun _ hc => nomatch hc) hworth

/-- What a heuristic is like once it has looked at the start of a search. -/
structure Heuristic.Looked (m : Model) (o : HeuristicOptions) (h : Heuristic α) : Prop where
  serves : (h.atRoot m m.start).2.release.estimator.Serves m o
  ready : (h.atRoot m m.start).2.release.estimator.IsReady m
  accepts : Scale.isFinite (h.atRoot m m.start).1.value = true →
    (h.atRoot m m.start).2.release.estimator.Accepts m (h.atRoot m m.start).1.marks
  finite : Worth m (o.Admits m) m.start → Scale.isFinite (h.atRoot m m.start).1.value = true

include hw ho in
/-- **A heuristic that serves is safe at the root, and ready below it.** -/
theorem Heuristic.looked {h : Heuristic α} (he : h.estimator.Serves m o) : h.Looked m o := by
  obtain ⟨e, statistics⟩ := h
  cases e with
  | landmarkCount c =>
    cases he with
    | landmarkCount kind counter =>
      obtain ⟨hready, hmarks, hfinite⟩ := LandmarkCount.atRoot_start hw (ho.landmarkCount kind) counter
      have hreleased : ((c.atRoot m m.start).2.release).Ready m := hready
      refine ⟨.landmarkCount kind (.inr hreleased), ?_, hmarks, fun hworth => ?_⟩
      · rintro c' hc'
        obtain rfl := Estimator.landmarkCount.inj hc'
        exact hreleased
      · obtain ⟨p, t, hexec, hgoal, -⟩ := hworth.exists_execution
        exact hfinite p ⟨t, hexec, hgoal⟩
  | blind =>
    exact ⟨he, fun _ hc => (nomatch hc), fun _ => trivial,
      he.finite_plain hw ho (fun _ hc => nomatch hc)⟩
  | decomposition t =>
    exact ⟨he, fun _ hc => (nomatch hc), fun _ => trivial,
      he.finite_plain hw ho (fun _ hc => nomatch hc)⟩
  | landmarkCut k =>
    exact ⟨he, fun _ hc => (nomatch hc), fun _ => trivial,
      he.finite_plain hw ho (fun _ hc => nomatch hc)⟩

end Lawful

end HierPlan
