import HierPlan.Config
import HierPlan.Cost.Decomposition
import HierPlan.Heuristic.Statistics
import HierPlan.Landmark.Cut

/-!
# Heuristic/Basic — estimating nodes of a search

A `Heuristic` is one of four estimators with its running statistics.  It is asked about a root
(`Heuristic.atRoot`) and about moves (`Heuristic.atMove`); an infinite estimate marks a dead end, and
nothing else does.  Marks that come with an estimate belong to the node and are handed back when its
moves are estimated.
-/

namespace HierPlan

/-- A way to estimate. -/
inductive Estimator (α : Type) where
  | blind
  | landmarkCount (counter : LandmarkCount α)
  | decomposition (costs : DecompositionCosts)
  | landmarkCut (cut : LandmarkCut)

/-- An estimator and the figures over its estimates. -/
structure Heuristic (α : Type) where
  estimator : Estimator α
  statistics : Statistics α

namespace Heuristic

variable {α : Type} [Scale α]

/-- An estimator that has not been asked yet. -/
def fresh (e : Estimator α) : Heuristic α := ⟨e, Statistics.empty⟩

/-- The name of the estimator. -/
def name (h : Heuristic α) : String :=
  match h.estimator with
  | .blind => "blind"
  | .landmarkCount _ => "landmark-count"
  | .decomposition _ => "tdg"
  | .landmarkCut _ => "lm-cut"

/-- The estimate of a situation by an estimator that keeps no marks. -/
def plain (m : Model) (s : Situation) : Estimator α → α
  | .blind => Scale.ofNat 0
  | .decomposition costs => Scale.ofNat? (costs.network? m s.network)
  | .landmarkCut cut => Scale.ofNat? (cut.compute m s.state s.network).value
  | .landmarkCount _ => Scale.infinite

/-- Estimates a root. -/
def atRoot (h : Heuristic α) (m : Model) (s : Situation) : Estimate α × Heuristic α :=
  let (estimate, estimator) : Estimate α × Estimator α :=
    match h.estimator with
    | .landmarkCount c =>
      let (estimate, c) := c.atRoot m s
      (estimate, .landmarkCount c)
    | e => (⟨plain m s e, none⟩, e)
  (estimate, ⟨estimator, h.statistics.record estimate.value⟩)

/-- Estimates where a move leads from a node with the given marks. -/
def atMove (h : Heuristic α) (m : Model) (before : Situation) (marks : Option Marks)
    (move : Move) : Estimate α × Heuristic α :=
  let estimate : Estimate α :=
    match h.estimator with
    | .landmarkCount c => c.atMove m before marks move
    | e => ⟨plain m move.next e, none⟩
  (estimate, { h with statistics := h.statistics.record estimate.value })

/-- Every estimate of a move is recorded. -/
theorem statistics_atMove (h : Heuristic α) (m : Model) (before : Situation) (marks : Option Marks) (move : Move) :
    (h.atMove m before marks move).2.statistics =
      h.statistics.record (h.atMove m before marks move).1.value := rfl

/-- The heuristic without what it needs at a root only. -/
def release (h : Heuristic α) : Heuristic α :=
  match h.estimator with
  | .landmarkCount c => { h with estimator := .landmarkCount c.release }
  | _ => h

/-- The heuristic the options ask for. -/
def build (m : Model) (o : HeuristicOptions) : Except ConfigError (Heuristic α) := do
  o.check
  return fresh (match o.kind with
    | .blind => .blind
    | .landmarkCount => .landmarkCount (LandmarkCount.build m o.landmarks)
    | .decomposition => .decomposition (DecompositionCosts.ofModel m o.weighting)
    | .landmarkCut => .landmarkCut (LandmarkCut.build m))

end Heuristic

end HierPlan
