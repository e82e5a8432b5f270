import HierPlan.Landmark.Partition
import HierPlan.Progression

/-!
# Heuristic/LandmarkCount — counting landmarks not achieved yet

The landmarks are those of the root of a search.  Each node carries `Marks`: the landmarks, and those
among them that were achieved on the way to it.  A node's estimate is the number of the others, or
what they cost when unit costs are shared.  The tables of the engine are asked at a root only; a
root that was asked about before is remembered, so the tables may be released in between.
-/

namespace HierPlan

/-- How landmarks are found and counted. -/
structure LandmarkOptions where
  /-- Close the landmarks under the top-down table. -/
  bidirectional : Bool := false
  /-- Count shared unit costs instead of landmarks. -/
  partition : Bool := false
  deriving DecidableEq

/-- The landmarks of a search and the ones a node has achieved. -/
structure Marks where
  landmarks : IdSet
  achieved : IdSet

/-- The landmarks not achieved yet, in order. -/
def Marks.open (k : Marks) : List Nat :=
  k.landmarks.toList.filter fun id => !k.achieved.contains id

/-- An estimate, and the marks that go with it. -/
structure Estimate (α : Type) where
  value : α
  marks : Option Marks

/-- What was found out about a root. -/
structure RootLandmarks (α : Type) where
  root : Situation
  /-- None if the root cannot reach the goal. -/
  landmarks : Option IdSet
  /-- The cost of each landmark, if costs are shared. -/
  costs : Option (Array α)

/-- The engine and the last root it was asked about. -/
structure LandmarkCount (α : Type) where
  engine : LandmarkEngine
  options : LandmarkOptions
  root : Option (RootLandmarks α)

namespace LandmarkCount

variable {α : Type} [Scale α]

/-- Counts landmarks of an engine that can serve the options. -/
def ofEngine (engine : LandmarkEngine) (options : LandmarkOptions) :
    Except LandmarkError (LandmarkCount α) :=
  if options.bidirectional && !engine.bidirectional then .error .topDownUnavailable
  else .ok ⟨engine, options, none⟩

/-- Builds the tables the options ask for. -/
def build (m : Model) (options : LandmarkOptions) : LandmarkCount α :=
  ⟨LandmarkEngine.build m options.bidirectional, options, none⟩

/-- The counter without its tables. -/
def release (c : LandmarkCount α) : LandmarkCount α := { c with engine := c.engine.release }

/-- Asks the engine about a root. -/
def ask (c : LandmarkCount α) (m : Model) (s : Situation) :
    Except LandmarkError (RootLandmarks α) := do
  let landmarks ← c.engine.landmarks m s.state s.network c.options.bidirectional
  match landmarks with
  | some set =>
    if c.options.partition then
      let costs ← c.engine.partition set
      return ⟨s, landmarks, some costs⟩
    else
      return ⟨s, landmarks, none⟩
  | none => return ⟨s, landmarks, none⟩

/-- What the landmarks not achieved yet count. -/
def value (c : LandmarkCount α) (k : Marks) : α :=
  match c.root.bind (·.costs) with
  | some costs => totalCost costs k.open
  | none => Scale.ofNat (k.landmarks.count - k.achieved.count)

/-- The counter after it has looked at a root: remembered, asked for, or left as it was if the
tables are gone. -/
def lookAt (c : LandmarkCount α) (m : Model) (s : Situation) : Option (LandmarkCount α) :=
  if c.root.any fun r => decide (r.root = s) then some c
  else
    match c.ask m s with
    | .ok r => some { c with root := some r }
    | .error _ => none

/-- A node whose achieved landmarks are those of `candidates`. -/
def marked (c : LandmarkCount α) (landmarks candidates : IdSet) : Estimate α :=
  let marks : Marks := ⟨landmarks, candidates.inter landmarks⟩
  ⟨c.value marks, some marks⟩

/-- Estimates a root: landmarks among its facts are achieved. -/
def atRoot (c : LandmarkCount α) (m : Model) (s : Situation) : Estimate α × LandmarkCount α :=
  match c.lookAt m s with
  | none => (⟨Scale.infinite, none⟩, c)
  | some c =>
    match c.root.bind (·.landmarks) with
    | none => (⟨Scale.infinite, none⟩, c)
    | some landmarks => (c.marked landmarks (s.state.resize landmarks.width), c)

/-- Everything a move achieves: the operator and the facts it makes true, or the method and the
task it refines. -/
def gained (m : Model) (before : Situation) (move : Move) : List Nat :=
  match move.transition with
  | .operator i => m.operatorId i :: (move.next.state.sdiff before.state).toList
  | .method d =>
    match m.methods[d]? with
    | some x => [x.id, m.compoundId x.task]
    | none => []

/-- Estimates where a move leads from a node with the given marks.  A node without marks was let go
before, so nothing leads on from it. -/
def atMove (c : LandmarkCount α) (m : Model) (before : Situation) (marks : Option Marks)
    (move : Move) : Estimate α :=
  match marks with
  | none => ⟨Scale.infinite, none⟩
  | some k => c.marked k.landmarks ((gained m before move).foldl IdSet.insert k.achieved)

end LandmarkCount

end HierPlan
