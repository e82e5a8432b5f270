import HierPlan.Graph.View
import HierPlan.Landmark.Table

/-!
# Landmark/Engine — landmarks of a state and a task network

A `LandmarkEngine` holds the landmark tables of one problem: bottom-up always, top-down when it is
built for both directions.  `LandmarkEngine.seed` joins the bottom-up entries of everything still to
be reached, and `LandmarkEngine.closure` closes a set under the entries of both tables.  The tables
grow with the square of the problem and may be released; what needs them then fails.
-/

namespace HierPlan

/-- Why a landmark question has no answer. -/
inductive LandmarkError where
  /-- The engine was built for one direction. -/
  | topDownUnavailable
  /-- The tables were released. -/
  | released
  deriving DecidableEq, Repr

/-- The cause in words. -/
def LandmarkError.message : LandmarkError → String
  | .topDownUnavailable =>
    "top-down landmarks requested but the bidirectional graph was not built"
  | .released => "landmark tables were released after the search root was seeded"

/-- What an engine holds until it is released. -/
structure LandmarkTables where
  /-- The bottom-up graph. -/
  graph : AndOrGraph
  bottomUp : LandmarkTable
  topDown : LandmarkTable

/-- The landmark tables of a problem. -/
structure LandmarkEngine where
  /-- How many ids the problem uses. -/
  size : Nat
  /-- The facts that have to hold at the end. -/
  goal : IdSet
  /-- Whether the engine was built for both directions. -/
  bidirectional : Bool
  /-- The tables, until they are released. -/
  tables : Option LandmarkTables

namespace LandmarkEngine

/-- Builds the tables; without a second direction the top-down table stays empty. -/
def build (m : Model) (bidirectional : Bool) : LandmarkEngine :=
  let graph := View.bottomUp.graph m
  { size := m.size
    goal := m.goal
    bidirectional
    tables := some {
      graph
      bottomUp := graph.propagate
      topDown := if bidirectional then (View.topDown.graph m).propagate else ⟨#[], .empty 0⟩ } }

/-- Whether the tables are gone. -/
def isReleased (e : LandmarkEngine) : Bool := e.tables.isNone

/-- The engine without its tables. -/
def release (e : LandmarkEngine) : LandmarkEngine := { e with tables := none }

/-- What the engine holds. -/
def held (e : LandmarkEngine) : Except LandmarkError LandmarkTables :=
  match e.tables with
  | some t => .ok t
  | none => .error .released

/-- The bottom-up table and its graph. -/
def bottomUp (e : LandmarkEngine) : Except LandmarkError LandmarkTable := do
  let t ← e.held
  return t.bottomUp

/-- The top-down table. -/
def topDown (e : LandmarkEngine) : Except LandmarkError LandmarkTable := do
  if !e.bidirectional then
    throw .topDownUnavailable
  let t ← e.held
  return t.topDown

/-- What is still to be reached: the goal facts that do not hold, then the tasks. -/
def openIds (e : LandmarkEngine) (m : Model) (state : IdSet) (network : List Task) : List Nat :=
  (e.goal.toList.filter fun f => !state.contains f) ++ network.map m.taskId

/-- The bottom-up landmarks of everything still to be reached; none if some of it cannot be. -/
def seed (e : LandmarkEngine) (m : Model) (state : IdSet) (network : List Task) :
    Except LandmarkError (Option IdSet) := do
  let t ← e.bottomUp
  let wanted := e.openIds m state network
  return if wanted.all t.isReached then
    some (wanted.foldl (fun acc id => acc.union (t.entry id)) (.empty e.size))
  else none

/-- What an id brings in: its entries in the tables that reach it. -/
def gain (size : Nat) (bottomUp topDown : LandmarkTable) (id : Nat) (acc : IdSet) : IdSet :=
  let acc :=
    if decide (id < size) && bottomUp.isReached id then acc.union (bottomUp.entry id) else acc
  if topDown.isReached id then acc.union (topDown.entry id) else acc

/-- Adds what every member brings in until nothing is new, but at most `fuel` times. -/
def close (size : Nat) (bottomUp topDown : LandmarkTable) : (fuel : Nat) → IdSet → IdSet
  | 0, acc => acc
  | fuel + 1, acc =>
    let next := acc.toList.foldl (fun acc id => gain size bottomUp topDown id acc) acc
    if next = acc then acc else close size bottomUp topDown fuel next

/-- The least set around `seed` that holds the entries of its members, less the ids that are no
component.  Every round but the last adds an id, which bounds the rounds by the width. -/
def closure (e : LandmarkEngine) (seed : IdSet) : Except LandmarkError IdSet := do
  let td ← e.topDown
  let bu ← e.bottomUp
  return (close e.size bu td (td.width + 1) (seed.resize td.width)).resize e.size

/-- The landmarks of a state and a network, closed in both directions if asked. -/
def landmarks (e : LandmarkEngine) (m : Model) (state : IdSet) (network : List Task)
    (bidirectional : Bool) : Except LandmarkError (Option IdSet) := do
  match ← e.seed m state network with
  | none => return none
  | some seed =>
    if bidirectional then
      let closed ← e.closure seed
      return some closed
    else
      return some seed

end LandmarkEngine

end HierPlan
