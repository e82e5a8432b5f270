import HierPlan.Config
import HierPlan.Json.Double
import HierPlan.Json.Reader
import HierPlan.Nanoseconds

/-!
# Config/Interchange — planner options as JSON

Every option may be left out and then has its default; limits may also be `null`.  A time limit is
given in seconds.
-/

namespace HierPlan

/-- The names of the search orders. -/
def SearchKind.names : List (String × SearchKind) :=
  [("a_star", .aStar), ("greedy_best_first", .greedyBestFirst), ("breadth_first", .breadthFirst),
    ("depth_first", .depthFirst)]

/-- The names of the revisit policies. -/
def Revisit.names : List (String × Revisit) := [("off", .off), ("hashed_key", .hashedKey)]

/-- The names of the heuristics. -/
def HeuristicKind.names : List (String × HeuristicKind) :=
  [("blind", .blind), ("landmark_count", .landmarkCount), ("tdg", .decomposition),
    ("lm_cut", .landmarkCut)]

/-- The names of the weightings. -/
def Weighting.names : List (String × Weighting) := [("unit", .unit), ("cost", .cost)]

/-- A span of time in seconds. -/
def Json.asSeconds (v : Json) : Option Nat := do
  let seconds ← Json.asDouble v
  nanosOfSeconds? seconds

namespace SearchOptions

/-- Reads search options. -/
def ofJson? (v : Json) : Option SearchOptions := do
  let d : SearchOptions := {}
  match ← Json.fields?
      ["kind", "revisit", "time_limit", "memory_limit_bytes", "check_interval", "novelty"] v with
  | [kind, revisit, timeLimit, memoryLimit, checkInterval, novelty] =>
    some {
      kind := ← Json.field (Json.asChoice SearchKind.names) (some d.kind) kind
      revisit := ← Json.field (Json.asChoice Revisit.names) (some d.revisit) revisit
      timeLimit := ← Json.field (Json.asOption Json.asSeconds) (some d.timeLimit) timeLimit
      memoryLimit := ← Json.field (Json.asOption Json.asWord) (some d.memoryLimit) memoryLimit
      checkInterval := ← Json.field Json.asWord (some d.checkInterval) checkInterval
      novelty := ← Json.field Json.asBool (some d.novelty) novelty }
  | _ => none

end SearchOptions

namespace LandmarkOptions

/-- Reads landmark options. -/
def ofJson? (v : Json) : Option LandmarkOptions := do
  match ← Json.fields? ["bidirectional", "use_ucp"] v with
  | [bidirectional, partition] =>
    some {
      bidirectional := ← Json.field Json.asBool (some false) bidirectional
      partition := ← Json.field Json.asBool (some false) partition }
  | _ => none

end LandmarkOptions

namespace HeuristicOptions

/-- Reads heuristic options. -/
def ofJson? (v : Json) : Option HeuristicOptions := do
  let d : HeuristicOptions := {}
  match ← Json.fields? ["kind", "landmarks", "tdg_weighting"] v with
  | [kind, landmarks, weighting] =>
    some {
      kind := ← Json.field (Json.asChoice HeuristicKind.names) (some d.kind) kind
      landmarks := ← Json.field LandmarkOptions.ofJson? (some d.landmarks) landmarks
      weighting := ← Json.field (Json.asChoice Weighting.names) (some d.weighting) weighting }
  | _ => none

end HeuristicOptions

namespace PlannerOptions

/-- Reads planner options. -/
def ofJson? (v : Json) : Option PlannerOptions := do
  match ← Json.fields? ["search", "heuristic"] v with
  | [search, heuristic] =>
    some {
      search := ← Json.field SearchOptions.ofJson? (some {}) search
      heuristic := ← Json.field HeuristicOptions.ofJson? (some {}) heuristic }
  | _ => none

/-- Reads the text of planner options. -/
def read? (text : String) : Option PlannerOptions := (Json.parse? text).bind ofJson?

end PlannerOptions

end HierPlan
