import HierPlan.Json.Double
import HierPlan.Json.Reader
import HierPlan.Nanoseconds
import HierPlan.Search.Result

/-!
# Search/Record — results as JSON

A result is written as one object.  Reading takes such an object back, or an array of its values in
order; only estimates may be missing.
-/

namespace HierPlan

/-- The names of the outcomes. -/
def Status.names : List (String × Status) :=
  [("GOAL", .goal), ("UNSOLVABLE", .unsolvable), ("TIMEOUT", .timeout),
    ("OUT_OF_MEMORY", .outOfMemory)]

/-- The name of an outcome. -/
def Status.name : Status → String
  | .goal => "GOAL"
  | .unsolvable => "UNSOLVABLE"
  | .timeout => "TIMEOUT"
  | .outOfMemory => "OUT_OF_MEMORY"

/-! ## Writing -/

/-- A span of time: seconds, and the nanoseconds past them. -/
def spanRecord (nanos : Nat) : Json :=
  .record [("secs", .nat (nanos / nanosPerSecond)), ("nanos", .nat (nanos % nanosPerSecond))]

/-- The figures of a heuristic. -/
def Statistics.toJson (s : Statistics Float) : Json :=
  .record [("calls", .nat s.calls), ("finite", .nat s.finite), ("mean", .double s.mean),
    ("min", .orNull (s.min.map .double))]

/-- A result, and the names of the operators of its plan. -/
def Result.toJson (r : Result Float) (names : List String) : Json :=
  .record [
    ("status", .str r.status.name), ("expanded", .nat r.expanded),
    ("generated", .nat r.generated), ("pruned_revisits", .nat r.pruned),
    ("elapsed", spanRecord r.elapsed), ("solution_size", .nat r.solutionSize),
    ("plan", .array (r.plan.map .nat)), ("plan_cost", .nat r.planCost),
    ("initial_h", .orNull (r.initial.map .double)), ("heuristic", .str r.heuristic),
    ("heuristic_stats", r.statistics.toJson), ("plan_names", .array (names.map .str))]

/-! ## Reading -/

/-- A required field. -/
def required {β : Type} (read : Json → Option β) (v : Option Json) : Option β :=
  Json.field read none v

/-- A field that may be missing or `null`. -/
def optional {β : Type} (read : Json → Option β) (v : Option Json) : Option (Option β) :=
  Json.field (Json.asOption read) (some none) v

/-- Reads a span of time.  Nanoseconds fit 32 bits and carry into seconds, which have to fit 64 bits
all the same; no other field is allowed. -/
def readSpan (v : Json) : Option Nat := do
  if !Json.onlyFields ["secs", "nanos"] v then none
  else
    match ← Json.exactFields? ["secs", "nanos"] v with
    | [secs, nanos] =>
      let total := (← required Json.asWord secs) * nanosPerSecond +
        (← required (Json.asNat halfWordBound) nanos)
      if total / nanosPerSecond < wordBound then some total else none
    | _ => none

/-- Reads the figures of a heuristic. -/
def Statistics.ofJson? (v : Json) : Option (Statistics Float) := do
  match ← Json.exactFields? ["calls", "finite", "mean", "min"] v with
  | [calls, finite, mean, min] =>
    some {
      calls := ← required Json.asWord calls
      finite := ← required Json.asWord finite
      mean := ← required Json.asDouble mean
      min := ← optional Json.asDouble min }
  | _ => none

/-- Reads a result. -/
def Result.ofJson? (v : Json) : Option (Result Float) := do
  match ← Json.exactFields? ["status", "expanded", "generated", "pruned_revisits", "elapsed",
      "solution_size", "plan", "plan_cost", "initial_h", "heuristic", "heuristic_stats"] v with
  | [status, expanded, generated, pruned, elapsed, solutionSize, plan, planCost, initial, heuristic,
      statistics] =>
    some {
      status := ← required (Json.asChoice Status.names) status
      expanded := ← required Json.asWord expanded
      generated := ← required Json.asWord generated
      pruned := ← required Json.asWord pruned
      elapsed := ← required readSpan elapsed
      solutionSize := ← required Json.asWord solutionSize
      plan := ← required (Json.asList Json.asWord) plan
      planCost := ← required Json.asWord planCost
      initial := ← optional Json.asDouble initial
      heuristic := ← required Json.asText heuristic
      statistics := ← required Statistics.ofJson? statistics }
  | _ => none

/-- Reads the text of a result. -/
def Result.read? (text : String) : Option (Result Float) := (Json.parse? text).bind ofJson?

end HierPlan
