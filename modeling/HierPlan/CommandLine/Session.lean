import HierPlan.CommandLine.Arguments
import HierPlan.CommandLine.LogFilter
import HierPlan.Config.Interchange
import HierPlan.Json.Writer
import HierPlan.Model.Interchange
import HierPlan.Planner
import HierPlan.Search.Record

/-!
# CommandLine/Session — from arguments to a planner, and from a result to text

The log filter is checked first, then the problem is loaded, then the options are put together: those
of the configuration file, overridden by those of the command line.  The first fault ends the
session; `SessionError.chain` is what the program says about it, the cause after the consequence.
-/

namespace HierPlan

/-- Why a session ends without a search. -/
inductive SessionError where
  | logFilter (cause : FilterError)
  /-- The standard input is no text. -/
  | unreadableInput
  | unreadableModel (path : String)
  | model (path : String) (cause : ModelError)
  | unreadableConfig (path : String)
  | malformedConfig (path : String)
  | timeLimit (seconds : Float)
  | options (cause : ConfigError)

/-- The fault and its causes in words, the outermost first. -/
def SessionError.chain : SessionError → List String
  | .logFilter cause => [cause.message]
  | .unreadableInput => ["failed to read model from stdin"]
  | .unreadableModel path => [s!"failed to read model {path}"]
  | .model path cause => [s!"failed to load model {path}", cause.message]
  | .unreadableConfig path => [s!"failed to read config {path}"]
  | .malformedConfig path => [s!"failed to parse config {path}"]
  | .timeLimit seconds => [s!"--time-limit {doubleText seconds} is not a valid number of seconds"]
  | .options cause => ["invalid planner configuration", cause.message]

/-- The texts a session reads; none where there is nothing to read. -/
structure Sources where
  model : Option String
  config : Option String

/-- Whether a path names the standard input: a dash, whatever empty parts or dots follow it. -/
def namesInput (path : String) : Bool :=
  match path.splitOn "/" with
  | "-" :: rest => rest.all fun part => part.isEmpty || part == "."
  | _ => false

/-- How many bytes a unit of the memory limit has. -/
def memoryUnit : Nat := 0x100000

namespace Arguments

/-- The problem. -/
def readModel (a : Arguments) (text : Option String) : Except SessionError Model :=
  match text with
  | none => .error (if namesInput a.model then .unreadableInput else .unreadableModel a.model)
  | some text =>
    match Model.read text with
    | .ok m => .ok m
    | .error cause => .error (.model a.model cause)

/-- The options of the configuration file, or the defaults. -/
def readConfig (a : Arguments) (text : Option String) : Except SessionError PlannerOptions :=
  match a.config with
  | none => .ok {}
  | some path =>
    match text with
    | none => .error (.unreadableConfig path)
    | some text =>
      match PlannerOptions.read? text with
      | some o => .ok o
      | none => .error (.malformedConfig path)

/-- The time limit in nanoseconds: the one given, or else the one of the configuration. -/
def resolveTimeLimit (a : Arguments) (configured : Option Nat) :
    Except SessionError (Option Nat) :=
  match a.timeLimit with
  | none => .ok configured
  | some seconds =>
    match nanosOfSeconds? seconds with
    | some nanos => .ok (some nanos)
    | none => .error (.timeLimit seconds)

/-- The options of the configuration, overridden by those given. -/
def override (a : Arguments) (o : PlannerOptions) : Except SessionError PlannerOptions := do
  let s := o.search
  let h := o.heuristic
  let timeLimit ← a.resolveTimeLimit s.timeLimit
  let search : SearchOptions := {
    kind := a.search.getD s.kind
    revisit := if a.has .revisit then .hashedKey else s.revisit
    timeLimit
    memoryLimit :=
      match a.memoryLimit with
      | some units => some (min (units * memoryUnit) maxWord)
      | none => s.memoryLimit
    checkInterval := a.checkInterval.getD s.checkInterval
    novelty := a.has .novelty || s.novelty }
  let heuristic : HeuristicOptions := {
    kind := a.heuristic.getD h.kind
    landmarks := {
      bidirectional := a.has .bidirectional || h.landmarks.bidirectional
      partition := a.has .partition || h.landmarks.partition }
    weighting := if a.has .weightByCost then .cost else h.weighting }
  return { search, heuristic }

/-- The planner a session runs. -/
def planner (a : Arguments) (sources : Sources) : Except SessionError (Planner Float) := do
  match LogFilter.check a.logLevel with
  | .ok _ => pure ()
  | .error cause => throw (.logFilter cause)
  let m ← a.readModel sources.model
  let configured ← a.readConfig sources.config
  let options ← a.override configured
  match Planner.build m options with
  | .ok p => return p
  | .error cause => throw (.options cause)

/-- The record of a result, as the program prints it. -/
def report (a : Arguments) (m : Model) (r : Result Float) : String :=
  let record := r.toJson (m.operatorNames r.plan)
  (if a.has .pretty then record.pretty else record.compact) ++ "\n"

end Arguments

/-! ## How the program ends -/

/-- A plan was found, or what was asked for was printed. -/
def exitOk : Nat := 0

/-- A fault ended the session. -/
def exitFault : Nat := 1

/-- The search ended without a plan. -/
def exitNoPlan : Nat := 2

/-- The arguments make no sense. -/
def exitUsage : Nat := 2

/-- How the program ends after a search. -/
def Result.exitCode {α : Type} (r : Result α) : Nat := if r.isGoal then exitOk else exitNoPlan

/-- A log filter was cut inside a character. -/
def exitBroken : Nat := 101

/-- How the program ends after a fault. -/
def SessionError.exitCode : SessionError → Nat
  | .logFilter .splitCharacter => exitBroken
  | _ => exitFault

/-- The version, as the program prints it. -/
def versionText : String := "htn-cli 0.1.0\n"

/-- The lines that say how the program is used. -/
def helpLines : List String := [
  "Hierarchical task network planner",
  "",
  "Usage: htn-plan [OPTIONS] <MODEL>",
  "",
  "Arguments:",
  "  <MODEL>  Grounded model document (JSON); - reads stdin",
  "",
  "Options:",
  "  --config <CONFIG>                  Planner configuration file (JSON)",
  "  --search <SEARCH>                  astar, gbfs, bfs, dfs",
  "  --heuristic <HEURISTIC>            blind, lmc, tdg, lmcut",
  "  --time-limit <TIME_LIMIT>          Wall-clock budget in seconds",
  "  --memory-limit <MEMORY_LIMIT>      Resident-memory budget in MiB",
  "  --check-interval <CHECK_INTERVAL>  Expansions between budget checks",
  "  --bidirectional                    Close landmarks under the top-down graph",
  "  --ucp                              Weight landmarks by uniform cost partitioning",
  "  --tdg-cost                         Weight the TDG table by action cost",
  "  --novelty                          Serve novel nodes first (bfs/dfs only)",
  "  --revisit                          Drop nodes whose hashed key was already reached",
  "  --trace-nodes                      Tell of every expanded and generated node",
  "  --log-level <LOG_LEVEL>            Log filter directive [default: info]",
  "  --pretty                           Pretty-print the result record",
  "  -h, --help                         Print help",
  "  -V, --version                      Print version"]

/-- How the program is used. -/
def helpText : String := "\n".intercalate helpLines ++ "\n"

end HierPlan
