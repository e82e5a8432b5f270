import HierPlan.Config
import HierPlan.Double.Text

/-!
# CommandLine/Arguments — what the command line asks for

Arguments are taken one by one: a switch, an option with its value in the same argument after `=` or
in the next one, or the one plain argument, the problem.  A value in an argument of its own must not
look like an option, unless it is a lone dash.  After `--` everything is plain.  Nothing may be given
twice.  The first fault ends the reading, and so does a request for the version or for help.
-/

namespace HierPlan

/-- Options that stand alone. -/
inductive Switch where
  | bidirectional
  | partition
  | weightByCost
  | novelty
  | revisit
  | traceNodes
  | pretty
  deriving DecidableEq, Repr

/-- Options that take a value. -/
inductive ValueOption where
  | config
  | search
  | heuristic
  | timeLimit
  | memoryLimit
  | checkInterval
  | logLevel
  deriving DecidableEq, Repr

/-- The names of the switches. -/
def Switch.names : List (String × Switch) :=
  [("bidirectional", .bidirectional), ("ucp", .partition), ("tdg-cost", .weightByCost),
    ("novelty", .novelty), ("revisit", .revisit), ("trace-nodes", .traceNodes),
    ("pretty", .pretty)]

/-- The names of the options that take a value. -/
def ValueOption.names : List (String × ValueOption) :=
  [("config", .config), ("search", .search), ("heuristic", .heuristic),
    ("time-limit", .timeLimit), ("memory-limit", .memoryLimit),
    ("check-interval", .checkInterval), ("log-level", .logLevel)]

/-- The search orders by their short names. -/
def searchArguments : List (String × SearchKind) :=
  [("astar", .aStar), ("gbfs", .greedyBestFirst), ("bfs", .breadthFirst), ("dfs", .depthFirst)]

/-- The heuristics by their short names. -/
def heuristicArguments : List (String × HeuristicKind) :=
  [("blind", .blind), ("lmc", .landmarkCount), ("tdg", .decomposition), ("lmcut", .landmarkCut)]

/-- Why arguments make no sense. -/
inductive UsageError where
  /-- There is no such option. -/
  | unknownOption (argument : String)
  /-- The option takes no value. -/
  | unexpectedValue (argument : String)
  /-- The option needs a value. -/
  | missingValue (option : String)
  /-- The value does not fit the option. -/
  | invalidValue (option value : String)
  /-- The option was given before. -/
  | repeated (option : String)
  /-- There is a plain argument too many. -/
  | unexpectedArgument (argument : String)
  /-- The problem is not named. -/
  | missingModel
  deriving DecidableEq, Repr

/-- The cause in words. -/
def UsageError.message : UsageError → String
  | .unknownOption a => s!"unexpected argument '{a}' found"
  | .unexpectedValue a => s!"option '{a}' takes no value"
  | .missingValue o => s!"a value is required for '{o}' but none was supplied"
  | .invalidValue o v => s!"invalid value '{v}' for '{o}'"
  | .repeated o => s!"the argument '{o}' cannot be used multiple times"
  | .unexpectedArgument a => s!"unexpected argument '{a}' found"
  | .missingModel => "the following required arguments were not provided: <MODEL>"

/-- Everything a command line asks for; what is not given is left to the configuration. -/
structure Arguments where
  /-- Path of the problem; a dash stands for the standard input. -/
  model : String
  config : Option String := none
  search : Option SearchKind := none
  heuristic : Option HeuristicKind := none
  /-- Seconds. -/
  timeLimit : Option Float := none
  /-- In units of 1048576 bytes. -/
  memoryLimit : Option Nat := none
  checkInterval : Option Nat := none
  switches : List Switch := []
  logLevel : String := "info"

/-- Whether a switch was given. -/
def Arguments.has (a : Arguments) (s : Switch) : Bool := a.switches.contains s

/-- What a command line asks the program to do. -/
inductive Command where
  | plan (arguments : Arguments)
  | version
  | help

/-- One thing a command line says. -/
inductive Setting where
  | model (path : String)
  | switch (s : Switch)
  | config (path : String)
  | search (kind : SearchKind)
  | heuristic (kind : HeuristicKind)
  | timeLimit (seconds : Float)
  | memoryLimit (units : Nat)
  | checkInterval (expansions : Nat)
  | logLevel (filter : String)

/-- A natural number of 64 bits, in digits after an optional plus. -/
def readWord? (text : String) : Option Nat :=
  let digits :=
    match text.toList with
    | '+' :: r => r
    | r => r
  if !digits.isEmpty && digits.all Char.isDigit then
    let n := digitCharsValue digits
    if n < wordBound then some n else none
  else none

/-- A path, which must not be empty. -/
def readPath? (text : String) : Option String := if text.isEmpty then none else some text

/-- What an option says with a value. -/
def ValueOption.setting? (o : ValueOption) (value : String) : Option Setting :=
  match o with
  | .config => (readPath? value).map .config
  | .search => (searchArguments.lookup value).map .search
  | .heuristic => (heuristicArguments.lookup value).map .heuristic
  | .timeLimit => (readDouble? value).map .timeLimit
  | .memoryLimit => (readWord? value).map .memoryLimit
  | .checkInterval => (readWord? value).map .checkInterval
  | .logLevel => some (.logLevel value)

/-- An argument by its look. -/
inductive ArgumentForm where
  /-- Everything after it is plain. -/
  | divider
  | version
  | help
  | switch (s : Switch)
  /-- An option, with its value if that stands in the same argument. -/
  | option (name : String) (o : ValueOption) (value : Option String)
  /-- A switch with a value. -/
  | overfull
  | unknown
  | plain

/-- Whether an argument looks like an option; a lone dash does not. -/
def looksLikeOption (argument : String) : Bool :=
  match argument.toList with
  | '-' :: _ :: _ => true
  | _ => false

/-- The look of a long option, without its dashes. -/
def longForm (cs : List Char) : ArgumentForm :=
  let (name, rest) := cs.span (· != '=')
  let name := String.ofList name
  let value : Option String :=
    match rest with
    | [] => none
    | _ :: v => some (String.ofList v)
  match ValueOption.names.lookup name with
  | some o => .option ("--" ++ name) o value
  | none =>
    let alone : Option ArgumentForm :=
      match name with
      | "version" => some .version
      | "help" => some .help
      | _ => (Switch.names.lookup name).map .switch
    match alone, value with
    | some form, none => form
    | some _, some _ => .overfull
    | none, _ => .unknown

/-- The look of an argument. -/
def argumentForm (argument : String) : ArgumentForm :=
  match argument.toList with
  | ['-', '-'] => .divider
  | '-' :: '-' :: cs => longForm cs
  | '-' :: 'V' :: _ => .version
  | '-' :: 'h' :: _ => .help
  | '-' :: _ :: _ => .unknown
  | _ => .plain

namespace Arguments

/-- Arguments without the path of the problem, while they are read. -/
structure Partial where
  arguments : Arguments := { model := "" }
  /-- The path of the problem, once it was given. -/
  model : Option String := none
  /-- Whether a log filter was given. -/
  logged : Bool := false

/-- Puts a setting in, unless it was made before. -/
def Partial.add (p : Partial) (name : String) (s : Setting) : Except UsageError Partial :=
  let a := p.arguments
  let once := fun (given : Bool) (p : Partial) => if given then .error (.repeated name) else .ok p
  match s with
  | .model path =>
    if p.model.isSome then .error (.unexpectedArgument path) else .ok { p with model := some path }
  | .switch s => once (a.has s) { p with arguments := { a with switches := s :: a.switches } }
  | .config path => once a.config.isSome { p with arguments := { a with config := some path } }
  | .search kind => once a.search.isSome { p with arguments := { a with search := some kind } }
  | .heuristic kind =>
    once a.heuristic.isSome { p with arguments := { a with heuristic := some kind } }
  | .timeLimit seconds =>
    once a.timeLimit.isSome { p with arguments := { a with timeLimit := some seconds } }
  | .memoryLimit units =>
    once a.memoryLimit.isSome { p with arguments := { a with memoryLimit := some units } }
  | .checkInterval n =>
    once a.checkInterval.isSome { p with arguments := { a with checkInterval := some n } }
  | .logLevel filter =>
    once p.logged { p with arguments := { a with logLevel := filter }, logged := true }

/-- Puts an option with its value in. -/
def Partial.addValue (p : Partial) (name : String) (o : ValueOption) (value : String) :
    Except UsageError Partial :=
  match o.setting? value with
  | some s => p.add name s
  | none => .error (.invalidValue name value)

/-- Puts a plain argument in. -/
def Partial.addPlain (p : Partial) (argument : String) : Except UsageError Partial :=
  match readPath? argument with
  | some path => p.add "<MODEL>" (.model path)
  | none => if p.model.isSome then .error (.unexpectedArgument argument)
    else .error (.invalidValue "<MODEL>" argument)

/-- What was read, once nothing is left. -/
def Partial.settle (p : Partial) : Except UsageError Command :=
  match p.model with
  | some model => .ok (.plan { p.arguments with model })
  | none => .error .missingModel

/-- Takes the arguments one by one. -/
def take (p : Partial) : List String → Except UsageError Command
  | [] => p.settle
  | argument :: rest =>
    match argumentForm argument with
    | .divider => do
      let p ← rest.foldlM Partial.addPlain p
      p.settle
    | .version => .ok .version
    | .help => .ok .help
    | .unknown => .error (.unknownOption argument)
    | .overfull => .error (.unexpectedValue argument)
    | .switch s => do
      let p ← p.add argument (.switch s)
      take p rest
    | .plain => do
      let p ← p.addPlain argument
      take p rest
    | .option name o (some value) => do
      let p ← p.addValue name o value
      take p rest
    | .option name o none =>
      match rest with
      | [] => .error (.missingValue name)
      | value :: rest =>
        if looksLikeOption value then .error (.missingValue name)
        else do
          let p ← p.addValue name o value
          take p rest

end Arguments

/-- What a command line asks for. -/
def Command.parse (arguments : List String) : Except UsageError Command :=
  Arguments.take {} arguments

end HierPlan
