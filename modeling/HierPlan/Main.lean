import HierPlan.CommandLine.Session
import HierPlan.Search.Resident

/-!
# Main — the program

Reads the texts a session needs, steps through the search with the clock and the memory readings of
the moment, and prints the record.  Everything else is decided by the session and the search.
-/

namespace HierPlan

/-- The text of a file; none if there is no such text. -/
def readText? (path : String) : IO (Option String) := do
  try
    return some (← IO.FS.readFile path)
  catch _ =>
    return none

/-- Everything the standard input holds, put behind `before`. -/
partial def readBytes (input : IO.FS.Stream) (before : ByteArray) : IO ByteArray := do
  let chunk ← input.read 65536
  if chunk.isEmpty then
    return before
  readBytes input (before ++ chunk)

/-- The texts a session reads. -/
def Arguments.sources (a : Arguments) : IO Sources := do
  let model ←
    if namesInput a.model then
      let bytes ← readBytes (← IO.getStdin) .empty
      pure (String.fromUTF8? bytes)
    else readText? a.model
  let config ←
    match a.config with
    | some path => readText? path
    | none => pure none
  return { model, config }

/-- An event as a line for onlookers. -/
def Event.line : Event Float → String
  | .expand sequence g h depth tasks =>
    s!"expand seq={sequence} g={g} h={doubleText h} depth={depth} tasks={tasks}"
  | .generate sequence g h _ _ => s!"generate seq={sequence} g={g} h={doubleText h}"
  | .prune g depth _ => s!"revisit pruned g={g} depth={depth}"
  | .finish status => s!"search finished status={status.name}"

/-- Steps through a search that began at `started`. -/
partial def stepThrough (x : Search) (visible : Bool) (started : Nat) (s : Run Float) :
    IO (Result Float) := do
  if visible then
    for e in s.trace.reverse do
      IO.eprintln e.line
  let s := { s with trace := [] }
  let due := x.options.memoryLimit.isSome && x.options.isDue s.expanded
  let report ← if due then readText? "/proc/self/status" else pure none
  let resident := report.bind residentBytes?
  let elapsed := (← IO.monoNanosNow) - started
  match x.step ⟨fun _ => elapsed, fun _ => resident⟩ s with
  | .running s => stepThrough x visible started s
  | .finished done => return done.result

/-- Prints a fault and its causes. -/
def printFault (chain : List String) : IO Unit := do
  match chain with
  | [] => pure ()
  | fault :: causes =>
    IO.eprintln s!"Error: {fault}"
    unless causes.isEmpty do
      IO.eprintln "\nCaused by:"
      for cause in causes do
        IO.eprintln s!"    {cause}"

/-- Runs a session. -/
def Arguments.execute (a : Arguments) : IO Nat := do
  match a.planner (← a.sources) with
  | .error fault =>
    printFault fault.chain
    return fault.exitCode
  | .ok p =>
    let started ← IO.monoNanosNow
    let r ← stepThrough p.search (a.has .traceNodes) started p.start
    IO.print (a.report p.search.model r)
    return r.exitCode

end HierPlan

/-- Does what the command line asks for. -/
def main (arguments : List String) : IO UInt32 := do
  match HierPlan.Command.parse arguments with
  | .error fault =>
    IO.eprintln s!"error: {fault.message}"
    return HierPlan.exitUsage.toUInt32
  | .ok .version =>
    IO.print HierPlan.versionText
    return HierPlan.exitOk.toUInt32
  | .ok .help =>
    IO.print HierPlan.helpText
    return HierPlan.exitOk.toUInt32
  | .ok (.plan a) =>
    let code ← a.execute
    return code.toUInt32
