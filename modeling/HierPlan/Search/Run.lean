import HierPlan.Heuristic.Basic
import HierPlan.Search.Frontier
import HierPlan.Search.Novelty
import HierPlan.Search.Result
import Std.Data.HashMap

/-!
# Search/Run — progression search

A `Search` is a problem with its options; a `Run` is everything one search has built up.
`Search.start` looks at the root, `Search.step` takes one node from the frontier, and `Search.run`
steps until there is a result.  A node is tested for the goal when it is taken, so a goal is never
expanded; dead ends never enter the frontier; limits are looked at between expansions.

If revisits are detected, the least cost at which each key was met is remembered when a node is
generated, dead ends included.
-/

namespace HierPlan

/-- A problem and how to search it. -/
structure Search where
  model : Model
  options : SearchOptions
  /-- Situations with the same key count as the same when revisits are detected. -/
  key : Situation → UInt64 := Situation.key

/-- Everything a search has built up. -/
structure Run (α : Type) where
  /-- All nodes, each at its position. -/
  nodes : Array (Node α)
  frontier : Frontier α
  /-- The least cost at which a key was met. -/
  closed : Std.HashMap UInt64 Nat
  novelty : Novelty
  heuristic : Heuristic α
  /-- The estimate of the root; none for a dead end. -/
  initial : Option α
  expanded : Nat
  generated : Nat
  pruned : Nat
  /-- How often memory was read. -/
  readings : Nat
  /-- What an onlooker has seen, latest first. -/
  trace : List (Event α)

/-- A result, and the run it comes from. -/
structure Finished (α : Type) where
  result : Result α
  last : Run α

/-- The key of a situation, if keys are looked at. -/
def Search.key? (x : Search) (s : Situation) : Option UInt64 :=
  match x.options.revisit with
  | .off => none
  | .hashedKey => some (x.key s)

/-- What a step leads to. -/
inductive Progress (α : Type) where
  | running (run : Run α)
  | finished (done : Finished α)

namespace Run

variable {α : Type} [Scale α]

/-- The run with an event seen. -/
def see (s : Run α) (e : Event α) : Run α := { s with trace := e :: s.trace }

/-- The run with what a situation brings noted, if that matters. -/
def note (s : Run α) (x : Search) (next : Situation) : Run α :=
  if x.options.novelty then { s with novelty := s.novelty.note next } else s

/-- The run with a node put into arena and frontier. -/
def keep (s : Run α) (x : Search) (n : Node α) : Run α :=
  let novel := x.options.novelty && s.novelty.isNew n.situation
  let position := s.nodes.size
  let s := s.note x n.situation
  { s with
    nodes := s.nodes.push n
    frontier := s.frontier.push position n novel }

/-- Whether a key was met at no greater cost. -/
def isRevisit (s : Run α) (key : Option UInt64) (g : Nat) : Bool :=
  key.any fun k => s.closed[k]?.any (· ≤ g)

/-- The run with a key met at a cost. -/
def remember (s : Run α) (key : Option UInt64) (g : Nat) : Run α :=
  match key with
  | none => s
  | some k => { s with closed := s.closed.insert k g }

/-- The run after a move from the node `n` at position `i` was estimated: kept, unless it is a dead
end. -/
def estimate (s : Run α) (x : Search) (i : Nat) (n : Node α) (move : Move) : Run α :=
  let (e, heuristic) := s.heuristic.atMove x.model n.situation n.marks move
  let s := { s with heuristic }
  if Scale.isFinite e.value then
    let c := n.child i move e (s.generated + 1)
    let s := s.see (.generate c.sequence c.g c.h c.f move.transition)
    ({ s with generated := s.generated + 1 }).keep x c
  else s

/-- The run after one move from the node `n` at position `i`. -/
def offer (s : Run α) (x : Search) (i : Nat) (n : Node α) (move : Move) : Run α :=
  let g := n.g + move.cost
  let key := x.key? move.next
  if s.isRevisit key g then
    let s := s.see (.prune g (n.depth + 1) move.transition)
    { s with pruned := s.pruned + 1 }
  else (s.remember key g).estimate x i n move

/-- The run after the node `n` at position `i` was expanded; what the heuristic had noted there is
let go. -/
def expand (s : Run α) (x : Search) (i : Nat) (n : Node α) : Run α :=
  let s := s.see (.expand n.sequence n.g n.h n.depth n.situation.network.length)
  let s := { s with expanded := s.expanded + 1 }
  let s := (n.situation.moves x.model).foldl (fun s move => s.offer x i n move) s
  { s with nodes := forgetMarks s.nodes i }

/-- The result of a run that ends here, at a goal node if there is one. -/
def finish (s : Run α) (x : Search) (mon : Monitor) (status : Status) (goal : Option Nat) :
    Finished α :=
  let plan :=
    match goal with
    | none => []
    | some i => planTo s.nodes i
  let result : Result α := {
    status
    expanded := s.expanded
    generated := s.generated
    pruned := s.pruned
    elapsed := mon.elapsed s.expanded
    solutionSize := plan.length
    plan
    planCost := x.model.planCost plan
    initial := s.initial
    heuristic := s.heuristic.name
    statistics := s.heuristic.statistics }
  ⟨result, s.see (.finish status)⟩

end Run

namespace Search

variable {α : Type} [Scale α]

/-- The run after the root was looked at.  A root that is a dead end leaves the frontier empty. -/
def start (x : Search) (heuristic : Heuristic α) : Run α :=
  let s := x.model.start
  let (e, heuristic) := heuristic.atRoot x.model s
  let run : Run α := {
    nodes := #[]
    frontier := .empty x.options.kind
    closed := {}
    novelty := {}
    heuristic := heuristic.release
    initial := if Scale.isFinite e.value then some e.value else none
    expanded := 0
    generated := 0
    pruned := 0
    readings := 0
    trace := [] }
  if Scale.isFinite e.value then (run.remember (x.key? s) 0).keep x (Node.root s e) else run

/-- Takes one node from the frontier: the goal ends the search, so does a limit, and any other node
is expanded. -/
def step (x : Search) (mon : Monitor) (s : Run α) : Progress α :=
  match s.frontier.pop? with
  | none => .finished (s.finish x mon .unsolvable none)
  | some (i, frontier) =>
    let s := { s with frontier }
    match s.nodes[i]? with
    | none => .running s
    | some n =>
      if n.situation.isGoal x.model then .finished (s.finish x mon .goal (some i))
      else
        let look := x.options.look mon s.expanded s.readings
        let s := { s with readings := look.readings }
        match look.verdict with
        | some status => .finished (s.finish x mon status none)
        | none => .running (s.expand x i n)

/-- Steps until there is a result; none if so many steps are not enough. -/
def run (x : Search) (mon : Monitor) : Nat → Run α → Option (Finished α)
  | 0, _ => none
  | fuel + 1, s =>
    match x.step mon s with
    | .running s => x.run mon fuel s
    | .finished done => some done

end Search

end HierPlan
