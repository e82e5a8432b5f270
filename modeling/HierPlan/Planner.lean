import HierPlan.Search.Run

/-!
# Planner — a problem and a heuristic, ready to search

A `Planner` holds options that fit together.  Its heuristic outlives a search, so the same planner
can search again; estimates are counted over all its searches.
-/

namespace HierPlan

/-- A search and the heuristic that guides it. -/
structure Planner (α : Type) where
  search : Search
  heuristic : Heuristic α

namespace Planner

variable {α : Type} [Scale α]

/-- The planner the options ask for, unless they do not fit together.  Where situations are looked up by a key, `key`
hashes them. -/
def build (m : Model) (o : PlannerOptions) (key : Situation → UInt64 := Situation.key) :
    Except ConfigError (Planner α) := do
  o.check
  let heuristic ← Heuristic.build m o.heuristic
  return ⟨{ model := m, options := o.search, key }, heuristic⟩

/-- The run at its root. -/
def start (p : Planner α) : Run α := p.search.start p.heuristic

/-- Searches; none if so many steps are not enough. -/
def run (p : Planner α) (mon : Monitor) (fuel : Nat) : Option (Finished α) :=
  p.search.run mon fuel p.start

/-- The planner after a search. -/
def after (p : Planner α) (done : Finished α) : Planner α :=
  { p with heuristic := done.last.heuristic }

end Planner

end HierPlan
