import HierPlan.Progression
import Std.Data.HashSet

/-!
# Search/Novelty — facts not seen before with a first task

A situation brings something new if one of its facts has not been met together with its first task;
having nothing left to do counts as one more first task.  All facts of a situation are noted, also
those after the first new one.
-/

namespace HierPlan

/-- The pairs of a fact and a first task met so far. -/
structure Novelty where
  seen : Std.HashSet (Nat × Option Task) := {}

namespace Novelty

/-- The pairs of a situation. -/
def pairs (s : Situation) : List (Nat × Option Task) :=
  s.state.toList.map fun fact => (fact, s.network.head?)

/-- Whether a situation brings something new. -/
def isNew (t : Novelty) (s : Situation) : Bool := (pairs s).any fun p => !t.seen.contains p

/-- The table with the pairs of a situation noted. -/
def note (t : Novelty) (s : Situation) : Novelty :=
  ⟨(pairs s).foldl (fun seen p => seen.insert p) t.seen⟩

end Novelty

end HierPlan
