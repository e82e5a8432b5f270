import HierPlan.Cost.Decomposition
import HierPlan.Graph.Worklist

/-!
# Cost/Worklist — lowering one node at a time

The costs that `AndOrGraph.decompositionCosts` sweeps for are also had from a queue: at first every node waits, and a
node that was lowered sends whatever it feeds to the back.
-/

namespace HierPlan

/-- Nothing can be had yet, and every node waits. -/
def DecompositionCosts.worklist (g : AndOrGraph) : Worklist DecompositionCosts :=
  .ofIds g (Array.replicate g.size costCap) g.ids

end HierPlan
