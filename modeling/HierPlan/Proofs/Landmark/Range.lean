import HierPlan.Cost.Decomposition
import HierPlan.Proofs.Graph.Range
import HierPlan.Proofs.Landmark.Engine
import HierPlan.Proofs.Landmark.Fixpoint

/-!
# Proofs/Landmark/Range — tables as wide as their graphs

    table  ◂──entry, reached── id < width = size of the graph

A table of landmarks or of costs keeps the size it starts with, in whatever order its nodes are recomputed, so
**it has an entry for each node of its graph and each predecessor that an entry is computed from**
(`LandmarkTable.Recomputed.inRange`, `DecompositionCosts.inRange`).  Ids of the problem are the slots of the graph
that the bottom-up table belongs to, and the first slots of the other; what closing brings in stays in the other
(`LandmarkEngine.inRange`).
-/

namespace HierPlan

variable {m : Model} {s : Situation}

/-! ## Tables of landmarks -/

namespace LandmarkTable

variable {g : AndOrGraph} {t : LandmarkTable} {k : Nat}

/-- Entries and reached nodes of a table are those of its graph. -/
structure InRange (t : LandmarkTable) (g : AndOrGraph) : Prop where
  entries : t.entries.size = g.size
  reached : t.reached.width = g.size
  width : ∀ e ∈ t.entries, e.width = g.size

/-- **Recomputing nodes changes no size**, in any order. -/
theorem Recomputed.inRange (h : Recomputed g k t) : t.InRange g := by
  have hd := h.descends
  refine ⟨hd.size, hd.bound, fun e he => ?_⟩
  obtain ⟨id, hid, rfl⟩ := Array.mem_iff_getElem.mp he
  rw [← hd.width id, entry, Array.getElem?_eq_getElem hid, Option.getD_some]

end LandmarkTable

/-! ## Engines -/

namespace LandmarkEngine

/-- What the engine of a problem looks up: for a situation, when it closes a set, and when it shares costs. -/
structure InRange (m : Model) (s : Situation) : Prop where
  wanted : ∀ bidirectional, ∀ id ∈ (build m bidirectional).openIds m s.state s.network,
    id < (View.bottomUp.graph m).propagate.width
  /-- Ids of components have entries in the bottom-up table. -/
  components : m.size = (View.bottomUp.graph m).propagate.width
  /-- All ids on the way to a closed set have entries in the top-down table. -/
  closing : ∀ (fuel : Nat) (seed : IdSet),
    ∀ id ∈ close m.size (View.bottomUp.graph m).propagate (View.topDown.graph m).propagate fuel
      (seed.resize (View.topDown.graph m).propagate.width), id < (View.topDown.graph m).propagate.width
  landmarks : ∀ (bidirectional closing : Bool) (found : IdSet), (closing = true → bidirectional = true) →
    (build m bidirectional).landmarks m s.state s.network closing = .ok (some found) → found.width = m.size
  /-- What may share a cost: a node itself, or one of its predecessors. -/
  units : ∀ id n, (View.bottomUp.graph m).node? id = some n → ∀ u ∈ id :: n.predecessors,
    u < (View.bottomUp.graph m).size

/-- **An engine finds all that it looks up**, about any situation of its problem. -/
theorem inRange (hw : m.WellFormed) (hs : s.Known m) : InRange m s := by
  have hsize : m.size = (View.bottomUp.graph m).propagate.width := by
    rw [(View.bottomUp.mirrored m).descends.size, View.size_graph_bottomUp]
  refine ⟨fun bidirectional id hid => ?_, hsize, fun fuel seed id hid => ?_,
    fun bidirectional closing found hb h => width_of_landmarks hb h, fun id n hn => ?_⟩
  · have hid : id ∈ wanted m s := hid
    rw [← hsize]
    rcases of_mem_wanted hid with hgoal | ⟨t, ht, rfl⟩
    · have hf : m.HasComponent (.fact id) := Nat.lt_of_lt_of_eq (IdSet.lt_width_of_mem hgoal) hw.goal
      exact View.idOf_lt_size hf
    · exact Model.taskId_lt_size (hs.tasks t ht)
  · have hlt := IdSet.lt_width_of_mem hid
    rwa [width_close] at hlt
  · exact List.forall_mem_cons.mpr
      ⟨AndOrGraph.lt_size_of_node? hn, fun p hp => (View.inRange hw .bottomUp).joined.lt_size hn hp⟩

end LandmarkEngine

/-! ## Tables of costs -/

namespace DecompositionCosts

variable {g : AndOrGraph} {t : DecompositionCosts}

theorem size_revise (t : DecompositionCosts) (g : AndOrGraph) (id : Nat) : (t.revise g id).1.size = t.size := by
  unfold revise
  split
  · rfl
  · dsimp only
    split
    · exact Array.size_setIfInBounds ..
    · rfl

theorem size_sweep (t : DecompositionCosts) (g : AndOrGraph) : (t.sweep g).1.size = t.size := by
  unfold sweep
  generalize g.ids = ids
  generalize false = changed
  induction ids generalizing t changed with
  | nil => rfl
  | cons id ids ih =>
    rw [List.foldl_cons]
    exact (ih ..).trans (size_revise t g id)

/-- Sweeping keeps the size. -/
theorem size_settle {fuel : Nat} : (settle g fuel t).size = t.size := by
  induction fuel generalizing t with
  | zero => rfl
  | succ fuel ih =>
    unfold settle
    dsimp only
    split
    · exact ih.trans (size_sweep t g)
    · exact size_sweep t g

/-- The table has a cost for each node of its graph, after any number of sweeps, and for each open task of a
situation. -/
structure InRange (m : Model) (w : Weighting) (s : Situation) : Prop where
  sweeps : ∀ fuel, (settle ((View.decomposition w).graph m) fuel
      (Array.replicate ((View.decomposition w).graph m).size costCap)).size =
    ((View.decomposition w).graph m).size
  tasks : ∀ t ∈ s.network, m.taskId t < (ofModel m w).size

/-- **A table of costs has all that is looked up**, about any situation of its problem. -/
theorem inRange (hs : s.Known m) (w : Weighting) : InRange m w s := by
  have hsweeps : ∀ fuel, (settle ((View.decomposition w).graph m) fuel
      (Array.replicate ((View.decomposition w).graph m).size costCap)).size =
      ((View.decomposition w).graph m).size := fun _ => size_settle.trans Array.size_replicate
  refine ⟨hsweeps, fun t ht => ?_⟩
  rw [ofModel, AndOrGraph.decompositionCosts, hsweeps, View.size_graph_decomposition]
  exact Model.taskId_lt_size (hs.tasks t ht)

end DecompositionCosts

end HierPlan
