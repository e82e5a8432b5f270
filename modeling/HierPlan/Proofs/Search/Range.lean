import HierPlan.Proofs.Cost.Range
import HierPlan.Proofs.Landmark.Range
import HierPlan.Proofs.Model.Validity
import HierPlan.Proofs.Search.Waiting

/-!
# Proofs/Search/Range — a draft is checked once, and nothing is looked up in vain

    draft ──valid──▸ problem ──▸ graphs ──▸ tables, passes, walks ──▸ estimates
                        └──────▸ moves ──▸ nodes, parents, frontier

Positions of nodes are looked up as references to facts and tasks are.  In every run that a search passes through,
**what waits is a node, parents stand before their children, and situations and transitions are those of the
problem** (`Search.inRange_of_reaches`).  With the graphs and the tables that are read off the problem, this makes
the checks of a draft enough: **what is built never looks for anything that is not there**
(`Draft.build_inRange`).
-/

namespace HierPlan

/-! ## Runs -/

/-- What waits is a node, parents stand before their children, and situations and transitions are those of the
problem. -/
structure Run.InRange {α : Type} (m : Model) (s : Run α) : Prop where
  frontier : ∀ i ∈ s.frontier.toList, ∃ n, s.nodes[i]? = some n
  parents : ∀ (k : Nat) (n : Node α) (p : Nat), s.nodes[k]? = some n → n.parent = some p → p < k
  situations : ∀ (k : Nat) (n : Node α), s.nodes[k]? = some n → n.situation.Known m
  transitions : ∀ (k : Nat) (n : Node α) (v : Transition), s.nodes[k]? = some n → n.transition = some v →
    v.Known m

section Runs

variable {α : Type} [Scale α] {m : Model} {nodes : Array (Node α)} {k : Nat} {n : Node α}

/-- **Every node is a situation of the problem**, as its parent is. -/
theorem Arena.known (hw : m.WellFormed) (h : Arena m nodes) (hn : nodes[k]? = some n) : n.situation.Known m := by
  induction k using Nat.strongRecOn generalizing n with
  | ind k ih =>
    rcases h.reached k n hn with ⟨rfl, hr⟩ | ⟨p, q, v, hp, hq, hv, hc⟩
    · exact hr.situation ▸ hw.known_start
    · exact hc.situation ▸ (ih p hp hq).next hw hv

namespace Search

variable {x : Search} {mon : Monitor} {h : Heuristic α} {r : Run α}

/-- **A search stays in range**, whatever its heuristic, its keys and its limits. -/
theorem inRange_of_reaches (hw : x.model.WellFormed) (hr : x.Reaches mon (x.start h) r) :
    r.InRange x.model := by
  have harena := (grown_of_reaches hr).arena
  have hwaits : r.Waits fun _ _ => True :=
    waits_of_reaches hr (fun _ _ _ _ _ _ _ _ _ _ => trivial) fun _ => trivial
  refine ⟨fun i hi => ?_, fun k n p hn hp => ?_, fun k n hn => harena.known hw hn, fun k n v hn hv => ?_⟩
  · obtain ⟨n, hn, -⟩ := hwaits.each i hi
    exact ⟨n, hn⟩
  · rcases harena.reached k n hn with ⟨-, hroot⟩ | ⟨p', _, _, hlt, -, -, hchild⟩
    · exact absurd (hroot.parent.symm.trans hp) nofun
    · exact Option.some.inj (hchild.parent.symm.trans hp) ▸ hlt
  · rcases harena.reached k n hn with ⟨-, hroot⟩ | ⟨_, _, _, -, -, hmove, hchild⟩
    · exact absurd (hroot.transition.symm.trans hv) nofun
    · exact Option.some.inj (hchild.transition.symm.trans hv) ▸ Situation.known_transition hw hmove

end Search

end Runs

/-! ## All together -/

/-- Whatever is looked up in a problem, or in what is read off it, is there. -/
structure Model.InRange (m : Model) : Prop where
  graphs : ∀ v : View, v.InRange m
  /-- In whatever order its nodes are recomputed. -/
  landmarks : ∀ (v : View) (k : Nat) (t : LandmarkTable),
    LandmarkTable.Recomputed (v.graph m) k t → t.InRange (v.graph m)
  moves : ∀ s : Situation, s.Known m → s.InRange m
  engine : ∀ s : Situation, s.Known m → LandmarkEngine.InRange m s
  decomposition : ∀ (w : Weighting) (s : Situation), s.Known m → DecompositionCosts.InRange m w s
  cuts : ∀ s : Situation, s.Known m → LandmarkCut.InRange m s
  /-- Whatever the heuristic, the keys and the limits. -/
  runs : ∀ {α : Type} [Scale α] (x : Search) (mon : Monitor) (h : Heuristic α) (r : Run α), x.model = m →
    x.Reaches mon (x.start h) r → r.InRange m

/-- **In a well-formed problem everything is there.** -/
theorem Model.WellFormed.inRange {m : Model} (hw : m.WellFormed) : m.InRange where
  graphs := View.inRange hw
  landmarks _ _ _ h := h.inRange
  moves _ hs := hs.inRange hw
  engine _ hs := LandmarkEngine.inRange hw hs
  decomposition w _ hs := DecompositionCosts.inRange hs w
  cuts _ hs := LandmarkCut.inRange hw hs
  runs x mon h r hx hr := by
    subst hx
    exact Search.inRange_of_reaches hw hr

namespace Draft

/-- **A draft is built exactly if it is valid, and then nothing is looked up in vain.**  What is built has as many
facts, operators, tasks and methods as were declared; its sets are as wide as it has facts and its references lead
somewhere; every method is filed once, in order, under the task it refines; ids number its components; every
situation that moves lead to is one of it; and whatever is looked up on the way, in graphs, tables, passes and
runs, is there. -/
theorem build_inRange (d : Draft) :
    ((∃ m, d.build = .ok m) ↔ d.Valid) ∧
      ∀ m, d.build = .ok m →
        d.Counts m ∧ m.WellFormed ∧ m.Filed ∧ m.Numbered ∧
          (∀ moves s, Path m m.start moves s → s.Known m) ∧ m.InRange := by
  refine ⟨exists_build_iff, fun m h => ?_⟩
  have hw := wellFormed_of_build h
  exact ⟨counts_of_build h, hw, filed_of_build h, hw.numbered, fun _ _ hpath => hpath.known hw hw.known_start,
    hw.inRange⟩

/-- The lamp is valid, and in range once built. -/
theorem build_inRange_lamp : (lamp [0]).Valid ∧ (Model.lamp [0]).Filed ∧ (Model.lamp [0]).InRange := by
  obtain ⟨hvalid, hbuilt⟩ := build_inRange (lamp [0])
  obtain ⟨-, -, hfiled, -, -, hrange⟩ := hbuilt (Model.lamp [0]) rfl
  exact ⟨hvalid.mp ⟨Model.lamp [0], rfl⟩, hfiled, hrange⟩

end Draft

end HierPlan
