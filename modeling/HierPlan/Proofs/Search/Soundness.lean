import HierPlan.Proofs.Model.WellFormed
import HierPlan.Proofs.Search.Arena

/-!
# Proofs/Search/Soundness — a plan that is reported solves the problem

    status goal       the plan is read off a goal node, and it is an execution of the initial network
    any other status  no plan, no cost

**Nothing is asked of the heuristic, the key or the limits** (`Search.plan_sound`): estimates and keys
decide which nodes are looked at, never what a node is.
-/

namespace HierPlan

variable {α : Type} [Scale α] {x : Search}

/-- A node without open tasks that has the goal facts is an execution of the whole problem. -/
theorem Arena.execution {nodes : Array (Node α)} (h : Arena x.model nodes) {i : Nat} {n : Node α}
    (hn : nodes[i]? = some n) (hg : n.situation.isGoal x.model = true) :
    Execution x.model x.model.init x.model.network (planTo nodes i) n.situation.state ∧
      ∀ f ∈ x.model.goal, f ∈ n.situation.state := by
  rw [Situation.isGoal_iff] at hg
  exact ⟨(h.walk hn).1.execution hg.1, hg.2⟩

namespace Search

variable {mon : Monitor} {fuel : Nat} {h : Heuristic α} {done : Finished α}

/-- **A search reports sound plans.**  If it ends at a goal, the node it took last is a goal node, the
plan carries out the network of the problem and leaves that node's state with every goal fact, and
the cost reported is what the operators of the plan cost and what the node records.  If it ends in
any other way there is no plan and no cost. -/
theorem plan_sound (hr : x.run mon fuel (x.start h) = some done) :
    (done.result.status = .goal →
      ∃ i n, done.last.nodes[i]? = some n ∧ done.result.plan = planTo done.last.nodes i ∧
        n.situation.isGoal x.model = true ∧
        Execution x.model x.model.init x.model.network done.result.plan n.situation.state ∧
        (∀ f ∈ x.model.goal, f ∈ n.situation.state) ∧
        done.result.planCost = x.model.planCost done.result.plan ∧
        done.result.planCost = n.g ∧
        done.result.solutionSize = done.result.plan.length) ∧
    (done.result.status ≠ .goal →
      done.result.plan = [] ∧ done.result.planCost = 0 ∧ done.result.solutionSize = 0) := by
  obtain ⟨last, hreach, hstep⟩ := exists_last hr
  have grown := grown_of_reaches hreach
  rcases finished_of_step hstep with ⟨-, rfl⟩ | ⟨i, q, n, -, hn, ⟨hg, rfl⟩ | ⟨-, st, rd, hst, rfl⟩⟩
  · exact ⟨fun hs => (nomatch hs), fun _ => ⟨rfl, rfl, rfl⟩⟩
  · refine ⟨fun _ => ?_, fun hs => absurd rfl hs⟩
    obtain ⟨hexec, hfacts⟩ := grown.arena.execution hn hg
    have hcost := (grown.arena.walk hn).2
    exact ⟨i, n, hn, rfl, hg, hexec, hfacts, rfl, hcost, rfl⟩
  · refine ⟨fun hs => ?_, fun _ => ⟨rfl, rfl, rfl⟩⟩
    have hgoal : st = .goal := hs
    rcases hst with rfl | rfl <;> cases hgoal

/-- The lamp, oldest node first and without estimates. -/
def lamp (goal : List Nat) : Search where
  model := .lamp goal
  options := { kind := .breadthFirst }

/-- Oldest first, the lamp is lit by a spark. -/
theorem plan_sound_lamp :
    ∃ done : Finished Float, (lamp [0]).run ⟨fun _ => 0, fun _ => none⟩ 9
        ((lamp [0]).start (.fresh .blind)) = some done ∧
      done.result.plan = [0] ∧ done.result.planCost = 5 ∧
        ∃ t, Execution (.lamp [0]) (Model.lamp [0]).init (Model.lamp [0]).network [0] t := by
  obtain ⟨done, hr⟩ : ∃ done : Finished Float, (lamp [0]).run ⟨fun _ => 0, fun _ => none⟩ 9
      ((lamp [0]).start (.fresh .blind)) = some done :=
    Option.isSome_iff_exists.mp (by decide +kernel)
  have hout : ((lamp [0]).run ⟨fun _ => 0, fun _ => none⟩ 9 ((lamp [0]).start
      (.fresh .blind) : Run Float)).map (fun d => (d.result.status, d.result.plan, d.result.planCost)) =
        some (.goal, [0], 5) := by
    decide +kernel
  rw [hr, Option.map_some, Option.some.injEq, Prod.mk.injEq, Prod.mk.injEq] at hout
  obtain ⟨hgoal, hplan, hcost⟩ := hout
  obtain ⟨-, n, -, -, -, hexec, -⟩ := (plan_sound hr).1 hgoal
  exact ⟨done, hr, hplan, hcost, n.situation.state, hplan ▸ hexec⟩

end Search

end HierPlan
