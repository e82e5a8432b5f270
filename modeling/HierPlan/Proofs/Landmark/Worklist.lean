import HierPlan.Proofs.Landmark.Table

/-!
# Proofs/Landmark/Worklist — the queue leaves a settled table

    id newly reached, or its entry smaller ──▸ what id feeds waits again

An entry says nothing about nodes that its own does not feed, so a change disturbs those alone that go to the back
of the queue (`LandmarkTable.calms`).  At first there is nothing to recompute but what is given and what nothing
feeds (`LandmarkTable.quiet_start`).  **So the queue runs dry, on a settled table** (`AndOrGraph.Mirrored.settled`),
and what that table reaches is closed under the rules (`AndOrGraph.Mirrored.closed`).
-/

namespace HierPlan

variable {g : AndOrGraph} {id : Nat}

namespace LandmarkTable

/-- **Recomputing a node takes something off it, and disturbs what it feeds at most.** -/
theorem calms (hg : g.Mirrored) :
    Worklist.Calms revise g (fun t => ∃ k, Recomputed g k t) (fun t id => t.Quiet g id) slack := by
  rintro t id ⟨j, h⟩
  obtain hquiet | ⟨e, value, new, hr⟩ := revise_cases t g id
  · exact .inl hquiet
  have hd := h.descends
  have hid := lt_size_of_evaluate value
  refine .inr ⟨_, hr, ⟨j + 1, h.change value new⟩, hid, hd.slack_put_lt value new,
    fun k hk => (slack_put_of_ne hk).le, fun k hk hquiet e' he' => ?_⟩
  obtain ⟨n, -, here, -, -⟩ := exists_of_evaluate he'
  rw [evaluate_put here fun hp => hk (hg.fed k n here id hp)] at he'
  by_cases hkid : k = id
  · subst hkid
    obtain rfl := Option.some.inj (value.symm.trans he')
    rw [entry_put (hd.size ▸ hid), if_pos rfl]
    exact ⟨(isReached_put (hd.bound ▸ hid)).mpr (.inr rfl), rfl⟩
  · rw [isReached_put_of_ne hkid, entry_put_of_ne hkid]
    exact hquiet hkid e' he'

/-- At the start nothing is derived but what is given and what nothing feeds. -/
theorem quiet_start (hid : id ∉ g.sourceIds) : (start g).Quiet g id := by
  intro e he
  obtain ⟨n, b, here, below, -⟩ := exists_of_evaluate he
  have hnone : ∀ p, ¬ (start g).isReached p = true := fun p => IdSet.not_mem_empty
  have hin : id ∈ g.ids := List.mem_filter.mpr
    ⟨List.mem_range.mpr (lt_size_of_evaluate he), by rw [here]; rfl⟩
  have hfed : n.rule ≠ .given ∧ ∃ p, p ∈ n.predecessors := by
    simpa [AndOrGraph.sourceIds, hin, here, List.eq_nil_iff_forall_not_mem] using hid
  obtain ⟨hopen, p, hp⟩ := hfed
  cases rule : n.rule with
  | given => exact absurd rule hopen
  | any =>
    rw [below?, rule] at below
    obtain ⟨⟨q, -, hq⟩, -⟩ := meet?_eq_some below
    exact absurd hq (hnone q)
  | all =>
    rw [below?, rule] at below
    exact absurd ((join?_eq_some below).1 p hp) (hnone p)

end LandmarkTable

namespace AndOrGraph.Mirrored

variable (hg : g.Mirrored)
include hg

/-- **The queue runs dry, on a settled table.** -/
theorem landmarkRun_spec {turns : Nat} (hturns : g.turnBound (g.size + 1) ≤ turns) :
    (g.landmarkRun turns).queue = [] ∧ (∃ k, LandmarkTable.Recomputed g k (g.landmarkRun turns).table) ∧
      (g.landmarkRun turns).table.Settled g :=
  (LandmarkTable.calms hg).run_ofIds hg ⟨0, .start⟩ List.filter_sublist (fun _ => LandmarkTable.quiet_start)
    (LandmarkTable.descends_start g).slack_le hturns

theorem recomputed : ∃ k, LandmarkTable.Recomputed g k g.propagate := (hg.landmarkRun_spec le_rfl).2.1

/-- **The table that is left is settled.** -/
theorem settled : g.propagate.Settled g := (hg.landmarkRun_spec le_rfl).2.2

theorem descends : g.propagate.Descends g :=
  have ⟨_, hk⟩ := hg.recomputed
  hk.descends

/-- **What it reaches is closed under the rules.** -/
theorem closed : g.Closed fun id => g.propagate.isReached id = true := by
  have reached : ∀ (id : Nat) (n : GraphNode), g.node? id = some n →
      (g.propagate.below? n).isSome = true → g.propagate.isReached id = true := by
    intro id n hn hsome
    obtain ⟨b, hb⟩ := Option.isSome_iff_exists.mp hsome
    refine (hg.settled id (b.insert id) ?_).1
    rw [LandmarkTable.evaluate_eq, hn, Option.bind_some, hb, Option.map_some]
  refine ⟨fun id n hn hr => reached id n hn ?_, fun id n hn hr p hp hin => reached id n hn ?_,
    fun id n hn hr hin => reached id n hn ?_⟩ <;>
    rw [LandmarkTable.below?, hr]
  · rfl
  · exact LandmarkTable.isSome_meet? ⟨p, hp, hin⟩
  · exact LandmarkTable.isSome_join? hin

end AndOrGraph.Mirrored

end HierPlan
