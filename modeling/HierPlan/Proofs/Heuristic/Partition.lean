import HierPlan.Proofs.Exact
import HierPlan.Proofs.Heuristic.Marks

/-!
# Proofs/Heuristic/Partition — shared units are paid for once each

    rest of the path     v₁        v₂        v₃   …            one unit each
                        ╱  ╲        │
    landmarks left     u₁   u₂      u₃                          each costs at most its share of one

A landmark that was not met yet is met later on, and what brings it up then is among its achievers
(`Path.exists_achiever`).  It costs no more than that achiever gives it, and no achiever gives more than one unit
altogether, having shared it among all landmarks it can achieve (`Exact.sum_costOf_le_one`).  So **no path to the
goal is shorter than what the landmarks left cost together** (`LandmarkCount.value_le_length`).
-/

namespace HierPlan

variable {m : Model} {s t : Situation} {v : Move} {before after moves : List Move} {id p f : Nat}

/-! ## Achievers -/

namespace View

variable {w : View} {l : NodeLabel}

/-- Operators and methods stand for themselves. -/
theorem achievers_self (hl : w.label m id = some l) (hf : l.kind ≠ .fact) (hc : l.kind ≠ .compound) :
    (w.graph m).achievers id = [id] := by
  obtain ⟨n, hn, rfl⟩ := exists_node hl
  rw [AndOrGraph.achievers, hn]
  dsimp only
  split
  · exact absurd ‹_› hf
  · exact absurd ‹_› hc
  · rfl

/-- Whatever feeds a fact or a task achieves it. -/
theorem mem_achievers_of_feeds (hw : m.WellFormed) (hl : w.label m id = some l)
    (hk : l.kind = .fact ∨ l.kind = .compound) (hr : l.rule ≠ .given) (hp : w.Feeds m p id) :
    p ∈ (w.graph m).achievers id := by
  obtain ⟨n, hn, rfl⟩ := exists_node hl
  obtain ⟨l', hl'⟩ := Option.isSome_iff_exists.mp (isSome_label_of_feeds hw hp).1
  have hlt : p < (w.graph m).size := by
    rw [graph, AndOrGraph.size_ofArcs]
    exact lt_of_label hl'
  have hmem : p ∈ (IdSet.ofList (w.graph m).size n.predecessors).toList :=
    IdSet.mem_toList.mpr (IdSet.mem_ofList.mpr ⟨(mem_predecessors hw hn hr).mpr hp, hlt⟩)
  rw [AndOrGraph.achievers, hn]
  dsimp only
  split
  · exact hmem
  · exact hmem
  · rename_i hf hc
    exact absurd hk (not_or.mpr ⟨hf, hc⟩)

end View

/-- The node that a transition applies or uses. -/
def Transition.nodeId (m : Model) : Transition → Nat
  | .operator i => m.operatorId i
  | .method d => m.methodId d

/-- What comes to hold on a path is made true by an operator on it. -/
theorem Path.exists_adder (hw : m.WellFormed) (h : Path m s moves t) (hnot : f ∉ s.state)
    (hv : v ∈ moves) (hf : f ∈ v.next.state) :
    ∃ w ∈ moves, ∃ i o, w.transition = .operator i ∧ m.operators[i]? = some o ∧ f ∈ o.add := by
  induction h with
  | stay => exact absurd hv List.not_mem_nil
  | @step s t first rest here _ ih =>
    by_cases hnext : f ∈ first.next.state
    · refine ⟨first, List.mem_cons_self, ?_⟩
      cases Situation.moved hw here with
      | operator known =>
        obtain ⟨hold, -⟩ | ⟨hadd, -⟩ := Operator.mem_apply.mp hnext
        · exact absurd hold hnot
        · exact ⟨_, _, rfl, known, hadd⟩
      | method => exact absurd hnext hnot
    · obtain rfl | hv := List.mem_cons.mp hv
      · exact absurd hf hnext
      obtain ⟨w, hw', hadds⟩ := ih hnext hv
      exact ⟨w, List.mem_cons_of_mem _ hw', hadds⟩

/-- **What is met on a path for the first time is achieved on it.** -/
theorem Path.exists_achiever (hw : m.WellFormed) (hbefore : Path m m.start before s)
    (hafter : Path m s after t) {c : Component} (hhas : m.HasComponent c)
    (hmet : m.Meets m.start (before ++ after) c) (hnot : ¬ m.Meets m.start before c) :
    ∃ v ∈ after, v.transition.nodeId m ∈ (View.bottomUp.graph m).achievers (m.idOf c) := by
  obtain ⟨v, hv, hbrings⟩ := (Model.meets_append.mp hmet).resolve_left hnot
  cases c with
  | fact f =>
    have hhere : f ∉ s.state := fun hf => hnot (Model.meets_of_mem_state hbefore hf)
    obtain ⟨w, hw', i, o, htransition, known, hadd⟩ := hafter.exists_adder hw hhere hv hbrings
    have hstart : m.init.contains f = false := Bool.eq_false_iff.mpr fun hf => hnot (.inl ⟨f, hf, rfl⟩)
    have hlabel := View.label_fact (v := .bottomUp) rfl hhas
    rw [hstart, Bool.and_false] at hlabel
    refine ⟨w, hw', View.mem_achievers_of_feeds hw hlabel (.inl rfl) (fun h => nomatch h) ?_⟩
    rw [htransition]
    exact .effect rfl known hadd
  | operator i =>
    have hself := View.achievers_self (View.label_operator (v := .bottomUp) hhas) (fun h => nomatch h)
      fun h => nomatch h
    have htransition : v.transition = .operator i := hbrings
    exact ⟨v, hv, by rw [htransition]; exact hself ▸ List.mem_singleton_self _⟩
  | method d =>
    have hself := View.achievers_self (View.label_method (v := .bottomUp) hhas) (fun h => nomatch h)
      fun h => nomatch h
    have htransition : v.transition = .method d := hbrings
    exact ⟨v, hv, by rw [htransition]; exact hself ▸ List.mem_singleton_self _⟩
  | compound a =>
    obtain ⟨d, y, htransition, known, rfl⟩ := hbrings
    refine ⟨v, hv, View.mem_achievers_of_feeds hw (View.label_compound (v := .bottomUp) hhas) (.inr rfl)
      (fun h => nomatch h) ?_⟩
    rw [htransition]
    exact .refines (fun h => nomatch h) known

/-! ## Shares -/

namespace Exact

variable {g : AndOrGraph} {size : Nat} {landmarks : IdSet} {paid left units : List Nat} {u : Nat}

/-- A landmark costs no more than any of its achievers gives. -/
theorem costOf_le_share (hin : id ∈ landmarks) (hid : id < size) (hu : u ∈ g.achievers id) :
    costOf (partitionCosts g size landmarks : Array Exact) id ≤
      Scale.div (Scale.ofNat 1) (Scale.ofNat (appearances (landmarks.toList.map g.achievers) u)) := by
  rw [costOf_of_lt g hid, if_pos (IdSet.mem_def.mp hin), groupCost]
  have hmem := List.mem_map_of_mem (f := fun u => (Scale.div (Scale.ofNat 1)
    (Scale.ofNat (appearances (landmarks.toList.map g.achievers) u)) : Exact)) hu
  obtain ⟨y, hy⟩ := Option.isSome_iff_exists.mp (List.isSome_min?_of_mem hmem)
  rw [least?_eq, hy, Option.getD_some]
  exact (List.min?_eq_some_iff.mp hy).2 _ hmem

/-- Landmarks that one achiever has in common are among those it was counted for. -/
theorem length_le_appearances (hsub : paid.Sublist landmarks.toList) (hu : ∀ id ∈ paid, u ∈ g.achievers id) :
    paid.length ≤ appearances (landmarks.toList.map g.achievers) u := by
  have hfilter := hsub.filter fun id => (g.achievers id).contains u
  rw [List.filter_eq_self.mpr fun id hid => List.contains_iff_mem.mpr (hu id hid)] at hfilter
  rw [appearances, List.filter_map, List.length_map]
  exact hfilter.length_le

/-- Parts of a unit that are no more than all of them make no more than a unit. -/
theorem nsmul_share_le {n k : Nat} (h : n ≤ k) :
    n • (Scale.div (Scale.ofNat 1) (Scale.ofNat k) : Exact) ≤ Scale.ofNat 1 := by
  change n • ((((1 : ℕ) : ℚ) / (k : ℚ) : ℚ) : Exact) ≤ (((1 : ℕ) : ℚ) : Exact)
  rw [← WithTop.coe_nsmul, WithTop.coe_le_coe, nsmul_eq_mul, Nat.cast_one, mul_one_div]
  exact div_le_one_of_le₀ (Nat.cast_le.mpr h) (Nat.cast_nonneg k)

/-- **No achiever gives more than a unit altogether.** -/
theorem sum_costOf_le_one (hsize : landmarks.width ≤ size) (hsub : paid.Sublist landmarks.toList)
    (hu : ∀ id ∈ paid, u ∈ g.achievers id) :
    (paid.map (costOf (partitionCosts g size landmarks : Array Exact))).sum ≤ Scale.ofNat 1 := by
  have hlength := length_le_appearances hsub hu
  rw [← List.length_map (costOf (partitionCosts g size landmarks : Array Exact))] at hlength
  refine (List.sum_le_card_nsmul _ _ fun y hy => ?_).trans (nsmul_share_le hlength)
  obtain ⟨id, hid, rfl⟩ := List.mem_map.mp hy
  have hin := IdSet.mem_toList.mp (hsub.subset hid)
  exact costOf_le_share hin ((IdSet.lt_width_of_mem hin).trans_le hsize) (hu id hid)

/-- **Landmarks that are all achieved by some units cost no more than these**: the first unit pays for those it
achieves, the others for the rest. -/
theorem sum_costOf_le_length (hsize : landmarks.width ≤ size) (hsub : left.Sublist landmarks.toList)
    (hhit : ∀ id ∈ left, ∃ u ∈ units, u ∈ g.achievers id) :
    (left.map (costOf (partitionCosts g size landmarks : Array Exact))).sum ≤ Scale.ofNat units.length := by
  induction units generalizing left with
  | nil =>
    obtain rfl : left = [] := List.eq_nil_iff_forall_not_mem.mpr fun id hid => by simpa using hhit id hid
    exact le_rfl
  | cons u units ih =>
    have hown : ∀ id ∈ left.filter fun id => u ∈ g.achievers id, u ∈ g.achievers id := fun id hid => by
      simpa using (List.mem_filter.mp hid).2
    have hothers : ∀ id ∈ left.filter fun id => u ∉ g.achievers id, ∃ w ∈ units, w ∈ g.achievers id := by
      intro id hid
      obtain ⟨hid, hnot⟩ := List.mem_filter.mp hid
      obtain ⟨w, hw, hin⟩ := hhit id hid
      obtain rfl | hw := List.mem_cons.mp hw
      · exact absurd hin (of_decide_eq_true hnot)
      · exact ⟨w, hw, hin⟩
    have hfirst := sum_costOf_le_one hsize (List.filter_sublist.trans hsub) hown
    have hrest := ih (List.filter_sublist.trans hsub) hothers
    rw [← List.sum_map_filter_add_sum_map_filter_not (fun id => u ∈ g.achievers id), List.length_cons,
      Nat.add_comm, ← add_ofNat]
    exact add_le_add hfirst hrest

end Exact

/-! ## Along a path -/

namespace LandmarkCount

/-- **What is left costs no more than the rest of any path takes.**  With units shared exactly, and landmarks of one
direction or both, a counter says at the end of any path from the start what the landmarks of the root cost together
that were not met on it; and no path goes on from there to a goal in fewer moves. -/
theorem value_le_length {d : Draft} (hd : d.build = .ok m) {bidirectional closing : Bool} {c : LandmarkCount Exact}
    (made : ofEngine (LandmarkEngine.build m bidirectional) ⟨closing, true⟩ = .ok c)
    (hbefore : Path m m.start before s) (hafter : Path m s after t) (hgoal : t.isGoal m = true) :
    ∃ k costs, (LandmarkEngine.build m bidirectional).landmarks m m.init m.network closing =
        .ok (some k.landmarks) ∧
      (LandmarkEngine.build m bidirectional).partition k.landmarks = .ok costs ∧
      (∀ id, id ∈ k.open ↔ id ∈ k.landmarks ∧ ¬ m.MeetsId m.start before id) ∧
      (c.atRoot m m.start).2.follow m m.start (c.atRoot m m.start).1 before = ⟨totalCost costs k.open, some k⟩ ∧
      totalCost costs k.open ≤ Scale.ofNat after.length := by
  have hw := Draft.wellFormed_of_build hd
  obtain ⟨able, hserves⟩ := serves_of_ofEngine made
  have hself : closing = true → closing = true := fun h => h
  obtain ⟨landmarks, hlandmarks, hmet⟩ :=
    LandmarkEngine.exists_landmarks hw hself .stay (hbefore.append hafter) hgoal
  have hwidth : landmarks.width = m.size := LandmarkEngine.width_of_landmarks hself hlandmarks
  obtain ⟨c', hc', hinformed, ⟨hnone, -⟩ | ⟨k₀, hroot, hestimate, hk₀⟩⟩ := hserves.atRoot hw
  · cases hlandmarks.symm.trans hnone
  obtain rfl := Option.some.inj (Except.ok.inj (hlandmarks.symm.trans hroot))
  obtain ⟨k, hfollow, hsame, hk⟩ := accurate_follow (c := c') hw .stay hbefore hk₀
  refine ⟨k, partitionCosts (View.bottomUp.graph m) m.size k.landmarks, ?_, rfl, fun id => hk.mem_open, ?_, ?_⟩
  · rw [hsame]
    exact (LandmarkEngine.landmarks_build (s := m.start) able).trans hlandmarks
  · rw [hc', hestimate, hfollow, hinformed.value_eq hroot, if_pos rfl, hsame]
  · rw [totalCost, Exact.sum_eq, ← List.length_map fun v : Move => v.transition.nodeId m]
    refine Exact.sum_costOf_le_length (hsame ▸ hwidth.le) List.filter_sublist fun id hid => ?_
    -- What is left was not met before, but is met on the whole path, so it is achieved on the rest.
    obtain ⟨hin, hnot⟩ := hk.mem_open.mp hid
    obtain ⟨e, he, hthere⟩ := hmet id (hsame ▸ hin)
    obtain ⟨rfl, hhas⟩ := Model.idOf_componentAt? he
    obtain ⟨v, hv, hachieves⟩ := hbefore.exists_achiever hw hafter hhas hthere
      fun hbefore => hnot ⟨e, he, hbefore⟩
    exact ⟨_, List.mem_map_of_mem hv, hachieves⟩

/-- Light and task are the landmarks of the lamp; once its switch is chosen, what is left costs one press at most. -/
theorem value_le_length_lamp :
    ∃ (c : LandmarkCount Exact) (k : Marks) (costs : Array Exact), k.landmarks.toList = [0, 4] ∧
      (LandmarkEngine.build (.lamp [0]) true).partition k.landmarks = .ok costs ∧
      (c.atRoot (.lamp [0]) (Model.lamp [0]).start).2.follow (.lamp [0]) (Model.lamp [0]).start
          (c.atRoot (.lamp [0]) (Model.lamp [0]).start).1 [⟨.method 1, ⟨.ofList 2 [], [.operator 1]⟩, 0⟩] =
        ⟨totalCost costs k.open, some k⟩ ∧
      totalCost costs k.open ≤ Scale.ofNat 1 := by
  have hbuild : (Draft.lamp [0]).build = .ok (Model.lamp [0]) := rfl
  have hmade : ofEngine (LandmarkEngine.build (.lamp [0]) true) ⟨true, true⟩ =
      .ok (LandmarkCount.build (.lamp [0]) ⟨true, true⟩ : LandmarkCount Exact) := rfl
  have hbefore : Path (.lamp [0]) (Model.lamp [0]).start [⟨.method 1, ⟨.ofList 2 [], [.operator 1]⟩, 0⟩]
      ⟨.ofList 2 [], [.operator 1]⟩ := .step (.tail _ (.head _)) .stay
  have hafter : Path (.lamp [0]) ⟨.ofList 2 [], [.operator 1]⟩ [⟨.operator 1, ⟨.ofList 2 [0], []⟩, 3⟩]
      ⟨.ofList 2 [0], []⟩ := .step (.head _) .stay
  obtain ⟨k, costs, hlandmarks, hcosts, -, hestimate, hbound⟩ :=
    value_le_length hbuild hmade hbefore hafter rfl
  have hlist : ((LandmarkEngine.build (.lamp [0]) true).landmarks (.lamp [0]) (Model.lamp [0]).init
      (Model.lamp [0]).network true).toOption.map (Option.map IdSet.toList) = some (some [0, 4]) := by
    decide +kernel
  rw [hlandmarks] at hlist
  exact ⟨_, k, costs, Option.some.inj (Option.some.inj hlist), hcosts, hestimate, hbound⟩

end LandmarkCount

end HierPlan
