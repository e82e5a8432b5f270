import HierPlan.Heuristic.LandmarkCount
import HierPlan.Proofs.Landmark.Engine
import HierPlan.Proofs.Scale

/-!
# Proofs/Heuristic/LandmarkCount — landmarks are asked for at a root, and the root decides

    root ──ask──▸ none: no execution reaches the goal
                └─▸ landmarks over the ids of the problem, shares of units

Below the root nothing is a dead end: a count fits a machine word, and shares add up to something finite.
So a landmark counter is right about dead ends **if what it found out about the root is right**
(`RootLandmarks.Fits`), which holds of every answer of a fresh engine (`LandmarkCount.fits_of_found`).  A counter
over a fresh engine gets such an answer, and one that has it needs its tables no more (`Serves.lookAt`).
-/

namespace HierPlan

variable {α : Type} [Scale α]

/-! ## Shares -/

/-- What stands in a group stands in some list, and in no more lists than there are. -/
theorem appearances_pos {groups : List (List Nat)} {group : List Nat} {u : Nat} (hg : group ∈ groups)
    (hu : u ∈ group) : 0 < appearances groups u :=
  List.length_pos_of_mem (List.mem_filter.mpr ⟨hg, List.contains_iff_mem.mpr hu⟩)

/-- **The cheapest achiever of a landmark gives a share.** -/
theorem isShare_groupCost [Scale.Lawful α] {groups : List (List Nat)} {group : List Nat}
    (hg : group ∈ groups) (hword : groups.length < wordBound) :
    Scale.IsShare (groupCost groups group : α) := by
  unfold groupCost
  dsimp only
  cases hleast : Scale.least? (group.map fun u =>
      (Scale.div (Scale.ofNat 1) (Scale.ofNat (appearances groups u)) : α)) with
  | none => exact .nothing
  | some y =>
    obtain ⟨u, hu, rfl⟩ := List.mem_map.mp (Scale.mem_of_least? hleast)
    exact .part (appearances_pos hg hu) ((List.length_filter_le ..).trans_lt hword)

/-- Ids past the table cost nothing. -/
theorem costOf_of_size_le (g : AndOrGraph) {size id : Nat} {landmarks : IdSet} (hid : size ≤ id) :
    costOf (partitionCosts g size landmarks : Array α) id = Scale.ofNat 0 := by
  have hnone : (Array.range size)[id]? = none := by simp [hid]
  unfold costOf partitionCosts
  dsimp only
  rw [Array.getElem?_map, hnone, Option.map_none, Option.getD_none]

/-- A landmark costs what its cheapest achiever gives. -/
theorem costOf_of_lt (g : AndOrGraph) {size id : Nat} {landmarks : IdSet} (hid : id < size) :
    costOf (partitionCosts g size landmarks : Array α) id =
      if landmarks.contains id = true then groupCost (landmarks.toList.map g.achievers) (g.achievers id)
      else Scale.ofNat 0 := by
  have hrange : (Array.range size)[id]? = some id := by simp [hid]
  unfold costOf partitionCosts
  dsimp only
  rw [Array.getElem?_map, hrange, Option.map_some, Option.getD_some]

/-- **Every id costs a share.** -/
theorem isShare_costOf [Scale.Lawful α] (g : AndOrGraph) {size : Nat} {landmarks : IdSet}
    (hword : landmarks.count < wordBound) (id : Nat) :
    Scale.IsShare (costOf (partitionCosts g size landmarks : Array α) id) := by
  by_cases hid : id < size
  · rw [costOf_of_lt g hid]
    split
    · rename_i hin
      refine isShare_groupCost (List.mem_map_of_mem (IdSet.mem_toList.mpr hin)) ?_
      rwa [List.length_map]
    · exact .nothing
  · rw [costOf_of_size_le g (Nat.le_of_not_lt hid)]
    exact .nothing

/-! ## Roots -/

/-- What was found out about a situation is right. -/
structure RootLandmarks.Fits (m : Model) (s : Situation) (r : RootLandmarks α) : Prop where
  root : r.root = s
  width : ∀ landmarks, r.landmarks = some landmarks → landmarks.width = m.size
  shares : ∀ costs, r.costs = some costs → ∀ id, Scale.IsShare (costOf costs id)
  reach : ∀ (plan : List Nat) (t : IdSet), Execution m s.state s.network plan t →
    (∀ f ∈ m.goal, f ∈ t) → r.landmarks.isSome = true

/-- What a fresh engine finds out about the start: its landmarks, with their costs if units are shared. -/
structure RootLandmarks.Found (m : Model) (o : LandmarkOptions) (r : RootLandmarks α) : Prop where
  root : r.root = m.start
  landmarks : (LandmarkEngine.build m o.bidirectional).landmarks m m.start.state m.start.network
    o.bidirectional = .ok r.landmarks
  costs : r.costs =
    if o.partition then r.landmarks.map (partitionCosts (View.bottomUp.graph m) m.size) else none

namespace LandmarkCount

variable {m : Model} {o : LandmarkOptions} {c : LandmarkCount α}

/-- The bottom-up graph derives every open id of a start from where the goal can be reached. -/
theorem reached_of_execution (hw : m.WellFormed) {plan : List Nat} {t : IdSet}
    (hexec : Execution m m.init m.network plan t) (hgoal : ∀ f ∈ m.goal, f ∈ t) :
    (LandmarkEngine.wanted m m.start).all (View.bottomUp.graph m).propagate.isReached = true := by
  have hclosed := (View.bottomUp.mirrored m).closed
  have hcloses := View.closes_of_closed (v := .bottomUp) hw (fun h => nomatch h) rfl hclosed (· ∈ plan)
  have hinit : ∀ f ∈ m.init, (View.bottomUp.graph m).propagate.isReached f = true := fun f hf =>
    View.of_init hw (hclosed.within fun _ => True) rfl rfl hf trivial
  obtain ⟨hend, htasks⟩ := hexec.closes hw hcloses hinit
  refine List.all_eq_true.mpr fun id hid => ?_
  obtain hin | ⟨x, hx, rfl⟩ := LandmarkEngine.of_mem_wanted hid
  · exact hend id (hgoal id hin)
  · cases x <;> exact htasks _ hx

/-- **A fresh engine answers** whatever it was built for. -/
theorem found_ask {c : LandmarkCount α} {bidirectional : Bool}
    (hb : c.options.bidirectional = true → bidirectional = true)
    (he : c.engine = LandmarkEngine.build m bidirectional) :
    ∃ r, c.ask m m.start = .ok r ∧ r.Found m c.options := by
  obtain ⟨landmarks, hlandmarks⟩ : ∃ landmarks, (LandmarkEngine.build m c.options.bidirectional).landmarks m
      m.start.state m.start.network c.options.bidirectional = .ok landmarks :=
    ⟨_, LandmarkEngine.landmarks_eq fun h => h⟩
  refine ⟨⟨m.start, landmarks, if c.options.partition then
    landmarks.map (partitionCosts (View.bottomUp.graph m) m.size) else none⟩, ?_, rfl, hlandmarks, rfl⟩
  rw [ask, he, LandmarkEngine.landmarks_build hb, hlandmarks]
  cases landmarks with
  | none => cases c.options.partition <;> rfl
  | some set => cases c.options.partition <;> rfl

/-- **What a fresh engine finds out about the start is right.** -/
theorem fits_of_found [Scale.Lawful α] (hw : m.WellFormed) (hsize : m.size < wordBound)
    {r : RootLandmarks α} (hr : r.Found m o) : r.Fits m m.start := by
  have hlandmarks := hr.landmarks
  have hwidth : ∀ set, r.landmarks = some set → set.width = m.size := fun set hset =>
    LandmarkEngine.width_of_landmarks (s := m.start) (fun h => h) (hset ▸ hlandmarks)
  refine ⟨hr.root, hwidth, fun costs hcosts id => ?_, fun plan t hexec hgoal => ?_⟩
  · rw [hr.costs] at hcosts
    split at hcosts
    · obtain ⟨set, hset, rfl⟩ := Option.map_eq_some_iff.mp hcosts
      have hcount := set.count_le_width
      rw [hwidth set hset] at hcount
      exact isShare_costOf _ (hcount.trans_lt hsize) id
    · cases hcosts
  · have hanswer := LandmarkEngine.landmarks_eq (m := m) (s := m.start) fun h : o.bidirectional = true => h
    rw [hlandmarks, if_pos (reached_of_execution hw hexec hgoal)] at hanswer
    rw [Except.ok.inj hanswer]
    rfl

/-! ## Counters -/

/-- A counter that was asked about the start while it held its tables; it may have released them since. -/
structure Informed (m : Model) (o : LandmarkOptions) (c : LandmarkCount α) : Prop where
  options : c.options = o
  root : ∃ r, c.root = some r ∧ r.Found m o

/-- A counter over a fresh engine that can serve its options, or one that was asked about the start. -/
inductive Serves (m : Model) (o : LandmarkOptions) : LandmarkCount α → Prop where
  | fresh {bidirectional : Bool} (able : o.bidirectional = true → bidirectional = true) :
      Serves m o ⟨LandmarkEngine.build m bidirectional, o, none⟩
  | informed {c : LandmarkCount α} (asked : c.Informed m o) : Serves m o c

/-- A counter that an engine was found fit for serves its options. -/
theorem serves_of_ofEngine {bidirectional : Bool}
    (made : ofEngine (LandmarkEngine.build m bidirectional) o = .ok c) :
    (o.bidirectional = true → bidirectional = true) ∧ c.Serves m o := by
  unfold ofEngine at made
  split at made
  · cases made
  · rename_i fit
    obtain rfl := Except.ok.inj made
    have able : o.bidirectional = true → bidirectional = true := fun hb => by
      simpa [hb, LandmarkEngine.build] using fit
    exact ⟨able, .fresh able⟩

/-- **A counter that serves can look at the start.** -/
theorem Serves.lookAt (h : c.Serves m o) : ∃ c', c.lookAt m m.start = some c' ∧ c'.Informed m o := by
  cases h with
  | @fresh bidirectional able =>
    let c : LandmarkCount α := ⟨LandmarkEngine.build m bidirectional, o, none⟩
    obtain ⟨r, hask, hfound⟩ := found_ask (m := m) (c := c) able rfl
    refine ⟨{ c with root := some r }, ?_, rfl, r, rfl, hfound⟩
    rw [LandmarkCount.lookAt, hask]
    rfl
  | informed asked =>
    obtain ⟨r, hr, hfound⟩ := asked.root
    refine ⟨c, ?_, asked⟩
    rw [LandmarkCount.lookAt, hr, if_pos (by simpa using hfound.root)]

/-- A counter that was asked about the start, and found out what is right. -/
def Ready (m : Model) (c : LandmarkCount α) : Prop := ∃ r, c.root = some r ∧ r.Fits m m.start

/-- A counter that was asked about the start is right about dead ends. -/
theorem Informed.ready [Scale.Lawful α] (hw : m.WellFormed) (hsize : m.size < wordBound)
    (h : c.Informed m o) : c.Ready m :=
  have ⟨r, hr, hfound⟩ := h.root
  ⟨r, hr, fits_of_found hw hsize hfound⟩

/-- **A counter that is fresh or ready is ready once it has looked at the start.** -/
theorem lookAt_start [Scale.Lawful α] (hw : m.WellFormed) (hsize : m.size < wordBound)
    (hc : c = build m o ∨ c.Ready m) : ∃ c', c.lookAt m m.start = some c' ∧ c'.Ready m := by
  rcases hc with rfl | ⟨r, hr, hfits⟩
  · obtain ⟨c', hlook, hinformed⟩ := Serves.lookAt (α := α) (.fresh (m := m) (o := o) fun h => h)
    exact ⟨c', hlook, hinformed.ready hw hsize⟩
  · refine ⟨c, ?_, r, hr, hfits⟩
    rw [lookAt, hr, if_pos (by simpa using hfits.root)]

/-! ## Estimates -/

/-- **What is left to count is finite.** -/
theorem finite_value [Scale.Lawful α] (hc : c.Ready m) (hsize : m.size < wordBound) {k : Marks}
    (hk : k.landmarks.width = m.size) : Scale.isFinite (c.value k) = true := by
  obtain ⟨r, hr, hfits⟩ := hc
  rw [value, hr, Option.bind_some]
  cases hcosts : r.costs with
  | none =>
    have hcount := k.landmarks.count_le_width
    refine Scale.Lawful.finite_ofNat _ ?_
    omega
  | some costs =>
    refine Scale.Lawful.finite_sum _ fun y hy => ?_
    obtain ⟨id, -, rfl⟩ := List.mem_map.mp hy
    exact hfits.shares costs hcosts id

/-- A counter is right about a move that it can go on to. -/
theorem finite_atMove [Scale.Lawful α] (hc : c.Ready m) (hsize : m.size < wordBound) {k : Marks}
    (hk : k.landmarks.width = m.size) (before : Situation) (v : Move) :
    Scale.isFinite (c.atMove m before (some k) v).value = true :=
  finite_value hc hsize hk

/-- **What a counter says about the start is right**: it is ready afterwards, it leaves marks unless it
calls the start a dead end, and it does so only if the goal cannot be reached. -/
theorem atRoot_start [Scale.Lawful α] (hw : m.WellFormed) (hsize : m.size < wordBound)
    (hc : c = build m o ∨ c.Ready m) :
    (c.atRoot m m.start).2.Ready m ∧
      (Scale.isFinite (c.atRoot m m.start).1.value = true →
        ∃ k, (c.atRoot m m.start).1.marks = some k ∧ k.landmarks.width = m.size) ∧
      ∀ plan, m.IsSolution plan → Scale.isFinite (c.atRoot m m.start).1.value = true := by
  obtain ⟨c', hlook, hready⟩ := lookAt_start hw hsize hc
  obtain ⟨r, hr, hfits⟩ := hready
  rw [atRoot, hlook]
  dsimp only
  rw [hr, Option.bind_some]
  cases hlandmarks : r.landmarks with
  | none =>
    refine ⟨⟨r, hr, hfits⟩, fun hfinite => ?_, ?_⟩
    · rw [Scale.Lawful.infinite] at hfinite
      cases hfinite
    · rintro plan ⟨t, hexec, hgoal⟩
      have hsome := hfits.reach plan t hexec hgoal
      rw [hlandmarks] at hsome
      cases hsome
  | some landmarks =>
    have hwidth := hfits.width landmarks hlandmarks
    exact ⟨⟨r, hr, hfits⟩, fun _ => ⟨_, rfl, hwidth⟩,
      fun _ _ => finite_value ⟨r, hr, hfits⟩ hsize hwidth⟩

end LandmarkCount

end HierPlan
