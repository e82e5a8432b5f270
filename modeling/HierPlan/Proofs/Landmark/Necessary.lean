import HierPlan.Proofs.Graph.Passage
import HierPlan.Proofs.Landmark.Engine
import HierPlan.Proofs.Landmark.Fixpoint

/-!
# Proofs/Landmark/Necessary — no way to the goal misses a landmark

    start ──before──▸ here ──after──▸ goal          landmarks of `here`  ⊆  met on the whole way

Both tables belong to the start.  What the way meets has entries that stay among what it meets, bottom-up
(`Path.within_up`) and top-down (`Path.within_down`): the entries of a settled table hold what every derivation
needs, and the way is one derivation.  The ids still open at `here` are met later on, so **what their entries hold
together is met on the way**, and closing it under both tables never leaves what is met.

Where an open id is not reached there is no way to the goal at all.
-/

namespace HierPlan

variable {m : Model} {a b s : Situation} {moves before after : List Move} {id i : Nat}

/-! ## Entries of what is met -/

/-- Whether a node of the top-down graph stands for something that is met on the way; a recomposition node stands
for its operator. -/
def Model.MeetsNode (m : Model) (s : Situation) (moves : List Move) (id : Nat) : Prop :=
  m.MeetsId s moves id ∨ ∃ i, m.Meets s moves (.operator i) ∧ id = View.recompositionId m i

/-- A node of the top-down graph that is no recomposition node is met as a component. -/
theorem Model.MeetsNode.meetsId (h : m.MeetsNode s moves id) (hid : id < m.size) : m.MeetsId s moves id := by
  obtain h | ⟨i, -, rfl⟩ := h
  · exact h
  · exact absurd hid (Nat.not_lt.mpr (Nat.le_add_right _ _))

/-- The node of a subtask is met where the subtask is. -/
theorem Model.meetsNode_subtaskId {t : Task} (ht : m.HasTask t) (h : m.Meets s moves t.component) :
    m.MeetsNode s moves (View.topDown.subtaskId m t) := by
  cases t with
  | operator i => exact .inr ⟨i, h, rfl⟩
  | compound a => exact .inl ((meetsId_idOf ht).mpr h)

namespace Path

variable (hw : m.WellFormed) (h : Path m m.start moves b) (hb : b.network = [])
include hw h hb

/-- **Bottom-up, what is met on the way is reached, and its entry is met on the way.** -/
theorem within_up {c : Component} (hc : m.Meets m.start moves c) :
    (View.bottomUp.graph m).propagate.Within (m.MeetsId m.start moves) (m.idOf c) := by
  have hs := (View.bottomUp.mirrored m).settled
  have hK := hs.closedWithin (m.MeetsId m.start moves)
  have hT : ∀ c, m.HasComponent c → m.Meets m.start moves c → m.MeetsId m.start moves (m.idOf c) :=
    fun c hc => (Model.meetsId_idOf hc).mpr
  refine (h.closesUp hw hb (View.closesUp hw hK hT) (fun c hc => hc) fun f hf => ?_).1 c hc
  have hlt : f < m.facts.size := hw.init ▸ IdSet.lt_width_of_mem hf
  exact View.of_init hw hK rfl rfl hf (hT (.fact f) hlt (.inl ⟨f, hf, rfl⟩))

/-- **Top-down too**, and so are the recomposition nodes of the operators met. -/
theorem within_down {c : Component} (hc : m.Meets m.start moves c) :
    c.HeldDown m ((View.topDown.graph m).propagate.Within (m.MeetsNode m.start moves)) := by
  have hs := (View.topDown.mirrored m).settled
  have hK := hs.closedWithin (m.MeetsNode m.start moves)
  have hT : ∀ c, m.HasComponent c → m.Meets m.start moves c → m.MeetsNode m.start moves (m.idOf c) :=
    fun c hc hmet => .inl ((Model.meetsId_idOf hc).mpr hmet)
  have hcloses := View.closesDown hw hK hT fun t => Model.meetsNode_subtaskId
  refine h.closesDown hw hb hcloses (fun c hc => hc) (fun f hf => ?_) (fun t ht => ?_) c hc
  · have hlt : f < m.facts.size := hw.init ▸ IdSet.lt_width_of_mem hf
    exact View.of_init hw hK rfl rfl hf (hT (.fact f) hlt (.inl ⟨f, hf, rfl⟩))
  · exact View.of_network hw hK ht
      (Model.meetsNode_subtaskId (hw.network t ht) (h.meets_of_mem_network hw hb t ht))

end Path

/-! ## What an engine finds -/

namespace LandmarkEngine

/-- **What is still to be reached on a way to the goal is reached bottom-up, and its entry is met on the way.** -/
theorem within_of_mem_wanted (hw : m.WellFormed) (hbefore : Path m m.start before s) (hafter : Path m s after b)
    (hgoal : b.isGoal m = true) : ∀ id ∈ wanted m s,
      (View.bottomUp.graph m).propagate.Within (m.MeetsId m.start (before ++ after)) id := by
  obtain ⟨hb, hfacts⟩ := Situation.isGoal_iff.mp hgoal
  have hmet : ∀ c, m.Meets s after c →
      (View.bottomUp.graph m).propagate.Within (m.MeetsId m.start (before ++ after)) (m.idOf c) :=
    fun c hc => (hbefore.append hafter).within_up hw hb (hc.of_append hbefore)
  intro id hid
  obtain hin | ⟨t, ht, rfl⟩ := of_mem_wanted hid
  · exact hmet (.fact id) (Model.meets_of_mem_state hafter (hfacts id hin))
  · cases t <;> exact hmet _ (hafter.meets_of_mem_network hw hb _ ht)

/-- **Closing in both directions never leaves what is met on a way that leaves nothing open.** -/
theorem forall_mem_closed (hw : m.WellFormed) (h : Path m m.start moves b) (hb : b.network = [])
    {seed : IdSet} (hseed : ∀ id ∈ seed, m.MeetsId m.start moves id) :
    ∀ id ∈ closed m seed, m.MeetsId m.start moves id := by
  intro id hid
  obtain ⟨hid, hlt⟩ := IdSet.mem_resize.mp hid
  refine Model.MeetsNode.meetsId (forall_mem_close (P := m.MeetsNode m.start moves) ?_ ?_ id hid) hlt
  · rintro id hmet i (⟨⟨hlt, -⟩, hi⟩ | ⟨-, hi⟩)
    · obtain ⟨c, hc, hthere⟩ := hmet.meetsId hlt
      obtain ⟨rfl, -⟩ := Model.idOf_componentAt? hc
      exact .inl ((h.within_up hw hb hthere).2 i hi)
    · obtain ⟨c, hc, hthere⟩ | ⟨j, hthere, rfl⟩ := hmet
      · obtain ⟨rfl, -⟩ := Model.idOf_componentAt? hc
        exact (h.within_down hw hb hthere).1.2 i hi
      · exact ((h.within_down hw hb hthere).2 j rfl).2 i hi
  · exact fun id hid => .inl (hseed id (IdSet.mem_resize.mp hid).1)

/-- **An engine finds landmarks wherever the goal can be reached from, and they are met on the way.** -/
theorem exists_landmarks (hw : m.WellFormed) {bidirectional closing : Bool}
    (hb : closing = true → bidirectional = true) (hbefore : Path m m.start before s) (hafter : Path m s after b)
    (hgoal : b.isGoal m = true) :
    ∃ found, (build m bidirectional).landmarks m s.state s.network closing = .ok (some found) ∧
      ∀ id ∈ found, m.MeetsId m.start (before ++ after) id := by
  have hwithin := within_of_mem_wanted hw hbefore hafter hgoal
  have hall : (wanted m s).all (View.bottomUp.graph m).propagate.isReached = true :=
    List.all_eq_true.mpr fun id hid => (hwithin id hid).1
  have hjoined := forall_mem_joined fun id hid => (hwithin id hid).2
  refine ⟨_, by rw [landmarks_eq hb, if_pos hall], ?_⟩
  split
  · exact forall_mem_closed hw (hbefore.append hafter) (Situation.isGoal_iff.mp hgoal).1 hjoined
  · exact hjoined

/-- **Landmarks are necessary.**  On whatever way from the start a situation was come to, if the goal can be
reached from it, a fresh engine finds landmarks, closed in both directions or not, and every way to the goal that
goes through the situation meets them all; where it finds none, no way on reaches the goal. -/
theorem meetsId_of_mem_landmarks {d : Draft} (hd : d.build = .ok m) {bidirectional closing : Bool}
    (hb : closing = true → bidirectional = true) (hbefore : Path m m.start before s) :
    (∀ after g, Path m s after g → g.isGoal m = true →
      ∃ found, (build m bidirectional).landmarks m s.state s.network closing = .ok (some found) ∧
        ∀ id ∈ found, m.MeetsId m.start (before ++ after) id) ∧
    ((build m bidirectional).landmarks m s.state s.network closing = .ok none →
      ∀ after g, Path m s after g → g.isGoal m = false) := by
  have hw := Draft.wellFormed_of_build hd
  refine ⟨fun after g hafter hgoal => exists_landmarks hw hb hbefore hafter hgoal, fun hnone after g hafter => ?_⟩
  refine Bool.eq_false_iff.mpr fun hgoal => ?_
  obtain ⟨_, hsome, -⟩ := exists_landmarks hw hb hbefore hafter hgoal
  rw [hnone] at hsome
  cases hsome

/-- Once the lamp is to be lit by its switch, switch, method and task are landmarks along with the light. -/
theorem meetsId_of_mem_landmarks_lamp :
    ∃ found, (build (.lamp [0]) true).landmarks (.lamp [0]) (.ofList 2 []) [.operator 1] true =
        .ok (some found) ∧ found.toList = [0, 3, 4, 6] ∧
      ∀ id ∈ found, (Model.lamp [0]).MeetsId (Model.lamp [0]).start
        [⟨.method 1, ⟨.ofList 2 [], [.operator 1]⟩, 0⟩, ⟨.operator 1, ⟨.ofList 2 [0], []⟩, 3⟩] id := by
  have hbuild : (Draft.lamp [0]).build = .ok (Model.lamp [0]) := rfl
  have hbefore : Path (.lamp [0]) (Model.lamp [0]).start [⟨.method 1, ⟨.ofList 2 [], [.operator 1]⟩, 0⟩]
      ⟨.ofList 2 [], [.operator 1]⟩ := .step (.tail _ (.head _)) .stay
  have hafter : Path (.lamp [0]) ⟨.ofList 2 [], [.operator 1]⟩ [⟨.operator 1, ⟨.ofList 2 [0], []⟩, 3⟩]
      ⟨.ofList 2 [0], []⟩ := .step (.head _) .stay
  obtain ⟨found, hfound, hmet⟩ := (meetsId_of_mem_landmarks hbuild (fun closing => closing) hbefore).1
    _ _ hafter rfl
  have hlist : ((build (.lamp [0]) true).landmarks (.lamp [0]) (.ofList 2 []) [.operator 1] true).toOption.map
      (Option.map IdSet.toList) = some (some [0, 3, 4, 6]) := by decide +kernel
  rw [hfound] at hlist
  exact ⟨found, hfound, Option.some.inj (Option.some.inj hlist), hmet⟩

end LandmarkEngine

end HierPlan
