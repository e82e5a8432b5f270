import HierPlan.Proofs.Heuristic.Marks
import HierPlan.Proofs.Search.Completeness
import HierPlan.Proofs.Search.Waiting

/-!
# Proofs/Search/Marking — what nodes that wait are marked with

    waits  ──▸  marks = (landmarks of the root, those of them met on the way)

Marks are made when a node is generated, from the marks of its parent, and are let go once all its children have
theirs.  Accurate marks go over from a node to its children (`Marked.passes`), so **every node that waits has
accurate marks** (`Search.marked_of_reaches`), whatever was pruned or dropped on the way and however the frontier
is ordered; none is a dead end for want of them.
-/

namespace HierPlan

variable {α : Type} [Scale α] {m : Model} {o : LandmarkOptions} {c : LandmarkCount α} {h : Heuristic α}

/-! ## Landmark counters at work -/

/-- A landmark counter for some options: over a fresh engine that can serve them, or after any searches of the
problem. -/
inductive Heuristic.Counts (m : Model) (o : LandmarkOptions) : Heuristic α → Prop where
  | fresh {bidirectional : Bool} {c : LandmarkCount α}
      (made : LandmarkCount.ofEngine (LandmarkEngine.build m bidirectional) o = .ok c) :
      Counts m o (.fresh (.landmarkCount c))
  | again {h : Heuristic α} {x : Search} {mon : Monitor} {fuel : Nat} {done : Finished α}
      (before : Counts m o h) (same : x.model = m) (ran : x.run mon fuel (x.start h) = some done) :
      Counts m o done.last.heuristic

/-- The heuristic that options ask for, where they ask for landmarks. -/
theorem Heuristic.counts_of_build {options : HeuristicOptions} (hk : options.kind = .landmarkCount)
    (hb : Heuristic.build m options = .ok h) : h.Counts m options.landmarks := by
  obtain ⟨-, -, hh⟩ := exists_of_bind_eq_ok hb
  obtain rfl := Except.ok.inj hh
  have hmade : LandmarkCount.ofEngine (LandmarkEngine.build m options.landmarks.bidirectional) options.landmarks =
      .ok (LandmarkCount.build m options.landmarks : LandmarkCount α) := by
    rw [LandmarkCount.ofEngine, if_neg (by simp [LandmarkEngine.build])]
    rfl
  rw [hk]
  exact .fresh hmade

/-- What a landmark counter says about the start, and what it is afterwards. -/
theorem Heuristic.atRoot_landmarkCount (he : h.estimator = .landmarkCount c) (s : Situation) :
    (h.atRoot m s).1 = (c.atRoot m s).1 ∧
      (h.atRoot m s).2.release.estimator = .landmarkCount (c.atRoot m s).2.release := by
  obtain ⟨e, statistics⟩ := h
  obtain rfl := he
  exact ⟨rfl, rfl⟩

/-- What a landmark counter says about a move. -/
theorem Heuristic.atMove_landmarkCount (he : h.estimator = .landmarkCount c) (s : Situation)
    (marks : Option Marks) (v : Move) : (h.atMove m s marks v).1 = c.atMove m s marks v := by
  obtain ⟨e, statistics⟩ := h
  obtain rfl := he
  rfl

/-- **Searches leave a landmark counter that serves.** -/
theorem Heuristic.Counts.serves (hw : m.WellFormed) (hu : h.Counts m o) :
    ∃ c, h.estimator = .landmarkCount c ∧ c.Serves m o := by
  induction hu with
  | fresh made => exact ⟨_, rfl, (LandmarkCount.serves_of_ofEngine made).2⟩
  | again _ same ran ih =>
    subst same
    obtain ⟨c, he, hserves⟩ := ih
    obtain ⟨c', hc', hinformed, -⟩ := hserves.atRoot hw
    refine ⟨c'.release, ?_, .informed ⟨hinformed.options, hinformed.root⟩⟩
    rw [Search.estimator_last ran, (atRoot_landmarkCount he _).2, hc']

/-! ## Marks of nodes that wait -/

/-- A node with accurate marks, for the landmarks of the root, and their value for an estimate. -/
def Node.Marked (m : Model) (o : LandmarkOptions) (c : LandmarkCount α) (ts : List Transition) (n : Node α) :
    Prop :=
  ∃ moves k, Path m m.start moves n.situation ∧ moves.map (·.transition) = ts ∧ n.marks = some k ∧
    n.h = c.value k ∧ k.Accurate m moves ∧
    (LandmarkEngine.build m o.bidirectional).landmarks m m.start.state m.start.network o.bidirectional =
      .ok (some k.landmarks)

/-- **Accurate marks go over to children.** -/
theorem Node.Marked.passes (hw : m.WellFormed) (o : LandmarkOptions) (c : LandmarkCount α) :
    (Estimator.landmarkCount c).Passes m (Node.Marked m o c) := by
  rintro ts n v h i sequence he ⟨moves, k, hpath, htransitions, hmarks, -, hk, hroot⟩ hv -
  obtain ⟨k', hmove, hsame, hk'⟩ := LandmarkCount.accurate_atMove (c := c) hw hpath hv hk
  rw [hmarks, Heuristic.atMove_landmarkCount he, hmove]
  refine ⟨moves ++ [v], k', hpath.snoc hv, ?_, rfl, rfl, hk', hsame ▸ hroot⟩
  rw [List.map_append, htransitions]
  rfl

/-- A node that waits, and the path that led to it: the one of the transitions read off its ancestors. -/
structure Run.WaitsAt (x : Search) (r : Run α) (i : Nat) (n : Node α) (moves : List Move) : Prop where
  waits : i ∈ r.frontier.toList
  node : r.nodes[i]? = some n
  path : Path x.model x.model.start moves n.situation
  transitions : moves.map (·.transition) = transitionsTo r.nodes i []

namespace Search

variable {x : Search} {mon : Monitor} {r : Run α}

/-- **Every node that waits is marked**, in every run that a search with a landmark counter passes through. -/
theorem marked_of_reaches [Scale.Lawful α] (hw : x.model.WellFormed) (hu : h.Counts x.model o)
    (hr : x.Reaches mon (x.start h) r) :
    ∃ c, r.heuristic.estimator = .landmarkCount c ∧ c.Informed x.model o ∧
      r.Waits (Node.Marked x.model o c) := by
  obtain ⟨c, he, hserves⟩ := hu.serves hw
  obtain ⟨c', hc', hinformed, hroot⟩ := hserves.atRoot hw
  obtain ⟨hestimate, hestimator⟩ := Heuristic.atRoot_landmarkCount (m := x.model) he x.model.start
  rw [hc'] at hestimator
  have hstart : (x.start h).heuristic.estimator = .landmarkCount c'.release := by
    rw [heuristic_start, hestimator]
  refine ⟨c'.release, by rw [estimator_of_reaches hr, hestimator], ⟨hinformed.options, hinformed.root⟩,
    waits_of_reaches hr (hstart ▸ Node.Marked.passes hw o _) fun hfinite => ?_⟩
  rw [hestimate] at hfinite ⊢
  obtain ⟨-, hnone⟩ | ⟨k, hlandmarks, hsome, hk⟩ := hroot
  · rw [hnone, Scale.Lawful.infinite] at hfinite
    cases hfinite
  · rw [hsome]
    exact ⟨[], k, .stay, rfl, rfl, rfl, hk, hlandmarks⟩

/-- The marks of a node that waits are those of its path. -/
theorem accurate_of_waitsAt [Scale.Lawful α] (hw : x.model.WellFormed) (hu : h.Counts x.model o)
    (hr : x.Reaches mon (x.start h) r) {i : Nat} {n : Node α} {moves : List Move} {k : Marks}
    (hn : r.WaitsAt x i n moves) (hk : n.marks = some k) :
    k.Accurate x.model moves ∧
      (LandmarkEngine.build x.model o.bidirectional).landmarks x.model x.model.start.state
        x.model.start.network o.bidirectional = .ok (some k.landmarks) := by
  obtain ⟨c, -, -, hwaits⟩ := marked_of_reaches hw hu hr
  obtain ⟨n', hn', moves', k', hpath, htransitions, hmarks, -, haccurate, hroot⟩ := hwaits.each i hn.waits
  obtain rfl := Option.some.inj (hn.node.symm.trans hn')
  obtain rfl := Option.some.inj (hk.symm.trans hmarks)
  obtain rfl := hn.path.eq_of_transitions hpath (hn.transitions.trans htransitions.symm)
  exact ⟨haccurate, hroot⟩

/-- **Marks are accurate whenever a node is taken**, and no move is a dead end for want of them.  A node that waits
carries the landmarks of the root and, as achieved, exactly those of them that were met on its path, so what is
left never falls below nothing, is the estimate if units are not shared, and is nothing at a goal.  Each of its
moves is marked with no less and leaves no more; and on one path, landmarks of both directions leave no less than
those of one. -/
theorem marks_accurate [Scale.Lawful α] {d : Draft} (hd : d.build = .ok x.model) (hu : h.Counts x.model o)
    (hr : x.Reaches mon (x.start h) r) {i : Nat} (hi : i ∈ r.frontier.toList) :
    ∃ n moves k, r.WaitsAt x i n moves ∧ n.marks = some k ∧
      (LandmarkEngine.build x.model o.bidirectional).landmarks x.model x.model.init x.model.network
        o.bidirectional = .ok (some k.landmarks) ∧
      (∀ id, id ∈ k.achieved ↔ id ∈ k.landmarks ∧ x.model.MeetsId x.model.start moves id) ∧
      k.achieved.count ≤ k.landmarks.count ∧
      (o.partition = false → n.h = Scale.ofNat k.left) ∧
      (n.situation.isGoal x.model = true → k.left = 0) ∧
      (∀ v ∈ n.situation.moves x.model, ∃ k',
        (r.heuristic.atMove x.model n.situation n.marks v).1.marks = some k' ∧ k'.landmarks = k.landmarks ∧
        (∀ id ∈ k.achieved, id ∈ k'.achieved) ∧ k'.left ≤ k.left ∧
        (x.model.size < wordBound →
          Scale.isFinite (r.heuristic.atMove x.model n.situation n.marks v).1.value = true)) ∧
      (o.bidirectional = false → ∀ (x' : Search) (mon' : Monitor) (h' : Heuristic α) (o' : LandmarkOptions)
        (r' : Run α) (j : Nat) (n' : Node α) (k' : Marks), x'.model = x.model → o'.bidirectional = true →
        h'.Counts x'.model o' → x'.Reaches mon' (x'.start h') r' → r'.WaitsAt x' j n' moves →
        n'.marks = some k' → k.left ≤ k'.left) := by
  have hw := Draft.wellFormed_of_build hd
  obtain ⟨c, he, hinformed, hwaits⟩ := marked_of_reaches hw hu hr
  obtain ⟨n, hn, moves, k, hpath, htransitions, hmarks, hvalue, hk, hroot⟩ := hwaits.each i hi
  refine ⟨n, moves, k, ⟨hi, hn, hpath, htransitions⟩, hmarks, hroot, hk.achieved, hk.count_le, fun hplain => ?_,
    hk.left_eq_zero hw hroot hpath, fun v hv => ?_, ?_⟩
  · rw [hvalue, hinformed.value_eq hroot, hplain]
    rfl
  · obtain ⟨k', hmove, hsame, hk'⟩ := LandmarkCount.accurate_atMove (c := c) hw hpath hv hk
    have hestimate : (r.heuristic.atMove x.model n.situation n.marks v).1 = ⟨c.value k', some k'⟩ := by
      rw [hmarks, Heuristic.atMove_landmarkCount he, hmove]
    rw [hestimate]
    have hwidth := LandmarkEngine.width_of_landmarks (fun closing => closing) hroot
    exact ⟨k', rfl, hsame, hk.achieved_append hk' hsame, hk.left_le_of_append hk' hsame, fun hsize =>
      LandmarkCount.finite_value (hinformed.ready hw hsize) hsize (hsame ▸ hwidth)⟩
  · intro hone x' mon' h' o' r' j n' k' hmodel hboth hu' hr' hwaits' hmarks'
    obtain ⟨hk', hroot'⟩ := accurate_of_waitsAt (hmodel ▸ hw) hu' hr' hwaits' hmarks'
    rw [hone] at hroot
    rw [hboth] at hroot'
    rw [hmodel] at hk' hroot'
    exact hk.left_le_of_closing hk' hroot hroot'

/-- A search for the light, by how much is left, once its root was expanded. -/
def lampByLandmarks : Run Float :=
  (lamp [0]).turns ⟨fun _ => 0, fun _ => none⟩ 1 ((lamp [0]).start (.fresh (.landmarkCount (.build (.lamp [0]) {}))))

/-- Once a spark was chosen, the task was met and the light is left, and no move leaves more. -/
theorem marks_accurate_lamp :
    ∃ (n : Node Float) (moves : List Move) (k : Marks), lampByLandmarks.WaitsAt (lamp [0]) 1 n moves ∧
      moves.map (·.transition) = [.method 0] ∧ n.marks = some k ∧ k.landmarks.toList = [0, 4] ∧
      4 ∈ k.achieved ∧ (Model.lamp [0]).MeetsId (Model.lamp [0]).start moves 4 ∧ k.left = 1 ∧
      n.situation.moves (.lamp [0]) ≠ [] ∧
      ∀ v ∈ n.situation.moves (.lamp [0]), ∃ k',
        (lampByLandmarks.heuristic.atMove (.lamp [0]) n.situation n.marks v).1.marks = some k' ∧
          k'.left ≤ k.left := by
  have hbuild : (Draft.lamp [0]).build = .ok (lamp [0]).model := rfl
  have hmade : LandmarkCount.ofEngine (LandmarkEngine.build (.lamp [0]) false) {} =
      .ok (LandmarkCount.build (.lamp [0]) {} : LandmarkCount Float) := rfl
  have hcounts : (Heuristic.fresh (.landmarkCount (.build (.lamp [0]) {})) : Heuristic Float).Counts
      (lamp [0]).model {} := .fresh hmade
  have hreach : (lamp [0]).Reaches ⟨fun _ => 0, fun _ => none⟩
      ((lamp [0]).start (.fresh (.landmarkCount (.build (.lamp [0]) {})))) lampByLandmarks := reaches_turns 1
  have hwaits : 1 ∈ lampByLandmarks.frontier.toList := by decide +kernel
  obtain ⟨n, moves, k, hn, hk, hroot, hachieved, -, -, -, hmoves, -⟩ :=
    marks_accurate hbuild hcounts hreach hwaits
  have htransitions : transitionsTo lampByLandmarks.nodes 1 [] = [.method 0] := by decide +kernel
  have hnode : (lampByLandmarks.nodes[1]?.map fun n => (n.marks.map fun k => (decide (4 ∈ k.achieved), k.left),
      (n.situation.moves (.lamp [0])).isEmpty)) = some (some (true, 1), false) := by decide +kernel
  rw [hn.node, Option.map_some, hk, Option.map_some] at hnode
  simp only [Option.some.injEq, Prod.mk.injEq, decide_eq_true_eq] at hnode
  obtain ⟨⟨hmet, hleft⟩, hopen⟩ := hnode
  have hlist : ((LandmarkEngine.build (.lamp [0]) false).landmarks (.lamp [0]) (Model.lamp [0]).init
      (Model.lamp [0]).network false).toOption.map (Option.map IdSet.toList) = some (some [0, 4]) := by
    decide +kernel
  rw [show (LandmarkEngine.build (.lamp [0]) false).landmarks (.lamp [0]) (Model.lamp [0]).init
    (Model.lamp [0]).network false = .ok (some k.landmarks) from hroot] at hlist
  refine ⟨n, moves, k, hn, hn.transitions.trans htransitions, hk, Option.some.inj (Option.some.inj hlist), hmet,
    ((hachieved 4).mp hmet).2, hleft, fun hnone => ?_, fun v hv => ?_⟩
  · rw [hnone] at hopen
    cases hopen
  obtain ⟨k', hmarks, -, -, hleft, -⟩ := hmoves v hv
  exact ⟨k', hmarks, hleft⟩

end Search

end HierPlan
