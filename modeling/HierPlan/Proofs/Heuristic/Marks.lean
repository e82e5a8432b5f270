import HierPlan.Proofs.Heuristic.LandmarkCount
import HierPlan.Proofs.Landmark.Necessary
import Mathlib.Data.List.Perm.Subperm

/-!
# Proofs/Heuristic/Marks — marks tell what was met

    start ──v₁──▸ s₁ ──v₂──▸ s₂ ──▸ …          achieved  =  landmarks ∩ met so far

A move is marked with what it brings up, less what held before, and what held before was met already
(`Path.meetsId_snoc`).  So marks that are accurate stay so, move by move (`LandmarkCount.accurate_atMove`), from the
root on (`LandmarkCount.Serves.atRoot`), and **along any path** (`LandmarkCount.accurate_follow`).

Accurate marks count what is left: less and less along a path, nothing at a goal, and no less with landmarks of both
directions than with those of one.
-/

namespace HierPlan

variable {α : Type} [Scale α] {m : Model} {s t : Situation} {v : Move} {before moves : List Move} {id : Nat}

/-! ## What a move brings up -/

/-- States on the way are as wide as the problem has facts. -/
theorem Path.width_state (h : Path m s moves t) (hs : s.state.width = m.facts.size) :
    t.state.width = m.facts.size := by
  induction h with
  | stay => exact hs
  | step first _ ih => exact ih ((Situation.width_next first).trans hs)

/-- **What a move gains is what it brings up and did not hold before.** -/
theorem mem_gained (hw : m.WellFormed) (hs : s.state.width = m.facts.size) (hv : v ∈ s.moves m) :
    id ∈ LandmarkCount.gained m s v ↔
      ∃ c, m.componentAt? id = some c ∧ v.Brings m c ∧ ∀ f ∈ s.state, c ≠ .fact f := by
  have hwidth := (Situation.width_next hv).trans hs
  cases Situation.moved hw hv with
  | @operator state rest i o known applicable =>
    have hi : m.HasComponent (.operator i) := (Array.getElem?_eq_some_iff.mp known).1
    rw [LandmarkCount.gained, List.mem_cons, IdSet.mem_toList, IdSet.mem_sdiff]
    constructor
    · rintro (rfl | ⟨hin, hnot⟩)
      · exact ⟨.operator i, Model.componentAt?_idOf hi, rfl, fun f _ he => nomatch he⟩
      · have hlt : m.HasComponent (.fact id) := Nat.lt_of_lt_of_eq (IdSet.lt_width_of_mem hin) hwidth
        exact ⟨.fact id, Model.componentAt?_idOf hlt, hin, fun f hf he => hnot (Component.fact.inj he ▸ hf)⟩
    · rintro ⟨c, hc, hbrings, hnew⟩
      obtain ⟨rfl, -⟩ := Model.idOf_componentAt? hc
      obtain rfl | ⟨f, hf, rfl⟩ := Move.brings_operator.mp hbrings
      · exact .inl rfl
      · exact .inr ⟨hf, fun hold => hnew f hold rfl⟩
  | @method state rest d y known applicable =>
    have hd : m.HasComponent (.method d) := (Array.getElem?_eq_some_iff.mp known).1
    have ha : m.HasComponent (.compound y.task) := (hw.methods d y known).task
    have hstored : y.id = m.methodId d := hw.stored (.method d) (.method y) (Model.item?_method known)
    simp only [LandmarkCount.gained, known, hstored, List.mem_pair]
    constructor
    · rintro (rfl | rfl)
      · exact ⟨.method d, Model.componentAt?_idOf hd, rfl, fun f _ he => nomatch he⟩
      · exact ⟨.compound y.task, Model.componentAt?_idOf ha, ⟨d, y, rfl, known, rfl⟩, fun f _ he => nomatch he⟩
    · rintro ⟨c, hc, hbrings, hnew⟩
      obtain ⟨rfl, -⟩ := Model.idOf_componentAt? hc
      obtain rfl | rfl | ⟨f, hf, rfl⟩ := (Move.brings_method known).mp hbrings
      · exact .inl rfl
      · exact .inr rfl
      · exact absurd rfl (hnew f hf)

/-- **What a move adds to what was met is what it gains.** -/
theorem Path.meetsId_snoc (hw : m.WellFormed) (h : Path m m.start moves s) (hv : v ∈ s.moves m) :
    m.MeetsId m.start (moves ++ [v]) id ↔
      m.MeetsId m.start moves id ∨ id ∈ LandmarkCount.gained m s v := by
  rw [mem_gained hw (h.width_state hw.init) hv]
  constructor
  · rintro ⟨c, hc, hmet⟩
    obtain hmet | ⟨w, hw, hbrings⟩ := Model.meets_append.mp hmet
    · exact .inl ⟨c, hc, hmet⟩
    obtain rfl := List.mem_singleton.mp hw
    by_cases hold : ∃ f ∈ s.state, c = .fact f
    · obtain ⟨f, hf, rfl⟩ := hold
      exact .inl ⟨.fact f, hc, Model.meets_of_mem_state h hf⟩
    · exact .inr ⟨c, hc, hbrings, fun f hf he => hold ⟨f, hf, he⟩⟩
  · rintro (⟨c, hc, hmet⟩ | ⟨c, hc, hbrings, -⟩)
    · exact ⟨c, hc, Model.meets_append.mpr (.inl hmet)⟩
    · exact ⟨c, hc, Model.meets_append.mpr (.inr ⟨v, List.mem_singleton_self v, hbrings⟩)⟩

/-- At the start the facts that hold are met, and nothing else. -/
theorem Model.meetsId_nil (hw : m.WellFormed) : m.MeetsId m.start [] id ↔ id ∈ m.init := by
  constructor
  · rintro ⟨c, hc, ⟨f, hf, rfl⟩ | ⟨v, hv, -⟩⟩
    · obtain ⟨rfl, -⟩ := idOf_componentAt? hc
      exact hf
    · exact absurd hv List.not_mem_nil
  · intro hid
    have hlt : m.HasComponent (.fact id) := Nat.lt_of_lt_of_eq (IdSet.lt_width_of_mem hid) hw.init
    exact ⟨.fact id, componentAt?_idOf hlt, .inl ⟨id, hid, rfl⟩⟩

/-! ## Accurate marks -/

namespace Marks

variable {k k' : Marks}

/-- How many landmarks are left. -/
def left (k : Marks) : Nat := k.landmarks.count - k.achieved.count

/-- Marks that tell which landmarks were met on the way from the start. -/
structure Accurate (m : Model) (moves : List Move) (k : Marks) : Prop where
  width : k.achieved.width = k.landmarks.width
  achieved : ∀ id, id ∈ k.achieved ↔ id ∈ k.landmarks ∧ m.MeetsId m.start moves id

theorem mem_open : id ∈ k.open ↔ id ∈ k.landmarks ∧ id ∉ k.achieved := by
  rw [Marks.open, List.mem_filter, IdSet.mem_toList, Bool.not_eq_true', IdSet.mem_def (s := k.achieved),
    Bool.not_eq_true]

theorem nodup_open : k.open.Nodup := (List.nodup_range.filter _).filter _

/-- What is achieved of a set and what is left of it make up the set. -/
theorem left_eq_length (h : ∀ id ∈ k.achieved, id ∈ k.landmarks)
    (hw : k.achieved.width = k.landmarks.width) : k.left = k.open.length := by
  have hachieved : k.landmarks.toList.filter k.achieved.contains = k.achieved.toList := by
    rw [IdSet.toList, IdSet.toList, List.filter_filter, hw]
    refine List.filter_congr fun id _ => ?_
    exact Bool.eq_iff_iff.mpr ⟨fun hid => (Bool.and_eq_true_iff.mp hid).1,
      fun hid => Bool.and_eq_true_iff.mpr ⟨hid, h id hid⟩⟩
  have hsplit := List.length_eq_length_filter_add (l := k.landmarks.toList) k.achieved.contains
  rw [hachieved] at hsplit
  rw [left, Marks.open, IdSet.count, IdSet.count, hsplit, Nat.add_sub_cancel_left]

namespace Accurate

/-- No more is achieved than there is. -/
theorem count_le (h : k.Accurate m moves) : k.achieved.count ≤ k.landmarks.count :=
  IdSet.count_le_of_subset h.width fun id hid => ((h.achieved id).mp hid).1

/-- What is left was not met. -/
theorem mem_open (h : k.Accurate m moves) : id ∈ k.open ↔ id ∈ k.landmarks ∧ ¬ m.MeetsId m.start moves id := by
  rw [Marks.mem_open, h.achieved]
  tauto

theorem left_eq (h : k.Accurate m moves) : k.left = k.open.length :=
  left_eq_length (fun id hid => ((h.achieved id).mp hid).1) h.width

/-- **The more is left, the more counts.** -/
theorem left_le (h : k.Accurate m before) (h' : k'.Accurate m moves) (hsub : ∀ id ∈ k.open, id ∈ k'.open) :
    k.left ≤ k'.left := by
  rw [h.left_eq, h'.left_eq]
  exact (List.subperm_of_subset nodup_open hsub).length_le

/-- **Less and less is left along a path.** -/
theorem left_le_of_append (h : k.Accurate m before) (h' : k'.Accurate m (before ++ moves))
    (hsame : k'.landmarks = k.landmarks) : k'.left ≤ k.left := by
  refine h'.left_le h fun id hid => ?_
  obtain ⟨hid, hnot⟩ := h'.mem_open.mp hid
  refine h.mem_open.mpr ⟨hsame ▸ hid, fun ⟨c, hc, hmet⟩ => hnot ⟨c, hc, Model.meets_append.mpr (.inl hmet)⟩⟩

/-- What is achieved stays achieved along a path. -/
theorem achieved_append (h : k.Accurate m before) (h' : k'.Accurate m (before ++ moves))
    (hsame : k'.landmarks = k.landmarks) : ∀ id ∈ k.achieved, id ∈ k'.achieved := by
  intro id hid
  obtain ⟨hid, c, hc, hmet⟩ := (h.achieved id).mp hid
  exact (h'.achieved id).mpr ⟨hsame ▸ hid, c, hc, Model.meets_append.mpr (.inl hmet)⟩

end Accurate

/-- **At a goal nothing is left**: every landmark of the root was met. -/
theorem Accurate.left_eq_zero (hw : m.WellFormed) {bidirectional : Bool} (h : k.Accurate m moves)
    (hroot : (LandmarkEngine.build m bidirectional).landmarks m m.start.state m.start.network bidirectional =
      .ok (some k.landmarks)) (hpath : Path m m.start moves s) (hgoal : s.isGoal m = true) : k.left = 0 := by
  obtain ⟨found, hfound, hmet⟩ :=
    LandmarkEngine.exists_landmarks hw (fun h : bidirectional = true => h) .stay hpath hgoal
  rw [hroot] at hfound
  obtain rfl := Option.some.inj (Except.ok.inj hfound)
  rw [h.left_eq, List.length_eq_zero_iff, List.eq_nil_iff_forall_not_mem]
  intro id hid
  obtain ⟨hin, hnot⟩ := h.mem_open.mp hid
  exact hnot (hmet id hin)

/-- **Of landmarks of both directions no less is left** than of those of one, on the same path. -/
theorem Accurate.left_le_of_closing (h : k.Accurate m moves) (h' : k'.Accurate m moves)
    (hone : (LandmarkEngine.build m false).landmarks m m.start.state m.start.network false =
      .ok (some k.landmarks))
    (hboth : (LandmarkEngine.build m true).landmarks m m.start.state m.start.network true =
      .ok (some k'.landmarks)) : k.left ≤ k'.left := by
  refine h.left_le h' fun id hid => ?_
  obtain ⟨hin, hnot⟩ := h.mem_open.mp hid
  exact h'.mem_open.mpr ⟨LandmarkEngine.mem_of_closing hone hboth hin, hnot⟩

end Marks

namespace LandmarkCount

variable {c : LandmarkCount α} {o : LandmarkOptions} {k : Marks} {landmarks : IdSet}

/-! ## At the root -/

/-- **What marks count**: what is left of the landmarks, or the shares of it. -/
theorem Informed.value_eq (h : c.Informed m o)
    (hroot : (LandmarkEngine.build m o.bidirectional).landmarks m m.start.state m.start.network
      o.bidirectional = .ok (some landmarks)) :
    c.value k = if o.partition = true then
      totalCost (partitionCosts (View.bottomUp.graph m) m.size landmarks : Array α) k.open
    else Scale.ofNat k.left := by
  obtain ⟨r, hr, hfound⟩ := h.root
  have hlandmarks := hfound.landmarks
  rw [hroot] at hlandmarks
  have hcosts := hfound.costs
  rw [← Except.ok.inj hlandmarks, Option.map_some] at hcosts
  rw [value, hr, Option.bind_some, hcosts]
  cases o.partition <;> rfl

/-- **Marks are accurate at the root.** -/
theorem accurate_root (hw : m.WellFormed) (landmarks : IdSet) :
    Marks.Accurate m [] ⟨landmarks, (m.init.resize landmarks.width).inter landmarks⟩ where
  width := rfl
  achieved id := by
    have hlt : id ∈ landmarks → id < landmarks.width := IdSet.lt_width_of_mem
    rw [IdSet.mem_inter, IdSet.mem_resize, Model.meetsId_nil hw]
    tauto

/-- **At the root** a counter finds that the goal cannot be reached, or marks the landmarks that hold. -/
theorem Serves.atRoot (hw : m.WellFormed) (h : c.Serves m o) :
    ∃ c', (c.atRoot m m.start).2 = c' ∧ c'.Informed m o ∧
      ((LandmarkEngine.build m o.bidirectional).landmarks m m.start.state m.start.network o.bidirectional =
          .ok none ∧ (c.atRoot m m.start).1 = ⟨Scale.infinite, none⟩ ∨
        ∃ k : Marks, (LandmarkEngine.build m o.bidirectional).landmarks m m.start.state m.start.network
            o.bidirectional = .ok (some k.landmarks) ∧
          (c.atRoot m m.start).1 = ⟨c'.value k, some k⟩ ∧ k.Accurate m []) := by
  obtain ⟨c', hlook, hinformed⟩ := h.lookAt
  obtain ⟨r, hr, hfound⟩ := hinformed.root
  rw [LandmarkCount.atRoot, hlook]
  dsimp only
  rw [hr, Option.bind_some]
  have hlandmarks := hfound.landmarks
  cases hset : r.landmarks with
  | none => exact ⟨c', rfl, hinformed, .inl ⟨hset ▸ hlandmarks, rfl⟩⟩
  | some landmarks =>
    exact ⟨c', rfl, hinformed, .inr ⟨_, hset ▸ hlandmarks, rfl, accurate_root hw landmarks⟩⟩

/-! ## Along a path -/

/-- **A move keeps marks accurate.** -/
theorem accurate_atMove (hw : m.WellFormed) (h : Path m m.start moves s) (hv : v ∈ s.moves m)
    (hk : k.Accurate m moves) :
    ∃ k', c.atMove m s (some k) v = ⟨c.value k', some k'⟩ ∧ k'.landmarks = k.landmarks ∧
      k'.Accurate m (moves ++ [v]) := by
  refine ⟨_, rfl, rfl, ⟨(IdSet.width_foldl_insert ..).trans hk.width, fun id => ?_⟩⟩
  have hlt : id ∈ k.landmarks → id < k.achieved.width := fun hid => hk.width ▸ IdSet.lt_width_of_mem hid
  rw [IdSet.mem_inter, IdSet.mem_foldl_insert, h.meetsId_snoc hw hv, hk.achieved]
  tauto

/-- What a counter says at the end of a path, when it goes along from an estimate of where the path begins. -/
def follow (c : LandmarkCount α) (m : Model) (s : Situation) (e : Estimate α) : List Move → Estimate α
  | [] => e
  | v :: rest => c.follow m v.next (c.atMove m s e.marks v) rest

/-- **Marks stay accurate along any path.** -/
theorem accurate_follow (hw : m.WellFormed) (hbefore : Path m m.start before s) (h : Path m s moves t)
    (hk : k.Accurate m before) :
    ∃ k', c.follow m s ⟨c.value k, some k⟩ moves = ⟨c.value k', some k'⟩ ∧ k'.landmarks = k.landmarks ∧
      k'.Accurate m (before ++ moves) := by
  induction h generalizing before k with
  | stay => exact ⟨k, rfl, rfl, (List.append_nil before).symm ▸ hk⟩
  | @step s t v rest first _ ih =>
    obtain ⟨k₁, hmove, hsame, hk₁⟩ := accurate_atMove (c := c) hw hbefore first hk
    obtain ⟨k₂, hrest, hsame₂, hk₂⟩ := ih (hbefore.snoc first) hk₁
    refine ⟨k₂, ?_, hsame₂.trans hsame, by rwa [List.append_assoc] at hk₂⟩
    rw [follow, hmove, hrest]

end LandmarkCount

end HierPlan
