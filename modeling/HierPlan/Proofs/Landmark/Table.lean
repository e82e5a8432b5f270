import HierPlan.Landmark.Table
import HierPlan.Proofs.Graph.Worklist
import Mathlib.Data.Nat.Cast.Basic

/-!
# Proofs/Landmark/Table — entries shrink

    table at the start ⊇ … ⊇ table ⊇ next ⊇ …          reached ⊆ … ⊆ reached ⊆ next ⊆ …

From the start on, entries only shrink and more is only ever reached (`LandmarkTable.Descends`, kept by
`Descends.put`), so every change takes something off its node (`Descends.slack_put_lt`) and nothing off any other.
-/

namespace HierPlan

/-! ## Counting members -/

namespace IdSet

theorem count_le_width (s : IdSet) : s.count ≤ s.width := by
  refine (List.length_filter_le _ _).trans ?_
  rw [List.length_range]

/-- A smaller set of the same width lists fewer members. -/
theorem sublist_of_subset {s t : IdSet} (hw : s.width = t.width) (h : ∀ i ∈ s, i ∈ t) :
    s.toList.Sublist t.toList := by
  rw [toList, toList, hw]
  exact List.monotone_filter_right _ fun i hi => h i hi

theorem count_le_of_subset {s t : IdSet} (hw : s.width = t.width) (h : ∀ i ∈ s, i ∈ t) :
    s.count ≤ t.count := (sublist_of_subset hw h).length_le

/-- **A properly smaller set counts less.** -/
theorem count_lt_of_subset {s t : IdSet} (hw : s.width = t.width) (h : ∀ i ∈ s, i ∈ t) (hne : s ≠ t) :
    s.count < t.count := by
  refine Nat.lt_of_le_of_ne (count_le_of_subset hw h) fun he => hne (ext hw fun i => ?_)
  have hlist := (sublist_of_subset hw h).eq_of_length he
  rw [← mem_toList, hlist, mem_toList]

end IdSet

namespace LandmarkTable

variable {g : AndOrGraph} {t t' : LandmarkTable} {id : Nat}

/-! ## What an evaluation holds -/

theorem mem_foldl_inter {t : LandmarkTable} {ps : List Nat} {s : IdSet} {i : Nat} :
    i ∈ ps.foldl (fun acc q => acc.inter (t.entry q)) s ↔ i ∈ s ∧ ∀ p ∈ ps, i ∈ t.entry p := by
  induction ps generalizing s with
  | nil => simp
  | cons p ps ih =>
    rw [List.foldl_cons, ih, IdSet.mem_inter, List.forall_mem_cons, and_assoc]

theorem width_foldl_inter {t : LandmarkTable} {ps : List Nat} {s : IdSet} :
    (ps.foldl (fun acc q => acc.inter (t.entry q)) s).width = s.width := by
  induction ps generalizing s with
  | nil => rfl
  | cons p ps ih => rw [List.foldl_cons, ih, IdSet.width_inter]

theorem mem_foldl_union {t : LandmarkTable} {ps : List Nat} {s : IdSet} {i : Nat} :
    i ∈ ps.foldl (fun acc q => acc.union (t.entry q)) s ↔
      i ∈ s ∨ (i < s.width ∧ ∃ p ∈ ps, i ∈ t.entry p) := by
  induction ps generalizing s with
  | nil => simp
  | cons p ps ih =>
    rw [List.foldl_cons, ih, IdSet.mem_union, IdSet.width_union, List.exists_mem_cons_iff]
    tauto

theorem width_foldl_union {t : LandmarkTable} {ps : List Nat} {s : IdSet} :
    (ps.foldl (fun acc q => acc.union (t.entry q)) s).width = s.width := by
  induction ps generalizing s with
  | nil => rfl
  | cons p ps ih => rw [List.foldl_cons, ih, IdSet.width_union]

/-- **The meet of some predecessors is there once one is reached, and holds what the entries of all
reached ones hold.** -/
theorem meet?_eq_some {ps : List Nat} {s : IdSet} (h : t.meet? ps = some s) :
    (∃ p ∈ ps, t.isReached p = true) ∧
      ∀ i, i ∈ s ↔ ∀ p ∈ ps, t.isReached p = true → i ∈ t.entry p := by
  unfold meet? at h
  split at h
  · cases h
  · rename_i p rest hf
    have hp : p ∈ ps ∧ t.isReached p = true := List.mem_filter.mp (hf ▸ List.mem_cons_self)
    refine ⟨⟨p, hp⟩, fun i => ?_⟩
    rw [← Option.some.inj h, mem_foldl_inter,
      ← List.forall_mem_cons (p := fun q => i ∈ t.entry q), ← hf]
    simp only [List.mem_filter, and_imp]

theorem isSome_meet? {ps : List Nat} (h : ∃ p ∈ ps, t.isReached p = true) :
    (t.meet? ps).isSome = true := by
  obtain ⟨p, hp, hr⟩ := h
  unfold meet?
  split
  · rename_i hf
    exact absurd (hf ▸ List.mem_filter.mpr ⟨hp, hr⟩) List.not_mem_nil
  · rfl

/-- **The join of some predecessors is there once all are reached, and holds what any of their
entries holds.** -/
theorem join?_eq_some {ps : List Nat} {s : IdSet} (h : t.join? ps = some s) :
    (∀ p ∈ ps, t.isReached p = true) ∧
      ∀ i, i ∈ s ↔ i < t.width ∧ ∃ p ∈ ps, i ∈ t.entry p := by
  unfold join? at h
  split at h
  · rename_i hall
    refine ⟨List.all_eq_true.mp hall, fun i => ?_⟩
    rw [← Option.some.inj h, mem_foldl_union, IdSet.width_empty]
    simp
  · cases h

theorem isSome_join? {ps : List Nat} (h : ∀ p ∈ ps, t.isReached p = true) :
    (t.join? ps).isSome = true := by
  rw [join?, if_pos (List.all_eq_true.mpr h)]
  rfl

/-- What the predecessors of a node hold together, by its rule. -/
def below? (t : LandmarkTable) (n : GraphNode) : Option IdSet :=
  match n.rule with
  | .given => some (.empty t.width)
  | .any => t.meet? n.predecessors
  | .all => t.join? n.predecessors

theorem evaluate_eq (t : LandmarkTable) (g : AndOrGraph) (id : Nat) :
    t.evaluate g id = (g.node? id).bind fun n => (t.below? n).map (·.insert id) := by
  unfold evaluate
  cases g.node? id with
  | none => rfl
  | some n =>
    simp only [Option.bind_eq_bind, Option.bind_some, below?]
    cases n.rule <;> simp [Option.map_eq_bind]

theorem exists_of_evaluate {e : IdSet} (h : t.evaluate g id = some e) :
    ∃ n b, g.node? id = some n ∧ t.below? n = some b ∧ e = b.insert id := by
  rw [evaluate_eq] at h
  obtain ⟨n, hn, h⟩ := Option.bind_eq_some_iff.mp h
  obtain ⟨b, hb, rfl⟩ := Option.map_eq_some_iff.mp h
  exact ⟨n, b, hn, hb, rfl⟩

/-! ## One table below another -/

/-- Smaller entries, and more reached. -/
structure Below (t' t : LandmarkTable) : Prop where
  width : t'.width = t.width
  reached : ∀ id, t.isReached id = true → t'.isReached id = true
  entry : ∀ id i, i ∈ t'.entry id → i ∈ t.entry id

theorem Below.below? (h : Below t' t) {n : GraphNode} {b : IdSet} (hb : t.below? n = some b) :
    ∃ b', t'.below? n = some b' ∧ ∀ i ∈ b', i ∈ b := by
  unfold LandmarkTable.below? at hb ⊢
  cases hr : n.rule with
  | given =>
    rw [hr] at hb
    refine ⟨.empty t'.width, rfl, fun i hi => absurd hi IdSet.not_mem_empty⟩
  | any =>
    rw [hr] at hb
    obtain ⟨⟨p, hp, hreach⟩, hmem⟩ := meet?_eq_some hb
    obtain ⟨b', hb'⟩ := Option.isSome_iff_exists.mp
      (isSome_meet? ⟨p, hp, h.reached p hreach⟩)
    refine ⟨b', hb', fun i hi => (hmem i).mpr fun q hq hqr => ?_⟩
    exact h.entry q i (((meet?_eq_some hb').2 i).mp hi q hq (h.reached q hqr))
  | all =>
    rw [hr] at hb
    obtain ⟨hall, hmem⟩ := join?_eq_some hb
    obtain ⟨b', hb'⟩ := Option.isSome_iff_exists.mp
      (isSome_join? fun p hp => h.reached p (hall p hp))
    refine ⟨b', hb', fun i hi => (hmem i).mpr ?_⟩
    obtain ⟨hlt, q, hq, hin⟩ := ((join?_eq_some hb').2 i).mp hi
    exact ⟨h.width ▸ hlt, q, hq, h.entry q i hin⟩

/-- **A table below another evaluates below it.** -/
theorem Below.evaluate (h : Below t' t) {e : IdSet} (he : t.evaluate g id = some e)
    (hid : id < e.width) : ∃ e', t'.evaluate g id = some e' ∧ ∀ i ∈ e', i ∈ e := by
  obtain ⟨n, b, hn, hb, rfl⟩ := exists_of_evaluate he
  obtain ⟨b', hb', hsub⟩ := h.below? hb
  refine ⟨b'.insert id, by rw [evaluate_eq, hn, Option.bind_some, hb', Option.map_some], ?_⟩
  intro i hi
  rw [IdSet.width_insert] at hid
  rcases IdSet.mem_insert.mp hi with hi | ⟨rfl, -⟩
  · exact IdSet.mem_insert.mpr (.inl (hsub i hi))
  · exact IdSet.mem_insert.mpr (.inr ⟨rfl, hid⟩)

/-! ## Tables that descend -/

/-- A table on the way down from the full one. -/
structure Descends (t : LandmarkTable) (g : AndOrGraph) : Prop where
  size : t.width = g.size
  bound : t.reached.width = g.size
  width : ∀ id, (t.entry id).width = g.size
  /-- What is not reached is as it was at the start. -/
  unreached : ∀ id, t.isReached id = false → t.entry id = (start g).entry id
  /-- What is reached evaluates to no more than its entry. -/
  shrinks : ∀ id, t.isReached id = true →
    ∃ e, t.evaluate g id = some e ∧ ∀ i ∈ e, i ∈ t.entry id

theorem Descends.width_evaluate (h : Descends t g) {e : IdSet} (he : t.evaluate g id = some e) :
    e.width = g.size := by
  obtain ⟨n, b, -, hb, rfl⟩ := exists_of_evaluate he
  rw [IdSet.width_insert]
  unfold below? at hb
  split at hb
  · rw [← Option.some.inj hb, IdSet.width_empty, h.size]
  · unfold meet? at hb
    split at hb
    · cases hb
    · rw [← Option.some.inj hb, width_foldl_inter, h.width]
  · unfold join? at hb
    split at hb
    · rw [← Option.some.inj hb, width_foldl_union, IdSet.width_empty, h.size]
    · cases hb

/-- At the start given nodes hold themselves, and all others everything. -/
theorem entry_start (g : AndOrGraph) (id : Nat) :
    (start g).entry id =
      if (g.node? id).any fun n => n.rule == .given then .ofList g.size [id] else .full g.size := by
  unfold entry start width
  dsimp only
  rw [Array.getElem?_map, Array.size_map, Array.size_range]
  by_cases hid : id < g.size
  · rw [Array.getElem?_range, if_pos hid]
    rfl
  · rw [Array.getElem?_range, if_neg hid, AndOrGraph.node?_eq_none (Nat.le_of_not_lt hid)]
    rfl

/-- The new value of a node is no more than its entry. -/
theorem Descends.evaluate_le (h : Descends t g) {e : IdSet} (he : t.evaluate g id = some e) :
    ∀ i ∈ e, i ∈ t.entry id := by
  cases hr : t.isReached id with
  | true =>
    obtain ⟨e', he', hsub⟩ := h.shrinks id hr
    obtain rfl := Option.some.inj (he.symm.trans he')
    exact hsub
  | false =>
    intro i hi
    have hlt : i < g.size := h.width_evaluate he ▸ IdSet.lt_width_of_mem hi
    rw [h.unreached id hr, entry_start]
    split
    · rename_i hgiven
      obtain ⟨n, b, hn, hb, rfl⟩ := exists_of_evaluate he
      rw [hn, Option.any_some, beq_iff_eq] at hgiven
      -- a given node holds nothing but itself, then as now
      rw [below?, hgiven] at hb
      obtain rfl := Option.some.inj hb
      have hself := (IdSet.mem_insert.mp hi).resolve_left IdSet.not_mem_empty
      exact IdSet.mem_ofList.mpr ⟨List.mem_singleton.mpr hself.1, hlt⟩
    · exact IdSet.mem_full.mpr hlt

theorem lt_size_of_evaluate {e : IdSet} (he : t.evaluate g id = some e) : id < g.size := by
  obtain ⟨n, -, hn, -, -⟩ := exists_of_evaluate he
  exact AndOrGraph.lt_size_of_node? hn

theorem entry_put {e : IdSet} {k : Nat} (hid : id < t.width) :
    (t.put id e).entry k = if k = id then e else t.entry k := by
  unfold entry put width
  dsimp only
  rw [Array.getElem?_setIfInBounds, Array.size_setIfInBounds]
  by_cases hk : k = id
  · subst hk
    simp [show k < t.entries.size from hid]
  · rw [if_neg (Ne.symm hk), if_neg hk]

theorem isReached_put {e : IdSet} {k : Nat} (hid : id < t.reached.width) :
    (t.put id e).isReached k = true ↔ t.isReached k = true ∨ k = id := by
  change k ∈ t.reached.insert id ↔ k ∈ t.reached ∨ k = id
  rw [IdSet.mem_insert]
  simp [hid]

/-- Putting in a smaller value leads below. -/
theorem Descends.below_put (h : Descends t g) {e : IdSet} (he : t.evaluate g id = some e) :
    Below (t.put id e) t := by
  have hid := lt_size_of_evaluate he
  refine ⟨Array.size_setIfInBounds .., fun k hk => ?_, fun k i hi => ?_⟩
  · exact (isReached_put (h.bound ▸ hid)).mpr (.inl hk)
  · rw [entry_put (h.size ▸ hid)] at hi
    split at hi
    · rename_i hk
      exact hk ▸ h.evaluate_le he i hi
    · exact hi

/-- **Recomputing a node keeps the descent.** -/
theorem Descends.put (h : Descends t g) {e : IdSet} (he : t.evaluate g id = some e) :
    Descends (t.put id e) g := by
  have hid := lt_size_of_evaluate he
  have hbelow := h.below_put he
  refine ⟨hbelow.width.trans h.size, (IdSet.width_insert ..).trans h.bound, fun k => ?_,
    fun k hk => ?_, fun k hk => ?_⟩
  · rw [entry_put (h.size ▸ hid)]
    split
    · exact h.width_evaluate he
    · exact h.width k
  · have hnot : ¬ (t.isReached k = true ∨ k = id) := fun hor => by
      rw [(isReached_put (h.bound ▸ hid)).mpr hor] at hk
      cases hk
    rw [not_or, Bool.not_eq_true] at hnot
    rw [entry_put (h.size ▸ hid), if_neg hnot.2, h.unreached k hnot.1]
  · rw [entry_put (h.size ▸ hid)]
    by_cases hki : k = id
    · subst hki
      obtain ⟨e', he', hsub⟩ := hbelow.evaluate he (h.width_evaluate he ▸ hid)
      rw [if_pos rfl]
      exact ⟨e', he', hsub⟩
    · have hold : t.isReached k = true :=
        ((isReached_put (h.bound ▸ hid)).mp hk).resolve_right hki
      obtain ⟨e₀, he₀, hsub₀⟩ := h.shrinks k hold
      obtain ⟨e', he', hsub⟩ :=
        hbelow.evaluate he₀ (h.width_evaluate he₀ ▸ lt_size_of_evaluate he₀)
      rw [if_neg hki]
      exact ⟨e', he', fun i hi => hsub₀ i (hsub i hi)⟩

/-- The table of the start descends from itself. -/
theorem descends_start (g : AndOrGraph) : Descends (.start g) g := by
  have hreach : ∀ id, (start g).isReached id = false := fun id => Bool.eq_false_iff.mpr IdSet.not_mem_empty
  refine ⟨by simp [width, start], rfl, fun id => ?_, fun id _ => rfl, fun id h => ?_⟩
  · rw [entry_start]
    split
    · exact IdSet.width_ofList ..
    · exact IdSet.width_full _
  · rw [hreach] at h
    cases h

/-! ## Changes -/

/-- Recomputing a node changes nothing. -/
def Quiet (t : LandmarkTable) (g : AndOrGraph) (id : Nat) : Prop :=
  ∀ e, t.evaluate g id = some e → t.isReached id = true ∧ e = t.entry id

/-- Recomputing any node changes nothing. -/
def Settled (t : LandmarkTable) (g : AndOrGraph) : Prop := ∀ id, t.Quiet g id

theorem revise_cases (t : LandmarkTable) (g : AndOrGraph) (id : Nat) :
    (t.revise g id = (t, false) ∧ t.Quiet g id) ∨
      ∃ e, t.evaluate g id = some e ∧ (t.isReached id = true → e ≠ t.entry id) ∧
        t.revise g id = (t.put id e, true) := by
  unfold revise
  split
  · rename_i hnone
    refine .inl ⟨rfl, fun e he => ?_⟩
    rw [hnone] at he
    cases he
  · rename_i next hnext
    split
    · rename_i hsame
      rw [Bool.and_eq_true, decide_eq_true_iff] at hsame
      refine .inl ⟨rfl, fun e he => ?_⟩
      obtain rfl := Option.some.inj (hnext.symm.trans he)
      exact hsame
    · rename_i hdiff
      refine .inr ⟨next, hnext, fun hr he => hdiff ?_, rfl⟩
      rw [hr, decide_eq_true he]
      rfl

/-- How much can still be taken out of an entry, or reached. -/
def slack (t : LandmarkTable) (id : Nat) : Nat := (t.entry id).count + if t.isReached id = true then 0 else 1

theorem Descends.slack_le (h : Descends t g) (id : Nat) : t.slack id ≤ g.size + 1 := by
  refine Nat.add_le_add ((IdSet.count_le_width _).trans_eq (h.width id)) ?_
  split
  exacts [Nat.zero_le 1, le_rfl]

/-- **A change takes something off.** -/
theorem Descends.slack_put_lt (h : Descends t g) {e : IdSet} (he : t.evaluate g id = some e)
    (hne : t.isReached id = true → e ≠ t.entry id) : (t.put id e).slack id < t.slack id := by
  have hid := lt_size_of_evaluate he
  have hw : e.width = (t.entry id).width := (h.width_evaluate he).trans (h.width id).symm
  unfold slack
  rw [entry_put (h.size ▸ hid), if_pos rfl, if_pos ((isReached_put (h.bound ▸ hid)).mpr (.inr rfl)), Nat.add_zero]
  split
  · rename_i hr
    exact IdSet.count_lt_of_subset hw (h.evaluate_le he) (hne hr)
  · exact Nat.lt_succ_of_le (IdSet.count_le_of_subset hw (h.evaluate_le he))

section Elsewhere

variable {e : IdSet} {k : Nat} (hk : k ≠ id)
include hk

/-! A change is seen nowhere else. -/

theorem entry_put_of_ne : (t.put id e).entry k = t.entry k := by
  unfold entry put width
  dsimp only
  rw [Array.getElem?_setIfInBounds, if_neg (Ne.symm hk), Array.size_setIfInBounds]

theorem isReached_put_of_ne : (t.put id e).isReached k = t.isReached k := by
  refine Bool.eq_iff_iff.mpr ?_
  change k ∈ t.reached.insert id ↔ k ∈ t.reached
  rw [IdSet.mem_insert]
  exact or_iff_left fun h => hk h.1

theorem slack_put_of_ne : (t.put id e).slack k = t.slack k := by
  rw [slack, slack, entry_put_of_ne hk, isReached_put_of_ne hk]

end Elsewhere

/-- What predecessors hold together depends on their entries, and on which of them are reached. -/
theorem below?_congr {n : GraphNode} (hwidth : t'.width = t.width)
    (hreached : ∀ p ∈ n.predecessors, t'.isReached p = t.isReached p)
    (hentry : ∀ p ∈ n.predecessors, t'.entry p = t.entry p) : t'.below? n = t.below? n := by
  unfold below?
  cases n.rule with
  | given => exact congrArg (fun w => some (IdSet.empty w)) hwidth
  | any =>
    have hfilter : n.predecessors.filter t'.isReached = n.predecessors.filter t.isReached := List.filter_congr hreached
    change t'.meet? n.predecessors = t.meet? n.predecessors
    unfold meet?
    rw [hfilter]
    split
    · rfl
    · rename_i p rest hf
      have hin : ∀ q ∈ p :: rest, t'.entry q = t.entry q := fun q hq =>
        hentry q (List.mem_of_mem_filter (hf ▸ hq))
      obtain ⟨hp, hrest⟩ := List.forall_mem_cons.mp hin
      rw [hp]
      exact congrArg some (List.foldl_ext _ _ _ fun s q hq => by rw [hrest q hq])
  | all =>
    have hall : n.predecessors.all t'.isReached = n.predecessors.all t.isReached := by
      rw [Bool.eq_iff_iff, List.all_eq_true, List.all_eq_true]
      exact forall₂_congr fun p hp => by rw [hreached p hp]
    change t'.join? n.predecessors = t.join? n.predecessors
    unfold join?
    rw [hall, hwidth, List.foldl_ext _ _ _ fun s q hq => by rw [hentry q hq]]

/-- **A change is seen by what it feeds alone.** -/
theorem evaluate_put {e : IdSet} {k : Nat} {n : GraphNode} (here : g.node? k = some n) (hnot : id ∉ n.predecessors) :
    (t.put id e).evaluate g k = t.evaluate g k := by
  have hne : ∀ p ∈ n.predecessors, p ≠ id := fun p hp he => hnot (he ▸ hp)
  have hbelow : (t.put id e).below? n = t.below? n := below?_congr (Array.size_setIfInBounds ..)
    (fun p hp => isReached_put_of_ne (hne p hp)) fun p hp => entry_put_of_ne (hne p hp)
  rw [evaluate_eq, evaluate_eq, here, Option.bind_some, Option.bind_some, hbelow]

/-! ## Changes in any order -/

/-- The tables that so many changes lead to, one node at a time and in any order. -/
inductive Recomputed (g : AndOrGraph) : Nat → LandmarkTable → Prop where
  | start : Recomputed g 0 (.start g)
  | change {k id : Nat} {t : LandmarkTable} {e : IdSet} (before : Recomputed g k t)
      (value : t.evaluate g id = some e) (new : t.isReached id = true → e ≠ t.entry id) :
      Recomputed g (k + 1) (t.put id e)

namespace Recomputed

variable {k : Nat}

theorem descends (h : Recomputed g k t) : t.Descends g := by
  induction h with
  | start => exact descends_start g
  | change _ value _ ih => exact ih.put value

/-- **No order changes a table more often than this.** -/
theorem le_size (h : Recomputed g k t) : k ≤ g.size * (g.size + 1) := by
  suffices ((List.range g.size).map t.slack).sum + k ≤ g.size * (g.size + 1) from (Nat.le_add_left ..).trans this
  induction h with
  | start =>
    have hterm : ∀ x ∈ (List.range g.size).map (LandmarkTable.start g).slack, x ≤ g.size + 1 := by
      intro x hx
      obtain ⟨id, -, rfl⟩ := List.mem_map.mp hx
      exact (descends_start g).slack_le id
    have hsum := List.sum_le_card_nsmul _ _ hterm
    rwa [List.length_map, List.length_range, nsmul_eq_mul, Nat.cast_id] at hsum
  | @change j id t e before value new ih =>
    have hless := sum_add_le_sum (f := (t.put id e).slack) (g := t.slack) (w := 1) (lt_size_of_evaluate value)
      (Nat.succ_le_of_lt (before.descends.slack_put_lt value new)) fun k hk => (slack_put_of_ne hk).le
    omega

end Recomputed

end LandmarkTable

end HierPlan
