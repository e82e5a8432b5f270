import HierPlan.Graph.Derivation
import HierPlan.Proofs.Landmark.Worklist

/-!
# Proofs/Landmark/Fixpoint — an entry holds what no derivation can do without

    n ∈ entry of id   ↔   n = id,  or  id has no derivation once n is taken out

Two halves.  A settled table gives a node no more than its predecessors have to have, so its entries miss
whatever some derivation avoids (`LandmarkTable.Settled.closedWithin`).  Recomputing a node takes out only what
some derivation avoids, so nothing else is ever missed (`LandmarkTable.Recomputed.derivable`).

**Hence a settled table is exact, in whatever order it was recomputed**: there is one such table, and no order needs
more than `n · (n + 1)` changes to come to it.  The queue comes to it, in every view of every problem
(`AndOrGraph.propagate_exact`).
-/

namespace HierPlan

/-! ## Derivable nodes -/

namespace AndOrGraph

variable {g : AndOrGraph}

/-- **The derivable nodes are the least set that is closed under the rules.** -/
theorem closed_derivable (g : AndOrGraph) :
    g.Closed g.Derivable ∧ ∀ K, g.Closed K → ∀ id, g.Derivable id → K id :=
  ⟨⟨fun _ _ => derivable_given, fun _ _ here rule _ => derivable_any here rule,
    fun _ _ => derivable_all⟩,
    fun _ hK _ => derivable_of_closed hK.given hK.any hK.all⟩

/-- A graph without one slot holds what it held, except there. -/
theorem node?_without {k id : Nat} (h : id ≠ k) : (g.without k).node? id = g.node? id := by
  unfold node? without
  rw [Array.getElem?_setIfInBounds, if_neg (Ne.symm h)]

theorem node?_without_self (g : AndOrGraph) (k : Nat) : (g.without k).node? k = none := by
  unfold node? without
  rw [Array.getElem?_setIfInBounds, if_pos rfl]
  split <;> rfl

/-- What stands in a graph without one slot stood there before, and not in that slot. -/
theorem of_node?_without {k id : Nat} {n : GraphNode} (h : (g.without k).node? id = some n) :
    id ≠ k ∧ g.node? id = some n := by
  by_cases hid : id = k
  · rw [hid, node?_without_self] at h
    cases h
  · exact ⟨hid, node?_without hid ▸ h⟩

/-- There is nothing to take out past the slots. -/
theorem without_size (g : AndOrGraph) : g.without g.size = g := by
  unfold without size
  rw [Array.setIfInBounds_eq_of_size_le (Nat.le_refl _)]

/-- What is closed everywhere but in one slot is closed once that slot is emptied. -/
theorem ClosedWithin.without {k : Nat} {K : Nat → Prop} (h : g.ClosedWithin (· ≠ k) K) :
    (g.without k).Closed K where
  given id n here rule := have ⟨hid, hn⟩ := of_node?_without here; h.given id n hn rule hid
  any id n here rule := have ⟨hid, hn⟩ := of_node?_without here; h.any id n hn rule hid
  all id n here rule := have ⟨hid, hn⟩ := of_node?_without here; h.all id n hn rule hid

end AndOrGraph

namespace LandmarkTable

variable {g : AndOrGraph} {t t' : LandmarkTable} {id n : Nat}

/-! ## Settled tables -/

/-- Reached, with nothing but `S` in the entry. -/
def Within (t : LandmarkTable) (S : Nat → Prop) (id : Nat) : Prop :=
  t.isReached id = true ∧ ∀ i ∈ t.entry id, S i

/-- A settled table holds for a node what its predecessors say. -/
theorem Settled.entry_eq (hs : t.Settled g) {n : GraphNode} {b : IdSet} (here : g.node? id = some n)
    (below : t.below? n = some b) : t.isReached id = true ∧ t.entry id = b.insert id := by
  have hvalue : t.evaluate g id = some (b.insert id) := by
    rw [evaluate_eq, here, Option.bind_some, below, Option.map_some]
  obtain ⟨hreached, hentry⟩ := hs id _ hvalue
  exact ⟨hreached, hentry.symm⟩

/-- **In a settled table the nodes whose entries stay within `S` are closed under the rules, as far as `S`
goes.** -/
theorem Settled.closedWithin (hs : t.Settled g) (S : Nat → Prop) : g.ClosedWithin S (t.Within S) := by
  have within : ∀ {id : Nat} {n : GraphNode} {b : IdSet}, g.node? id = some n → t.below? n = some b →
      S id → (∀ i ∈ b, S i) → t.Within S id := by
    intro id n b here below hid hb
    obtain ⟨hreached, hentry⟩ := hs.entry_eq here below
    refine ⟨hreached, fun i hi => ?_⟩
    rw [hentry, IdSet.mem_insert] at hi
    obtain hi | ⟨rfl, -⟩ := hi
    exacts [hb i hi, hid]
  refine ⟨fun id n here rule hid => ?_, fun id n here rule hid p hp hin => ?_,
    fun id n here rule hid hin => ?_⟩
  · have below : t.below? n = some (.empty t.width) := by rw [below?, rule]
    exact within here below hid fun i hi => absurd hi IdSet.not_mem_empty
  · obtain ⟨b, hb⟩ := Option.isSome_iff_exists.mp (isSome_meet? ⟨p, hp, hin.1⟩)
    have below : t.below? n = some b := by rw [below?, rule]; exact hb
    exact within here below hid fun i hi => hin.2 i (((meet?_eq_some hb).2 i).mp hi p hp hin.1)
  · obtain ⟨b, hb⟩ := Option.isSome_iff_exists.mp (isSome_join? fun p hp => (hin p hp).1)
    have below : t.below? n = some b := by rw [below?, rule]; exact hb
    refine within here below hid fun i hi => ?_
    obtain ⟨-, p, hp, hip⟩ := ((join?_eq_some hb).2 i).mp hi
    exact (hin p hp).2 i hip

/-- A settled table reaches what can be derived around a node, and keeps that node out of its entry. -/
theorem Settled.within_of_derivable (hs : t.Settled g) (h : (g.without n).Derivable id) :
    t.Within (· ≠ n) id :=
  (AndOrGraph.closed_derivable _).2 _ (hs.closedWithin (· ≠ n)).without id h

/-- Sweeping a settled table changes nothing. -/
theorem Settled.sweep_eq (hs : t.Settled g) : t.sweep g = (t, 0) := by
  unfold sweep
  induction g.ids with
  | nil => rfl
  | cons id ids ih =>
    obtain ⟨hr, -⟩ | ⟨e, he, hne, -⟩ := revise_cases t g id
    · rw [List.foldl_cons]
      dsimp only
      rw [hr]
      exact ih
    · obtain ⟨hreached, hentry⟩ := hs id e he
      exact absurd hentry (hne hreached)

/-- A settled table keeps the entries of unreached nodes full. -/
theorem Settled.entry_eq_full (hs : t.Settled g) (hd : t.Descends g) (hnot : t.isReached id = false) :
    t.entry id = .full g.size := by
  rw [hd.unreached id hnot, entry_start]
  refine if_neg fun hgiven => ?_
  obtain ⟨n, here, rule⟩ := (Option.any_eq_true _ _).mp hgiven
  have below : t.below? n = some (.empty t.width) := by rw [below?, eq_of_beq rule]
  rw [(hs.entry_eq here below).1] at hnot
  cases hnot

/-! ## Recomputed in any order -/

namespace Recomputed

variable {k : Nat}

/-- What a node's predecessors leave out, some derivation of the node avoids, if the same holds of them. -/
theorem derivable_of_below {n : GraphNode} {b : IdSet} {i : Nat} (hd : t.Descends g)
    (avoids : ∀ p, t.isReached p = true → i ∉ t.entry p → (g.without i).Derivable p)
    (here : g.node? id = some n) (hne : id ≠ i) (below : t.below? n = some b) (hi : i ∉ b) :
    (g.without i).Derivable id := by
  have here' := (AndOrGraph.node?_without hne).trans here
  cases rule : n.rule with
  | given => exact AndOrGraph.derivable_given here' rule
  | any =>
    rw [below?, rule] at below
    have hnot := mt ((meet?_eq_some below).2 i).mpr hi
    push Not at hnot
    obtain ⟨p, hp, hreached, hip⟩ := hnot
    exact AndOrGraph.derivable_any here' rule hp (avoids p hreached hip)
  | all =>
    rw [below?, rule] at below
    obtain ⟨hreached, hmem⟩ := join?_eq_some below
    refine AndOrGraph.derivable_all here' rule fun p hp => avoids p (hreached p hp) fun hip => ?_
    have hlt : i < t.width := hd.size ▸ hd.width p ▸ IdSet.lt_width_of_mem hip
    exact hi ((hmem i).mpr ⟨hlt, p, hp, hip⟩)

/-- **Whatever is missing from the entry of a reached node, some derivation of the node avoids.** -/
theorem derivable (h : Recomputed g k t) {i : Nat} (hreached : t.isReached id = true)
    (hi : i ∉ t.entry id) : (g.without i).Derivable id := by
  induction h generalizing id with
  | start => exact absurd hreached IdSet.not_mem_empty
  | @change k j t e before value _ ih =>
    have hd := before.descends
    have hj := lt_size_of_evaluate value
    rw [entry_put (hd.size ▸ hj)] at hi
    rw [isReached_put (hd.bound ▸ hj)] at hreached
    by_cases hid : id = j
    · subst hid
      rw [if_pos rfl] at hi
      obtain ⟨n, b, here, below, rfl⟩ := exists_of_evaluate value
      have hwidth := hd.width_evaluate value
      rw [IdSet.width_insert] at hwidth
      rw [IdSet.mem_insert, not_or] at hi
      exact derivable_of_below hd (fun p => ih) here (fun he => hi.2 ⟨he.symm, hwidth ▸ hj⟩) below hi.1
    · rw [if_neg hid] at hi
      exact ih (hreached.resolve_right hid) hi

/-! ## Settled, however recomputed -/

variable (h : Recomputed g k t) (hs : t.Settled g)

include h hs

/-- **A settled table reaches exactly what is derivable.** -/
theorem isReached_iff : t.isReached id = true ↔ g.Derivable id := by
  rw [← AndOrGraph.without_size g]
  refine ⟨fun hreached => h.derivable hreached fun hi => ?_, fun hid => (hs.within_of_derivable hid).1⟩
  exact Nat.lt_irrefl _ (h.descends.width id ▸ IdSet.lt_width_of_mem hi)

/-- A settled table holds every reached node in its own entry. -/
theorem mem_entry_self (hreached : t.isReached id = true) : id ∈ t.entry id := by
  obtain ⟨e, he, -⟩ := h.descends.shrinks id hreached
  have hwidth := h.descends.width_evaluate he
  obtain ⟨-, rfl⟩ := hs id e he
  obtain ⟨n, b, -, -, hb⟩ := exists_of_evaluate he
  rw [hb, IdSet.mem_insert]
  rw [hb, IdSet.width_insert] at hwidth
  exact .inr ⟨rfl, hwidth ▸ lt_size_of_evaluate he⟩

/-- **An entry of a settled table holds the node itself and whatever no derivation of it avoids.** -/
theorem mem_entry_iff (hreached : t.isReached id = true) :
    n ∈ t.entry id ↔ n = id ∨ ¬ (g.without n).Derivable id := by
  constructor
  · intro hn
    refine or_iff_not_imp_left.mpr fun hne hid => ?_
    exact (hs.within_of_derivable hid).2 n hn rfl
  · rintro (rfl | hnot)
    · exact h.mem_entry_self hs hreached
    · by_contra hn
      exact hnot (h.derivable hreached hn)

/-- **There is one settled table.** -/
theorem eq_of_settled {k' : Nat} (h' : Recomputed g k' t') (hs' : t'.Settled g) : t = t' := by
  have hd := h.descends
  have hd' := h'.descends
  have hreached : ∀ id, t.isReached id = t'.isReached id := fun id =>
    Bool.eq_iff_iff.mpr ((h.isReached_iff hs).trans (h'.isReached_iff hs').symm)
  have hentry : ∀ id, t.entry id = t'.entry id := by
    intro id
    cases hr : t.isReached id with
    | false => rw [hd.unreached id hr, hd'.unreached id (hreached id ▸ hr)]
    | true =>
      refine IdSet.ext ((hd.width id).trans (hd'.width id).symm) fun n => ?_
      rw [h.mem_entry_iff hs hr, h'.mem_entry_iff hs' (hreached id ▸ hr)]
  have hsize : t.entries.size = t'.entries.size := hd.size.trans hd'.size.symm
  have hentries : t.entries = t'.entries := by
    refine Array.ext hsize fun id hid hid' => ?_
    have hid := hentry id
    unfold entry at hid
    rwa [Array.getElem?_eq_getElem ‹_›, Array.getElem?_eq_getElem ‹_›] at hid
  have hset : t.reached = t'.reached :=
    IdSet.ext (hd.bound.trans hd'.bound.symm) fun id => Bool.eq_iff_iff.mp (hreached id)
  cases t
  cases t'
  exact congr (congrArg mk hentries) hset

end Recomputed

end LandmarkTable

/-- The queue leaves a table that reaches what is derivable. -/
theorem AndOrGraph.Mirrored.isReached_iff {g : AndOrGraph} (hg : g.Mirrored) {id : Nat} :
    g.propagate.isReached id = true ↔ g.Derivable id :=
  have ⟨_, hk⟩ := hg.recomputed
  hk.isReached_iff hg.settled

/-- **The landmark table of a graph is exact.**  The queue of nodes runs dry on it, and takes no further turns.  It
reaches the least set that is closed under the rules; the entry of a reached node holds the node itself and every node
without which it would not be in that set; entries of other nodes stay full; and one more sweep changes nothing.  In
any other order of recomputing nodes there are no more than `n · (n + 1)` changes, and once none is left this is the
table. -/
theorem AndOrGraph.propagate_exact (m : Model) (v : View) :
    (∀ turns, (v.graph m).turnBound ((v.graph m).size + 1) ≤ turns →
      ((v.graph m).landmarkRun turns).queue = [] ∧ ((v.graph m).landmarkRun turns).table = (v.graph m).propagate) ∧
    ((v.graph m).Closed (fun id => (v.graph m).propagate.isReached id = true) ∧
      ∀ K, (v.graph m).Closed K → ∀ id, (v.graph m).propagate.isReached id = true → K id) ∧
    (∀ id, (v.graph m).propagate.isReached id = true ↔ (v.graph m).Derivable id) ∧
    (∀ id, (v.graph m).propagate.isReached id = true → ∀ n < (v.graph m).propagate.width,
      (n ∈ (v.graph m).propagate.entry id ↔ n = id ∨ ¬ ((v.graph m).without n).Derivable id)) ∧
    (∀ id, (v.graph m).propagate.isReached id = false →
      (v.graph m).propagate.entry id = .full (v.graph m).propagate.width) ∧
    (v.graph m).propagate.sweep (v.graph m) = ((v.graph m).propagate, 0) ∧
    ∀ k t, LandmarkTable.Recomputed (v.graph m) k t →
      k ≤ (v.graph m).size * ((v.graph m).size + 1) ∧ (t.Settled (v.graph m) → t = (v.graph m).propagate) := by
  have hg := v.mirrored m
  have hs := hg.settled
  have hd := hg.descends
  obtain ⟨k, hk⟩ := hg.recomputed
  refine ⟨fun turns hturns => ?_, ⟨hg.closed, fun K hK id hreached => ?_⟩, fun id => hg.isReached_iff,
    fun id hreached n _ => hk.mem_entry_iff hs hreached, fun id hnot => ?_, hs.sweep_eq,
    fun k' t ht => ⟨ht.le_size, fun hst => ht.eq_of_settled hst hk hs⟩⟩
  · obtain ⟨hempty, ⟨j, hj⟩, hsettled⟩ := hg.landmarkRun_spec hturns
    exact ⟨hempty, hj.eq_of_settled hsettled hk hs⟩
  · exact (v.graph m).closed_derivable.2 K hK id (hg.isReached_iff.mp hreached)
  · rw [hs.entry_eq_full hd hnot, hd.size]

end HierPlan
