import HierPlan.Graph.Worklist
import HierPlan.Proofs.Graph.Range
import Mathlib.Algebra.Order.BigOperators.Group.List
import Mathlib.Algebra.Order.Group.Nat
import Mathlib.Data.List.Count
import Mathlib.Data.List.Nodup
import Mathlib.Data.Nat.Cast.Basic

/-!
# Proofs/Graph/Worklist — a queue of nodes runs dry

    a node that does not wait is at rest        slack · arcs + nodes that wait  falls with every turn

Let a revision that changes a table take some slack off its node, and disturb no node that it does not feed
(`Worklist.Calms`).  Then whatever may have been disturbed waits again (`Worklist.Standing.turn`), and the slack that
is taken off pays for the nodes that are put back (`Worklist.Standing.effort_turn_lt`).  **So the queue runs dry, and
leaves a table in which every node is at rest** (`Worklist.Calms.run_ofIds`), whatever the table holds.
-/

namespace HierPlan

/-- A sum grows by as much as one of its terms does, if no other shrinks. -/
theorem sum_add_le_sum {f g : Nat → Nat} {n id w : Nat} (hid : id < n) (hself : f id + w ≤ g id)
    (hother : ∀ k, k ≠ id → f k ≤ g k) : ((List.range n).map f).sum + w ≤ ((List.range n).map g).sum := by
  have hterm : ∀ k ∈ List.range n, f k + (if k = id then w else 0) ≤ g k := by
    intro k _
    by_cases hk : k = id
    · rw [if_pos hk, hk]
      exact hself
    · rw [if_neg hk]
      exact hother k hk
  have hsingle : w ≤ ((List.range n).map fun k => if k = id then w else 0).sum :=
    List.single_le_sum (fun x _ => Nat.zero_le x) _ (List.mem_map.mpr ⟨id, List.mem_range.mpr hid, if_pos rfl⟩)
  calc ((List.range n).map f).sum + w
      ≤ ((List.range n).map f).sum + ((List.range n).map fun k => if k = id then w else 0).sum :=
        Nat.add_le_add_left hsingle _
    _ = ((List.range n).map fun k => f k + if k = id then w else 0).sum := List.sum_map_add.symm
    _ ≤ ((List.range n).map g).sum := List.sum_le_sum hterm

/-- A sum may be added term by term. -/
theorem foldl_add_eq (f : Nat → Nat) (ids : List Nat) (n : Nat) :
    ids.foldl (fun sum id => sum + f id) n = n + (ids.map f).sum := by
  induction ids generalizing n with
  | nil => simp
  | cons id ids ih => rw [List.foldl_cons, ih, List.map_cons, List.sum_cons, Nat.add_assoc]

/-! ## Arcs listed at both ends -/

/-- The arcs of a graph are listed at their sources as well, and lead to its slots. -/
structure AndOrGraph.Mirrored (g : AndOrGraph) : Prop where
  fed : ∀ id n, g.node? id = some n → ∀ p ∈ n.predecessors, id ∈ Worklist.fed g p
  lt_size : ∀ p, ∀ s ∈ Worklist.fed g p, s < g.size

/-- The graph of a problem lists its arcs at both ends. -/
theorem View.mirrored (m : Model) (v : View) : (v.graph m).Mirrored := by
  refine ⟨fun id n hn p hp => ?_, fun p s hs => ?_⟩
  · change id ∈ v.outOf m p
    rw [← List.count_pos_iff, count_outOf, List.count_pos_iff, into, hn]
    exact hp
  · cases hp : (v.graph m).node? p with
    | none =>
      rw [Worklist.fed, hp] at hs
      exact absurd hs List.not_mem_nil
    | some n =>
      rw [Worklist.fed, hp] at hs
      obtain ⟨_, hq⟩ := (AndOrGraph.joined_ofArcs fun _ _ => lt_of_label).successors p n hp s hs
      exact AndOrGraph.lt_size_of_node? hq

namespace Worklist

variable {T : Type} {w : Worklist T} {id k n : Nat} {ids rest : List Nat}

/-! ## Waiting -/

/-- Nodes of the graph wait, each at one place, and the set names the same. -/
structure Lined (w : Worklist T) (n : Nat) : Prop where
  width : w.queued.width = n
  queued : ∀ id, id ∈ w.queued ↔ id ∈ w.queue
  nodup : w.queue.Nodup

/-- A node is put at the back if it does not wait. -/
theorem enqueue_cases (w : Worklist T) (id : Nat) :
    (id ∈ w.queued ∧ w.enqueue id = w) ∨
      (id ∉ w.queued ∧ w.enqueue id = { w with queue := w.queue ++ [id], queued := w.queued.insert id }) := by
  unfold enqueue
  split
  · rename_i hin
    exact .inl ⟨hin, rfl⟩
  · rename_i hnot
    exact .inr ⟨hnot, rfl⟩

theorem Lined.mem_enqueue (h : w.Lined n) : k ∈ (w.enqueue id).queue ↔ k ∈ w.queue ∨ k = id := by
  obtain ⟨hin, he⟩ | ⟨-, he⟩ := w.enqueue_cases id <;> rw [he]
  · exact (or_iff_left_of_imp fun hk => hk ▸ (h.queued id).mp hin).symm
  · rw [List.mem_append, List.mem_singleton]

theorem Lined.enqueue (h : w.Lined n) (hid : id < n) : (w.enqueue id).Lined n := by
  obtain ⟨-, he⟩ | ⟨hnot, he⟩ := w.enqueue_cases id <;> rw [he]
  · exact h
  · refine ⟨(IdSet.width_insert ..).trans h.width, fun k => ?_, ?_⟩
    · rw [IdSet.mem_insert, h.queued, List.mem_append, List.mem_singleton, h.width, and_iff_left hid]
    · rw [h.queued] at hnot
      rw [← List.concat_eq_append]
      exact h.nodup.concat hnot

theorem table_enqueue (w : Worklist T) (id : Nat) : (w.enqueue id).table = w.table := by
  obtain ⟨-, he⟩ | ⟨-, he⟩ := w.enqueue_cases id <;> rw [he]

theorem length_enqueue_le (w : Worklist T) (id : Nat) : (w.enqueue id).queue.length ≤ w.queue.length + 1 := by
  obtain ⟨-, he⟩ | ⟨-, he⟩ := w.enqueue_cases id <;> rw [he]
  · exact Nat.le_succ _
  · rw [List.length_append, List.length_singleton]

/-- **Of some nodes those that do not wait are put at the back.** -/
theorem Lined.enqueueAll (h : w.Lined n) (hids : ∀ id ∈ ids, id < n) :
    (ids.foldl Worklist.enqueue w).Lined n ∧
      (∀ k, k ∈ (ids.foldl Worklist.enqueue w).queue ↔ k ∈ w.queue ∨ k ∈ ids) ∧
      (ids.foldl Worklist.enqueue w).table = w.table ∧
      (ids.foldl Worklist.enqueue w).queue.length ≤ w.queue.length + ids.length := by
  induction ids generalizing w with
  | nil => exact ⟨h, by simp, rfl, le_rfl⟩
  | cons id ids ih =>
    obtain ⟨hid, hids⟩ := List.forall_mem_cons.mp hids
    obtain ⟨hlined, hmem, htable, hlength⟩ := ih (h.enqueue hid) hids
    refine ⟨hlined, fun k => ?_, htable.trans (w.table_enqueue id), ?_⟩
    · rw [List.foldl_cons, hmem, h.mem_enqueue, List.mem_cons, or_assoc]
    · have hone := w.length_enqueue_le id
      rw [List.foldl_cons, List.length_cons]
      omega

/-- What waits behind the front goes on waiting. -/
theorem Lined.popped (h : w.Lined n) (hq : w.queue = id :: rest) : (w.popped id rest).Lined n := by
  have hnodup := h.nodup
  rw [hq, List.nodup_cons] at hnodup
  refine ⟨(IdSet.width_erase ..).trans h.width, fun k => ?_, hnodup.2⟩
  change k ∈ w.queued.erase id ↔ k ∈ rest
  rw [IdSet.mem_erase, h.queued, hq, List.mem_cons]
  constructor
  · exact fun ⟨hk, hne⟩ => hk.resolve_left hne
  · exact fun hk => ⟨.inr hk, fun he => hnodup.1 (he ▸ hk)⟩

theorem lined_ofIds {g : AndOrGraph} (t : T) (hids : ids.Sublist g.ids) : (ofIds g t ids).Lined g.size := by
  refine ⟨IdSet.width_ofList .., fun id => ?_, hids.nodup (List.nodup_range.filter _)⟩
  refine IdSet.mem_ofList.trans (and_iff_left_of_imp fun hid => ?_)
  exact List.mem_range.mp (List.mem_of_mem_filter (hids.subset hid))

/-! ## Revisions that calm a table -/

/-- A revision of a node has taken some slack off it, and disturbed no node that it does not feed. -/
structure Calmer (g : AndOrGraph) (Rest : T → Nat → Prop) (slack : T → Nat → Nat) (t t' : T) (id : Nat) : Prop where
  lt_size : id < g.size
  falls : slack t' id < slack t id
  stays : ∀ k, k ≠ id → slack t' k ≤ slack t k
  rests : ∀ k, k ∉ fed g id → (k ≠ id → Rest t k) → Rest t' k

/-- Of tables that are fine, a revision leaves one that is fine, and is calmer unless its node was at rest. -/
def Calms (revise : T → AndOrGraph → Nat → T × Bool) (g : AndOrGraph) (Fine : T → Prop) (Rest : T → Nat → Prop)
    (slack : T → Nat → Nat) : Prop :=
  ∀ t id, Fine t → (revise t g id = (t, false) ∧ Rest t id) ∨
    ∃ t', revise t g id = (t', true) ∧ Fine t' ∧ Calmer g Rest slack t t' id

section Runs

variable {revise : T → AndOrGraph → Nat → T × Bool} {g : AndOrGraph} {Fine : T → Prop} {Rest : T → Nat → Prop}
  {slack : T → Nat → Nat}

/-- The work that is left after a turn. -/
abbrev turn (revise : T → AndOrGraph → Nat → T × Bool) (g : AndOrGraph) (w : Worklist T) (id : Nat) (rest : List Nat) :
    Worklist T :=
  (w.popped id rest).visit revise g id

/-- What a run keeps true: the table is fine, and what does not wait is at rest. -/
structure Standing (g : AndOrGraph) (Fine : T → Prop) (Rest : T → Nat → Prop) (w : Worklist T) : Prop where
  lined : w.Lined g.size
  fine : Fine w.table
  rests : ∀ id, id ∉ w.queue → Rest w.table id

variable (hcalms : Calms revise g Fine Rest slack) (hg : g.Mirrored)
include hcalms hg

/-- **What a turn does**: the node in front was at rest, or it is revised, and then all that it feeds waits. -/
theorem Standing.turn_cases (h : Standing g Fine Rest w) (hq : w.queue = id :: rest) :
    (w.turn revise g id rest).Lined g.size ∧
      ((Rest w.table id ∧ (w.turn revise g id rest).table = w.table ∧ (w.turn revise g id rest).queue = rest) ∨
        Fine (w.turn revise g id rest).table ∧ Calmer g Rest slack w.table (w.turn revise g id rest).table id ∧
          (∀ k, k ∈ (w.turn revise g id rest).queue ↔ k ∈ rest ∨ k ∈ fed g id) ∧
          (w.turn revise g id rest).queue.length ≤ rest.length + (fed g id).length) := by
  have hpopped := h.lined.popped hq
  unfold turn visit
  obtain ⟨hr, hrest⟩ | ⟨t, hr, hfine, hcalmer⟩ := hcalms w.table id h.fine
  · rw [show (w.popped id rest).table = w.table from rfl, hr]
    exact ⟨hpopped, .inl ⟨hrest, rfl, rfl⟩⟩
  · rw [show (w.popped id rest).table = w.table from rfl, hr]
    obtain ⟨hlined, hmem, htable, hlength⟩ :=
      Lined.enqueueAll (w := { w.popped id rest with table := t })
        ⟨hpopped.width, hpopped.queued, hpopped.nodup⟩ (hg.lt_size id)
    exact ⟨hlined, .inr ⟨htable ▸ hfine, htable ▸ hcalmer, hmem, hlength⟩⟩

/-- **A turn leaves nothing that was disturbed and does not wait.** -/
theorem Standing.turn (h : Standing g Fine Rest w) (hq : w.queue = id :: rest) :
    Standing g Fine Rest (w.turn revise g id rest) := by
  have hrests : ∀ k, k ∉ rest → k ≠ id → Rest w.table k := fun k hk hne => h.rests k (by simp [hq, hk, hne])
  obtain ⟨hlined, ⟨hself, htable, hqueue⟩ | ⟨hfine, hcalmer, hmem, -⟩⟩ := h.turn_cases hcalms hg hq
  · refine ⟨hlined, htable ▸ h.fine, fun k hk => ?_⟩
    rw [hqueue] at hk
    rw [htable]
    by_cases hkid : k = id
    · exact hkid ▸ hself
    · exact hrests k hk hkid
  · refine ⟨hlined, hfine, fun k hk => ?_⟩
    rw [hmem, not_or] at hk
    exact hcalmer.rests k hk.2 (hrests k hk.1)

/-! ## The queue runs dry -/

omit hcalms hg in
/-- How many nodes may still be taken off: those that wait, and for each arc one for all the slack of its source. -/
def effort (g : AndOrGraph) (slack : T → Nat → Nat) (w : Worklist T) : Nat :=
  w.queue.length + ((List.range g.size).map fun id => slack w.table id * (fed g id).length).sum

/-- **Every turn is paid for.** -/
theorem Standing.effort_turn_lt (h : Standing g Fine Rest w) (hq : w.queue = id :: rest) :
    effort g slack (w.turn revise g id rest) < effort g slack w := by
  unfold effort
  rw [hq, List.length_cons]
  obtain ⟨-, ⟨-, htable, hqueue⟩ | ⟨-, hcalmer, -, hlength⟩⟩ := h.turn_cases hcalms hg hq
  · rw [htable, hqueue]
    omega
  · have hless := sum_add_le_sum (f := fun k => slack (w.turn revise g id rest).table k * (fed g k).length)
      (g := fun k => slack w.table k * (fed g k).length) (w := (fed g id).length) hcalmer.lt_size ?_ fun k hk =>
        Nat.mul_le_mul_right _ (hcalmer.stays k hk)
    · omega
    · rw [← Nat.succ_mul]
      exact Nat.mul_le_mul_right _ hcalmer.falls

/-- **So many turns are enough.** -/
theorem Standing.run {turns : Nat} (h : Standing g Fine Rest w) (hturns : effort g slack w ≤ turns) :
    Standing g Fine Rest (run revise g turns w) ∧ (Worklist.run revise g turns w).queue = [] := by
  induction turns generalizing w with
  | zero =>
    refine ⟨h, List.eq_nil_of_length_eq_zero ?_⟩
    unfold effort at hturns
    rw [Worklist.run]
    omega
  | succ turns ih =>
    unfold Worklist.run
    split
    · rename_i hq
      exact ⟨h, hq⟩
    · rename_i id rest hq
      exact ih (h.turn hcalms hg hq) (Nat.le_of_lt_succ ((h.effort_turn_lt hcalms hg hq).trans_le hturns))

/-- **The queue runs dry, and every node is at rest then**, if what does not wait at first is. -/
theorem Calms.run_ofIds {t : T} {most turns : Nat} (hfine : Fine t) (hids : ids.Sublist g.ids)
    (hrests : ∀ id, id ∉ ids → Rest t id) (hmost : ∀ id, slack t id ≤ most) (hturns : g.turnBound most ≤ turns) :
    (run revise g turns (ofIds g t ids)).queue = [] ∧ Fine (run revise g turns (ofIds g t ids)).table ∧
      ∀ id, Rest (run revise g turns (ofIds g t ids)).table id := by
  have hstart : Standing g Fine Rest (ofIds g t ids) := ⟨lined_ofIds t hids, hfine, hrests⟩
  have heffort : effort g slack (ofIds g t ids) ≤ g.turnBound most := by
    rw [AndOrGraph.turnBound, foldl_add_eq]
    refine Nat.add_le_add ?_ (List.sum_le_sum fun id _ => Nat.mul_le_mul_right _ (hmost id))
    exact hids.length_le.trans ((List.length_filter_le _ _).trans_eq List.length_range)
  obtain ⟨hend, hempty⟩ := hstart.run hcalms hg (heffort.trans hturns)
  refine ⟨hempty, hend.fine, fun id => hend.rests id ?_⟩
  rw [hempty]
  exact List.not_mem_nil

end Runs

end Worklist

end HierPlan
