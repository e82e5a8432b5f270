import HierPlan.Path
import HierPlan.Proofs.Search.Completeness

/-!
# Proofs/Search/Levels — oldest first goes level by level

    waiting, oldest first:   d  d  …  d  d+1  …  d+1          all nodes so far:  ≤ d+1

Without novelty the nodes of a breadth-first search wait in one line (`Frontier.IsQueue`).  Children are one
transition deeper than their parent and go to its end, so depths along the line never fall, and no node is more than
one transition deeper than any that waits (`Run.Leveled`, kept by every step: `Search.leveled_step`).

A revisit is judged by costs.  Yet when a node is expanded, whatever answers for its moves is no deeper than they
are, since nothing is.  **So along a path to a goal nodes are met at no greater depth than the path has there**, and
the node taken next is no deeper than the path is long (`Run.Leveled.depthAt_le`): **the goal that is found first is a
shallowest one** (`Search.depth_le_length`).
-/

namespace HierPlan

variable {α : Type} [Scale α]

/-! ## One line -/

namespace Frontier

variable {q next : Frontier α} {i : Nat}

/-- One line alone is in use, served from its old end. -/
def IsQueue (q : Frontier α) : Prop :=
  ∃ fresh rest, q = .lines .oldest fresh rest ∧ fresh.toList = []

omit [Scale α] in
theorem isQueue_empty : (empty .breadthFirst : Frontier α).IsQueue := ⟨{}, {}, rfl, rfl⟩

/-- What is not new goes to the end of the line. -/
theorem IsQueue.push (h : q.IsQueue) (i : Nat) (n : Node α) :
    (q.push i n false).IsQueue ∧ (q.push i n false).toList = q.toList ++ [i] := by
  obtain ⟨fresh, rest, rfl, hfresh⟩ := h
  refine ⟨⟨fresh, rest.push i, rfl, hfresh⟩, ?_⟩
  change fresh.toList ++ (rest.push i).toList = (fresh.toList ++ rest.toList) ++ [i]
  rw [Line.toList_push, List.append_assoc]

/-- The head of the line is served. -/
theorem IsQueue.of_pop? (h : q.IsQueue) (hp : q.pop? = some (i, next)) :
    next.IsQueue ∧ q.toList = i :: next.toList := by
  obtain ⟨fresh, rest, rfl, hfresh⟩ := h
  have hnone : Service.oldest.pop? fresh = none := serve_eq_none.mpr hfresh
  simp only [pop?, hnone] at hp
  obtain ⟨⟨k, rest'⟩, hk, he⟩ := Option.map_eq_some_iff.mp hp
  cases he
  refine ⟨⟨fresh, rest', rfl, hfresh⟩, ?_⟩
  change fresh.toList ++ rest.toList = k :: (fresh.toList ++ rest'.toList)
  rw [hfresh, List.nil_append, List.nil_append]
  exact Line.toList_of_popOldest? hk

end Frontier

/-! ## Depths -/

/-- The depth of the node at a position. -/
def depthAt (nodes : Array (Node α)) (i : Nat) : Nat := ((nodes[i]?).map (·.depth)).getD 0

section Depth

variable {nodes : Array (Node α)} {c n : Node α} {i k : Nat}

omit [Scale α]

theorem depthAt_of_some (hn : nodes[i]? = some n) : depthAt nodes i = n.depth := by
  rw [depthAt, hn]
  rfl

theorem depthAt_push (hk : k < nodes.size) : depthAt (nodes.push c) k = depthAt nodes k := by
  rw [depthAt, depthAt, Array.getElem?_push_lt hk, Array.getElem?_eq_getElem hk]

theorem depthAt_push_size : depthAt (nodes.push c) nodes.size = c.depth :=
  depthAt_of_some Array.getElem?_push_size

/-- A new node raises no other. -/
theorem depthAt_push_le {d : Nat} (hc : c.depth ≤ d) (h : ∀ k, depthAt nodes k ≤ d) (k : Nat) :
    depthAt (nodes.push c) k ≤ d := by
  obtain hk | rfl | hk := Nat.lt_trichotomy k nodes.size
  · exact (depthAt_push hk).trans_le (h k)
  · exact depthAt_push_size.trans_le hc
  · rw [depthAt, Array.getElem?_eq_none (by rw [Array.size_push]; omega)]
    exact Nat.zero_le d

theorem depthAt_forgetMarks : depthAt (forgetMarks nodes i) k = depthAt nodes k := by
  rw [depthAt, depthAt, getElem?_forgetMarks, Option.map_map]
  congr 2
  funext n
  simp only [Function.comp_apply]
  split <;> rfl

end Depth

/-! ## What is answered for, and how deep -/

namespace Run

variable {x : Search} {W : Situation → Prop} {s s' : Run α} {t : Situation} {d d' : Nat}

/-- Some node stands for a situation, no deeper than that. -/
def Stands (s : Run α) (t : Situation) (d : Nat) : Prop :=
  ∃ (k : Nat) (n : Node α), s.nodes[k]? = some n ∧ n.situation = t ∧ n.depth ≤ d

/-- A situation, or one it was confused with, has a node no deeper than that unless it is not worth one. -/
def Leads (x : Search) (W : Situation → Prop) (s : Run α) (t : Situation) (d : Nat) : Prop :=
  ∃ u, x.Confuses u t ∧ s.Met x u ∧ (W u → s.Stands u d)

omit [Scale α] in
theorem Stands.mono (h : Extends s s') (ht : s.Stands t d) (hd : d ≤ d') : s'.Stands t d' := by
  obtain ⟨k, n, hn, hsituation, hle⟩ := ht
  obtain ⟨marks, hn'⟩ := h k n hn
  exact ⟨k, _, hn', hsituation, hle.trans hd⟩

omit [Scale α] in
theorem Leads.mono (h : Extends s s') (ht : s.Leads x W t d) : s'.Leads x W t d := by
  obtain ⟨u, hu, hmet, hstands⟩ := ht
  exact ⟨u, hu, hmet.mono h, fun hw => (hstands hw).mono h le_rfl⟩

omit [Scale α] in
/-- **What answers is no deeper than all nodes are.** -/
theorem Answers.leads {g : Nat} (h : s.Answers x W t g) (hd : ∀ k, depthAt s.nodes k ≤ d) : s.Leads x W t d := by
  obtain ⟨u, hu, hmet, hholds⟩ := h
  refine ⟨u, hu, hmet, fun hw => ?_⟩
  obtain ⟨k, n, hn, hsituation, -⟩ := hholds hw
  exact ⟨k, n, hn, hsituation, (depthAt_of_some hn).symm.trans_le (hd k)⟩

/-! ## Levels -/

/-- Depths along the line never fall, no node is more than one deeper than any that waits, and the moves of all other
nodes lead no deeper than they should. -/
structure Leveled (x : Search) (W : Situation → Prop) (s : Run α) : Prop where
  queue : s.frontier.IsQueue
  ordered : s.frontier.toList.Pairwise fun i k => depthAt s.nodes i ≤ depthAt s.nodes k
  shallow : ∀ i ∈ s.frontier.toList, ∀ k, depthAt s.nodes k ≤ depthAt s.nodes i + 1
  settled : ∀ (k : Nat) (n : Node α), s.nodes[k]? = some n → k ∉ s.frontier.toList →
    ∀ v ∈ n.situation.moves x.model, s.Leads x W v.next (n.depth + 1)

variable {i : Nat} {n c : Node α} {v : Move} {nodes : Array (Node α)} {q : Frontier α} {old : Nat} {first : List Nat}

/-- What holds of nodes and frontier while the moves of a node at depth `d` are offered, which was taken when there
were `old` nodes and `first` waited: only children join, at the end of the line. -/
structure Spreading (d old : Nat) (first : List Nat) (nodes : Array (Node α)) (q : Frontier α) : Prop where
  queue : q.IsQueue
  bound : ∀ i ∈ q.toList, i < nodes.size
  ordered : q.toList.Pairwise fun i k => depthAt nodes i ≤ depthAt nodes k
  deep : ∀ i ∈ q.toList, d ≤ depthAt nodes i
  shallow : ∀ k, depthAt nodes k ≤ d + 1
  joined : ∀ k < nodes.size, k < old ∨ k ∈ q.toList
  waiting : ∀ k ∈ first, k ∈ q.toList

/-- A child joins. -/
theorem Spreading.push (h : Spreading d old first nodes q) (hc : c.depth = d + 1) :
    Spreading d old first (nodes.push c) (q.push nodes.size c false) := by
  obtain ⟨hqueue, hlist⟩ := h.queue.push nodes.size c
  have hdepth : ∀ k ∈ q.toList, depthAt (nodes.push c) k = depthAt nodes k := fun k hk => depthAt_push (h.bound k hk)
  have hnew : depthAt (nodes.push c) nodes.size = d + 1 := depthAt_push_size.trans hc
  refine ⟨hqueue, ?_, ?_, ?_, depthAt_push_le hc.le h.shallow, fun k hk => ?_, fun k hk => ?_⟩ <;>
    rw [hlist]
  · refine List.forall_mem_append.mpr ⟨fun k hk => ?_, List.forall_mem_singleton.mpr ?_⟩ <;> rw [Array.size_push]
    · exact Nat.lt_succ_of_lt (h.bound k hk)
    · exact Nat.lt_succ_self _
  · refine List.pairwise_append.mpr ⟨?_, List.pairwise_singleton _ _, fun k hk j hj => ?_⟩
    · refine h.ordered.imp_of_mem fun hk hj hle => ?_
      rwa [hdepth _ hk, hdepth _ hj]
    · obtain rfl := List.mem_singleton.mp hj
      rw [hdepth k hk, hnew]
      exact h.shallow k
  · refine List.forall_mem_append.mpr ⟨fun k hk => ?_, List.forall_mem_singleton.mpr ?_⟩
    · exact (hdepth k hk).symm ▸ h.deep k hk
    · exact hnew.symm ▸ Nat.le_succ d
  · rw [Array.size_push] at hk
    rw [List.mem_append, List.mem_singleton]
    obtain hk | rfl := Nat.lt_succ_iff_lt_or_eq.mp hk
    · exact (h.joined k hk).imp_right .inl
    · exact .inr (.inr rfl)
  · exact List.mem_append_left _ (h.waiting k hk)

omit [Scale α] in
/-- Marks are not looked at. -/
theorem Spreading.forgetMarks (h : Spreading d old first nodes q) (i : Nat) :
    Spreading d old first (forgetMarks nodes i) q := by
  refine ⟨h.queue, ?_, ?_, ?_, ?_, ?_, h.waiting⟩ <;> simp only [size_forgetMarks, depthAt_forgetMarks]
  exacts [h.bound, h.ordered, h.deep, h.shallow, h.joined]

/-- **Without novelty a move leaves nodes and frontier alone, or puts a child at the end of both.** -/
theorem offer_eq_or_push (hnovelty : x.options.novelty = false) (s : Run α) (i : Nat) (n : Node α) (v : Move) :
    ((s.offer x i n v).nodes = s.nodes ∧ (s.offer x i n v).frontier = s.frontier) ∨
      ∃ c : Node α, c.depth = n.depth + 1 ∧ (s.offer x i n v).nodes = s.nodes.push c ∧
        (s.offer x i n v).frontier = s.frontier.push s.nodes.size c false := by
  cases hr : s.isRevisit (x.key? v.next) (n.g + v.cost) with
  | true =>
    rw [offer_of_revisit hr]
    exact .inl ⟨rfl, rfl⟩
  | false =>
    rw [offer_of_new hr]
    cases hf : Scale.isFinite ((s.remember (x.key? v.next) (n.g + v.cost)).heuristic.atMove x.model n.situation
        n.marks v).1.value with
    | false =>
      rw [estimate_of_infinite hf]
      exact .inl ⟨nodes_remember .., frontier_remember ..⟩
    | true =>
      rw [estimate_of_finite hf rfl, keep_eq, hnovelty, Bool.false_and]
      refine .inr ⟨_, rfl, congrArg (Array.push · _) (nodes_remember ..), ?_⟩
      change ((s.remember _ _).frontier).push (s.remember _ _).nodes.size _ false = _
      rw [frontier_remember, nodes_remember]

/-- **All moves of a node that are offered keep the levels.** -/
theorem Spreading.offered (hnovelty : x.options.novelty = false) (h : Spreading n.depth old first s.nodes s.frontier)
    (i : Nat) : Spreading n.depth old first (s.offered x i n).nodes (s.offered x i n).frontier := by
  refine List.foldlRecOn (motive := fun r : Run α => Spreading n.depth old first r.nodes r.frontier) _ _ h
    fun r hr v _ => ?_
  obtain ⟨hnodes, hfrontier⟩ | ⟨c, hc, hnodes, hfrontier⟩ := r.offer_eq_or_push hnovelty i n v <;>
    rw [hnodes, hfrontier]
  · exact hr
  · exact hr.push hc

/-- Where the head of the line is taken, its moves may be offered. -/
theorem Leveled.spreading (h : s.Leveled x W) (hbound : ∀ i ∈ s.frontier.toList, i < s.nodes.size)
    (hpop : s.frontier.pop? = some (i, q)) (hn : s.nodes[i]? = some n) :
    Spreading n.depth s.nodes.size q.toList s.nodes q := by
  obtain ⟨hqueue, hlist⟩ := h.queue.of_pop? hpop
  have hi : i ∈ s.frontier.toList := hlist ▸ List.mem_cons_self
  have hin : ∀ k ∈ q.toList, k ∈ s.frontier.toList := fun k hk => hlist ▸ List.mem_cons_of_mem i hk
  have hordered := h.ordered
  rw [hlist, List.pairwise_cons, depthAt_of_some hn] at hordered
  refine ⟨hqueue, fun k hk => hbound k (hin k hk), hordered.2, hordered.1, fun k => ?_, fun k hk => .inl hk,
    fun k hk => hk⟩
  exact depthAt_of_some hn ▸ h.shallow i hi k

end Run

namespace Search

variable {x : Search} {W : Situation → Prop} {mon : Monitor} {s s' : Run α} {h : Heuristic α}

open Run

/-- **Every step keeps the levels.** -/
theorem leveled_step (hnovelty : x.options.novelty = false) (hs : s.Leveled x W) (hcovers : s.Covers x W none)
    (hcovers' : s'.Covers x W none) (hstep : x.step mon s = .running s') : s'.Leveled x W := by
  have hextends := extends_step hstep
  obtain ⟨i, q, hpop, ⟨hnone, rfl⟩ | ⟨n, readings, hn, -, rfl⟩⟩ := running_of_step hstep
  · have hi := hcovers.bound i ((Frontier.toList_of_pop? hpop).mem_iff.mpr List.mem_cons_self)
    rw [Array.getElem?_eq_none_iff] at hnone
    exact absurd hi (Nat.not_lt.mpr hnone)
  · have hopen : Spreading n.depth s.nodes.size q.toList s.nodes q := hs.spreading hcovers.bound hpop hn
    have hspread := (hopen.offered (s := { s with frontier := q, readings }) hnovelty i).forgetMarks i
    rw [Run.expand_eq] at hextends hcovers' ⊢
    refine ⟨hspread.queue, hspread.ordered, fun k hk j => ?_, fun k p hp hk => ?_⟩
    · exact (hspread.shallow j).trans (Nat.succ_le_succ (hspread.deep k hk))
    · by_cases hki : k = i
      · -- all nodes are shallow enough now, so what answers for the moves is
        subst hki
        obtain ⟨marks, hn'⟩ := hextends k n hn
        obtain rfl := Option.some.inj (hn'.symm.trans hp)
        exact fun v hv => ((hcovers'.settled k _ hp hk nofun).2 v hv).leads hspread.shallow
      · obtain ⟨hlt, -⟩ := Array.getElem?_eq_some_iff.mp hp
        have hold := (hspread.joined k hlt).resolve_right hk
        obtain ⟨p₀, hp₀⟩ : ∃ p₀, s.nodes[k]? = some p₀ := ⟨_, Array.getElem?_eq_getElem hold⟩
        obtain ⟨marks, hp'⟩ := hextends k p₀ hp₀
        obtain rfl := Option.some.inj (hp'.symm.trans hp)
        refine fun v hv => (hs.settled k p₀ hp₀ (fun hin => ?_) v hv).mono hextends
        obtain rfl | hin := List.mem_cons.mp ((Frontier.toList_of_pop? hpop).mem_iff.mp hin)
        exacts [hki rfl, hk (hspread.waiting k hin)]

/-- **A breadth-first search without novelty begins level.** -/
theorem leveled_start (hkind : x.options.kind = .breadthFirst) (hnovelty : x.options.novelty = false) :
    (x.start h).Leveled x W := by
  cases hf : Scale.isFinite (h.atRoot x.model x.model.start).1.value with
  | false =>
    rw [start_of_infinite hf]
    have hempty : (x.blank h).frontier = .empty .breadthFirst := congrArg Frontier.empty hkind
    refine ⟨hempty ▸ Frontier.isQueue_empty, ?_, ?_, fun k n hn => ?_⟩
    · rw [hempty, Frontier.toList_empty]
      exact .nil
    · rw [hempty, Frontier.toList_empty]
      exact fun i hi => absurd hi List.not_mem_nil
    · simp [blank] at hn
  | true =>
    generalize hroot : Node.root x.model.start (h.atRoot x.model x.model.start).1 = root
    have hnodes : (x.start h).nodes = #[].push root := by
      rw [start_of_finite hf, nodes_keep, nodes_remember, hroot]
      rfl
    have hfrontier : (x.start h).frontier = (Frontier.empty .breadthFirst).push 0 root false := by
      rw [start_of_finite hf, keep_eq, hnovelty, Bool.false_and, nodes_remember, frontier_remember, hroot]
      exact congrArg (Frontier.push · 0 root false) (congrArg Frontier.empty hkind)
    obtain ⟨hqueue, hlist⟩ := Frontier.isQueue_empty.push 0 root
    rw [← hfrontier, Frontier.toList_empty, List.nil_append] at hlist
    refine ⟨hfrontier ▸ hqueue, ?_, ?_, ?_⟩ <;> rw [hlist]
    · exact List.pairwise_singleton _ _
    · intro i _ k
      rw [hnodes]
      refine depthAt_push_le ?_ (fun k => Nat.zero_le _) k
      rw [← hroot]
      exact Nat.zero_le _
    · intro k n hn hk
      rw [hnodes] at hn
      obtain ⟨rfl, -⟩ := Arena.getElem?_singleton hn
      exact absurd (List.mem_singleton_self 0) hk

end Search

/-! ## Along a path -/

/-- The operators that some moves apply, in order. -/
def Move.planOf (moves : List Move) : List Nat := moves.flatMap fun v => v.transition.applied

/-- A path walks off the operators of its moves. -/
theorem Path.walk {m : Model} {a b : Situation} {moves : List Move} (h : Path m a moves b) :
    Walk m a (Move.planOf moves) b := by
  induction h with
  | stay => exact .stay
  | step first _ ih => exact .step first ih

/-- **A node is as deep as the path that its ancestors make is long.** -/
theorem Arena.path {m : Model} {nodes : Array (Node α)} (h : Arena m nodes) {k : Nat} {n : Node α}
    (hn : nodes[k]? = some n) : ∃ moves, Path m m.start moves n.situation ∧
      moves.map (·.transition) = transitionsTo nodes k [] ∧ moves.length = n.depth := by
  induction k using Nat.strongRecOn generalizing n with
  | ind k ih =>
    obtain ⟨rfl, hr⟩ | ⟨p, q, v, hp, hq, hv, hc⟩ := h.reached k n hn
    · refine ⟨[], hr.situation ▸ .stay, ?_, hr.depth.symm⟩
      rw [transitionsTo, hn]
      simp [hr.parent, hr.transition]
    · obtain ⟨moves, hpath, hmap, hlength⟩ := ih p hp hq
      refine ⟨moves ++ [v], hc.situation ▸ hpath.snoc hv, ?_, ?_⟩
      · rw [transitionsTo_child hn hp hc.parent hc.transition, List.map_append, hmap, List.map_singleton]
      · rw [List.length_append, List.length_singleton, hlength, hc.depth]

namespace Run

variable {x : Search} {fits : List Nat → Prop} {s : Run α}

omit [Scale α] in
/-- What the search met is told apart, so nothing else stands for it. -/
theorem Leads.stands (hsep : x.options.revisit = .hashedKey → s.Separated x) {W : Situation → Prop} {t : Situation}
    {d : Nat} (hmet : s.Met x t) (hw : W t) (h : s.Leads x W t d) : s.Stands t d := by
  obtain ⟨u, rfl | ⟨hashed, hkey⟩, hu, hstands⟩ := h
  · exact hstands hw
  · obtain rfl := hsep hashed u t hu hmet hkey
    exact hstands hw

omit [Scale α] in
/-- **No less depth than all that waits has, a path to a goal is long** that leads from where a node stands. -/
theorem Leveled.le_of_path (h : s.Leveled x (Worth x.model fits)) (hcovers : s.Covers x (Worth x.model fits) none)
    (hsep : x.options.revisit = .hashedKey → s.Separated x) (hfits : ∀ p q, fits (p ++ q) → fits q) {d : Nat}
    (hd : ∀ i ∈ s.frontier.toList, d ≤ depthAt s.nodes i) {a b : Situation} {moves : List Move}
    (hpath : Path x.model a moves b) (hwidth : a.state.width = x.model.facts.size)
    (hgoal : b.isGoal x.model = true) (hp : fits (Move.planOf moves)) {e : Nat} (ha : s.Stands a e) :
    d ≤ e + moves.length := by
  have hwaits : ∀ {k e : Nat} {n : Node α}, s.nodes[k]? = some n → n.depth ≤ e → k ∈ s.frontier.toList → d ≤ e :=
    fun hn hle hk => ((hd _ hk).trans_eq (depthAt_of_some hn)).trans hle
  induction hpath generalizing e with
  | stay =>
    obtain ⟨k, n, hn, rfl, hle⟩ := ha
    refine hwaits hn hle (by_contra fun hk => ?_)
    rw [(hcovers.settled k n hn hk nofun).1] at hgoal
    cases hgoal
  | @step a b v rest first after ih =>
    obtain ⟨k, n, hn, rfl, hle⟩ := ha
    by_cases hk : k ∈ s.frontier.toList
    · exact (hwaits hn hle hk).trans (Nat.le_add_right ..)
    · have hwidth' := (Situation.width_next first).trans hwidth
      have hrest : fits (Move.planOf rest) := hfits _ _ hp
      have hnext : s.Stands v.next (n.depth + 1) :=
        (h.settled k n hn hk v first).stands hsep (.inr ⟨k, n, v, hn, first, rfl⟩)
          ⟨hwidth', _, b, after.walk, hgoal, hrest⟩
      have hbound := ih hwidth' hgoal hrest hnext
      rw [List.length_cons]
      omega

end Run

namespace Search

variable {x : Search} {mon : Monitor} {h : Heuristic α} {o : HeuristicOptions} {fuel : Nat} {done : Finished α}
  [Scale.Lawful α]

/-- **Every run that a breadth-first search without novelty passes through is level.** -/
theorem leveled_of_reaches (hw : x.model.WellFormed) (hkind : x.options.kind = .breadthFirst)
    (hnovelty : x.options.novelty = false) (ho : o.Holds x.model) (hu : h.Used x.model o) {r : Run α}
    (hr : x.Reaches mon (x.start h) r) : r.Leveled x (Worth x.model (o.Admits x.model)) := by
  induction hr with
  | here => exact leveled_start hkind hnovelty
  | step before next ih =>
    exact leveled_step hnovelty ih (covers_of_reaches hw ho hu before).1
      (covers_of_reaches hw ho hu (before.step next)).1 next

/-- **Breadth-first search without novelty finds a shallowest goal.**  The node at which it ends is as deep as the
path to it is long, applied operators and methods used together, and no path to a goal is shorter. -/
theorem depth_le_length {d : Draft} (hd : d.build = .ok x.model) (hkind : x.options.kind = .breadthFirst)
    (hnovelty : x.options.novelty = false) (ho : o.Holds x.model) (hu : h.Used x.model o)
    (hr : x.run mon fuel (x.start h) = some done)
    (hsep : x.options.revisit = .hashedKey → done.last.Separated x) (hs : done.result.status = .goal) :
    ∃ i n moves, done.last.nodes[i]? = some n ∧ n.situation.isGoal x.model = true ∧
      done.result.plan = planTo done.last.nodes i ∧ Path x.model x.model.start moves n.situation ∧
      moves.map (·.transition) = transitionsTo done.last.nodes i [] ∧ moves.length = n.depth ∧
      ∀ moves' g, Path x.model x.model.start moves' g → g.isGoal x.model = true →
        o.Admits x.model (Move.planOf moves') → n.depth ≤ moves'.length := by
  have hw := Draft.wellFormed_of_build hd
  obtain ⟨last, hreach, hstep⟩ := exists_last hr
  obtain ⟨-, rfl⟩ | ⟨i, q, n, hpop, hn, ⟨hgoal, rfl⟩ | ⟨-, st, rd, hst, rfl⟩⟩ := finished_of_step hstep
  · cases hs
  · have harena := (grown_of_reaches hreach).arena
    obtain ⟨moves, hpath, hmap, hlength⟩ := harena.path hn
    refine ⟨i, n, moves, hn, hgoal, rfl, hpath, hmap, hlength, fun moves' g hpath' hgoal' hadmits => ?_⟩
    have hcovers := (covers_of_reaches hw ho hu hreach).1
    have hleveled := leveled_of_reaches hw hkind hnovelty ho hu hreach
    have hspread := hleveled.spreading hcovers.bound hpop hn
    -- the node taken is at the head of the line, so nothing that waits is less deep
    have hd : ∀ k ∈ last.frontier.toList, n.depth ≤ depthAt last.nodes k := by
      rw [(hleveled.queue.of_pop? hpop).2]
      exact List.forall_mem_cons.mpr ⟨(depthAt_of_some hn).ge, hspread.deep⟩
    have hroot : last.Stands x.model.start 0 := by
      obtain ⟨hi, -⟩ := Array.getElem?_eq_some_iff.mp hn
      have hfirst := Array.getElem?_eq_getElem (Nat.zero_lt_of_lt hi)
      obtain ⟨-, hr⟩ | ⟨p, -, -, hp, -⟩ := harena.reached 0 _ hfirst
      · exact ⟨0, _, hfirst, hr.situation, hr.depth.le⟩
      · exact absurd hp (Nat.not_lt_zero p)
    have hbound := hleveled.le_of_path hcovers hsep (fun _ _ => HeuristicOptions.Admits.suffix) hd hpath' hw.init
      hgoal' hadmits hroot
    rwa [Nat.zero_add] at hbound
  · have hgoal : st = .goal := hs
    rcases hst with rfl | rfl <;> cases hgoal

/-- To light the lamp takes a method and an operator, and no way is shorter. -/
theorem depth_le_length_lamp :
    ∃ done : Finished Float, (lamp [0]).run ⟨fun _ => 0, fun _ => none⟩ 9
        ((lamp [0]).start (.fresh .blind)) = some done ∧ done.result.status = .goal ∧
      ∀ moves g, Path (.lamp [0]) (Model.lamp [0]).start moves g → g.isGoal (.lamp [0]) = true →
        2 ≤ moves.length := by
  have hout : ((lamp [0]).run ⟨fun _ => 0, fun _ => none⟩ 9 ((lamp [0]).start
      (.fresh .blind) : Run Float)).map (fun d => (d.result.status,
        d.last.nodes.toList.all fun n => !n.situation.isGoal (.lamp [0]) || n.depth == 2)) = some (.goal, true) := by
    decide +kernel
  obtain ⟨done, hr, hresult⟩ := Option.map_eq_some_iff.mp hout
  obtain ⟨hgoal, hdepths⟩ := Prod.mk.inj hresult
  have hbuild : (Draft.lamp [0]).build = .ok (lamp [0]).model := rfl
  have hholds : HeuristicOptions.Holds { kind := .blind } (lamp [0]).model :=
    ⟨fun hk => (nomatch hk), fun hk => (nomatch hk)⟩
  have hused : (Heuristic.fresh .blind : Heuristic Float).Used (.lamp [0]) { kind := .blind } := .fresh rfl
  obtain ⟨i, n, -, hn, hisGoal, -, -, -, -, hleast⟩ :=
    depth_le_length hbuild rfl rfl hholds hused hr (fun hk => (nomatch hk)) hgoal
  have hdepth : n.depth = 2 := by
    have hin : n ∈ done.last.nodes.toList := Array.mem_toList_iff.mpr (Array.mem_of_getElem? hn)
    have hboth := List.all_eq_true.mp hdepths n hin
    change (!n.situation.isGoal (lamp [0]).model || n.depth == 2) = true at hboth
    rwa [hisGoal, Bool.not_true, Bool.false_or, beq_iff_eq] at hboth
  exact ⟨done, hr, hgoal, fun moves g hpath hg => hdepth ▸ hleast moves g hpath hg fun hk => (nomatch hk)⟩

end Search

end HierPlan
