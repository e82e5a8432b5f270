import HierPlan.Proofs.Heuristic.Release
import HierPlan.Proofs.Search.Coverage
import HierPlan.Proofs.Search.Soundness
import Mathlib.Algebra.Order.Ring.Nat

/-!
# Proofs/Search/Account — what becomes of every move and every node

    root ──▸ waits ──taken──▸ expanded ──move──▸ revisit | dead end | waits
                       └────▸ stopped at

A search keeps no books, but it could: a `Ledger` lists the nodes that are expanded, each with the fate of every
move.  `Run.Booked` says that counters, events, figures over estimates, arena and frontier agree with it.  A node
that is opened and a move that is offered keep it so (`Run.Booked.opened`, `Run.Booked.offer`), hence **the books
of a finished search balance** (`Search.account_of_run`).
-/

namespace HierPlan

variable {α : Type} [Scale α]

/-! ## The books -/

/-- What becomes of a move. -/
inductive Fate where
  /-- Its key was met at no greater cost. -/
  | revisit
  /-- Its estimate is infinite. -/
  | deadEnd
  /-- It leads to the node at that position. -/
  | kept (position : Nat)
  deriving DecidableEq

/-- The position of a node that is kept. -/
def Fate.position? : Fate → Option Nat
  | .kept position => some position
  | _ => none

namespace Fate

/-- The positions of the nodes that are kept. -/
def positions (fates : List Fate) : List Nat := fates.filterMap position?

variable (fates : List Fate)

@[simp] theorem positions_revisit : positions (fates ++ [revisit]) = positions fates :=
  List.filterMap_append.trans (List.append_nil _)

@[simp] theorem positions_deadEnd : positions (fates ++ [deadEnd]) = positions fates :=
  List.filterMap_append.trans (List.append_nil _)

@[simp] theorem positions_kept (position : Nat) :
    positions (fates ++ [kept position]) = positions fates ++ [position] := List.filterMap_append

/-- Every move meets one of three fates. -/
theorem length_eq : fates.length = (positions fates).length + fates.count revisit + fates.count deadEnd := by
  induction fates with
  | nil => rfl
  | cons f rest ih =>
    rw [positions] at ih
    rw [List.length_cons, ih, positions, List.filterMap_cons]
    cases f <;> simp [position?] <;> omega

end Fate

/-- A node that was expanded, and what became of its moves. -/
structure Expansion where
  position : Nat
  fates : List Fate

/-- The nodes that were expanded, in order. -/
abbrev Ledger := List Expansion

namespace Ledger

/-- The positions of the nodes. -/
def positions (l : Ledger) : List Nat := l.map Expansion.position

/-- What became of the moves of all nodes. -/
def fates (l : Ledger) : List Fate := l.flatMap Expansion.fates

/-- How many moves there were from all nodes. -/
def moves (l : Ledger) : Nat := (l.map fun e => e.fates.length).sum

/-- The positions of the nodes that moves led to. -/
def kept (l : Ledger) : List Nat := Fate.positions l.fates

end Ledger

namespace Run

/-- What becomes of a move from the node `n`. -/
def fate (s : Run α) (x : Search) (n : Node α) (move : Move) : Fate :=
  if s.isRevisit (x.key? move.next) (n.g + move.cost) then .revisit
  else if Scale.isFinite (s.heuristic.atMove x.model n.situation n.marks move).1.value then .kept s.nodes.size
  else .deadEnd

section Fate

variable {s : Run α} {x : Search} {n : Node α} {v : Move}

theorem fate_of_revisit (hr : s.isRevisit (x.key? v.next) (n.g + v.cost) = true) : s.fate x n v = .revisit :=
  if_pos hr

theorem fate_of_infinite (hr : s.isRevisit (x.key? v.next) (n.g + v.cost) = false)
    (hf : Scale.isFinite (s.heuristic.atMove x.model n.situation n.marks v).1.value = false) :
    s.fate x n v = .deadEnd := by
  rw [fate, hr, hf]
  rfl

theorem fate_of_finite (hr : s.isRevisit (x.key? v.next) (n.g + v.cost) = false)
    (hf : Scale.isFinite (s.heuristic.atMove x.model n.situation n.marks v).1.value = true) :
    s.fate x n v = .kept s.nodes.size := by
  rw [fate, hr, hf]
  rfl

end Fate

/-- What becomes of moves from the node `n` at position `i` that are offered one after another. -/
def fates (s : Run α) (x : Search) (i : Nat) (n : Node α) : List Move → List Fate
  | [] => []
  | move :: rest => s.fate x n move :: (s.offer x i n move).fates x i n rest

end Run

/-- The expansion of the node that is next, should the search go on. -/
def Search.expansion? (x : Search) (mon : Monitor) (s : Run α) : Option Expansion :=
  s.frontier.pop?.bind fun (i, frontier) => (s.nodes[i]?).map fun n =>
    ⟨i, ({ s with frontier, readings := (x.options.look mon s.expanded s.readings).readings }.opened n).fates x i n
      (n.situation.moves x.model)⟩

/-- The books of so many turns. -/
def Search.ledger (x : Search) (mon : Monitor) : Nat → Run α → Ledger
  | 0, _ => []
  | turns + 1, s =>
    match x.step mon s with
    | .running s' => (x.expansion? mon s).toList ++ x.ledger mon turns s'
    | .finished _ => []

/-! ## What was seen -/

/-- What an event tells of. -/
inductive Event.Kind where
  | expand
  | generate
  | prune
  | finish
  deriving DecidableEq

namespace Event

/-- What the event tells of. -/
def kind : Event α → Kind
  | .expand .. => .expand
  | .generate .. => .generate
  | .prune .. => .prune
  | .finish _ => .finish

/-- The number of the node that is expanded. -/
def expanded? : Event α → Option Nat
  | .expand sequence .. => some sequence
  | _ => none

end Event

/-- How many events of a kind were seen. -/
def Run.sightings (s : Run α) (k : Event.Kind) : Nat := (s.trace.map Event.kind).count k

/-- The numbers of the nodes that were seen to be expanded, in order. -/
def Run.expansions (s : Run α) : List Nat := s.trace.reverse.filterMap Event.expanded?

/-! ## One move, one node -/

/-- **The books agree with the run**, if nodes at these positions were expanded and their moves met these fates. -/
structure Run.Booked (h : Heuristic α) (positions : List Nat) (fates : List Fate) (s : Run α) : Prop where
  expanded : s.expanded = positions.length
  pruned : s.pruned = fates.count .revisit
  generated : s.generated = (Fate.positions fates).length
  seenExpand : s.sightings .expand = s.expanded
  seenGenerate : s.sightings .generate = s.generated
  seenPrune : s.sightings .prune = s.pruned
  seenFinish : s.sightings .finish = 0
  expansions : s.expansions = positions
  calls : s.heuristic.statistics.calls + s.pruned = h.statistics.calls + 1 + fates.length
  finite : s.heuristic.statistics.finite = h.statistics.finite + 1 + s.generated
  kept : 0 :: Fate.positions fates = List.range s.nodes.size
  waiting : (positions ++ s.frontier.toList).Perm (List.range s.nodes.size)

namespace Run.Booked

variable {x : Search} {s : Run α} {h : Heuristic α} {positions : List Nat} {fates : List Fate} {i : Nat}
  {n : Node α} {v : Move}

omit [Scale α] in
/-- A revisit is counted and seen. -/
theorem revisit (hs : s.Booked h positions fates) (g depth : Nat) (t : Transition) :
    ({ s.see (.prune g depth t) with pruned := s.pruned + 1 } : Run α).Booked h positions (fates ++ [.revisit]) where
  expanded := hs.expanded
  pruned := by simp [hs.pruned]
  generated := by simpa [see] using hs.generated
  seenExpand := by simpa [sightings, see, Event.kind] using hs.seenExpand
  seenGenerate := by simpa [sightings, see, Event.kind] using hs.seenGenerate
  seenPrune := by simpa [sightings, see, Event.kind] using hs.seenPrune
  seenFinish := by simpa [sightings, see, Event.kind] using hs.seenFinish
  expansions := by simpa [Run.expansions, see, Event.expanded?, List.filterMap_cons] using hs.expansions
  calls := by simpa [see, ← Nat.add_assoc] using hs.calls
  finite := hs.finite
  kept := by simpa [see] using hs.kept
  waiting := hs.waiting

/-- A call is counted for a move that is estimated. -/
theorem calls_asked (hs : s.Booked h positions fates) {f : Fate} :
    (s.asked x n v).heuristic.statistics.calls + s.pruned = h.statistics.calls + 1 + (fates ++ [f]).length := by
  rw [asked, Heuristic.statistics_atMove, Statistics.calls_record, Nat.add_right_comm, hs.calls, List.length_append,
    List.length_singleton, Nat.add_assoc _ fates.length]

/-- A dead end is estimated, and that is all. -/
theorem deadEnd (hs : s.Booked h positions fates)
    (hf : Scale.isFinite (s.heuristic.atMove x.model n.situation n.marks v).1.value = false) :
    (s.asked x n v).Booked h positions (fates ++ [.deadEnd]) where
  expanded := hs.expanded
  pruned := by simpa [asked] using hs.pruned
  generated := by simpa [asked] using hs.generated
  seenExpand := hs.seenExpand
  seenGenerate := hs.seenGenerate
  seenPrune := hs.seenPrune
  seenFinish := hs.seenFinish
  expansions := hs.expansions
  calls := hs.calls_asked
  finite := by
    rw [asked, Heuristic.statistics_atMove, Statistics.finite_record, hf]
    exact hs.finite
  kept := by simpa [asked] using hs.kept
  waiting := hs.waiting

/-- A node that is kept is estimated, counted and seen, and waits behind all others. -/
theorem keep (hs : s.Booked h positions fates) {c : Node α}
    (hf : Scale.isFinite (s.heuristic.atMove x.model n.situation n.marks v).1.value = true) :
    (((s.asked x n v).announced c v.transition).keep x c).Booked h positions (fates ++ [.kept s.nodes.size]) where
  expanded := by simpa [asked, announced, see] using hs.expanded
  pruned := by simpa [asked, announced, see] using hs.pruned
  generated := by simpa [asked, announced, see] using hs.generated
  seenExpand := by simpa [sightings, asked, announced, see, Event.kind] using hs.seenExpand
  seenGenerate := by simpa [sightings, asked, announced, see, Event.kind] using hs.seenGenerate
  seenPrune := by simpa [sightings, asked, announced, see, Event.kind] using hs.seenPrune
  seenFinish := by simpa [sightings, asked, announced, see, Event.kind] using hs.seenFinish
  expansions := by
    simpa [Run.expansions, asked, announced, see, Event.expanded?, List.filterMap_cons] using hs.expansions
  calls := by
    rw [heuristic_keep, pruned_keep]
    exact hs.calls_asked
  finite := by
    rw [heuristic_keep, generated_keep]
    change (s.heuristic.atMove x.model n.situation n.marks v).2.statistics.finite = _ + (s.generated + 1)
    rw [Heuristic.statistics_atMove, Statistics.finite_record, hf, if_pos rfl, hs.finite, Nat.add_assoc _ s.generated]
  kept := by
    rw [nodes_keep, Fate.positions_kept, ← List.cons_append, hs.kept, Array.size_push]
    exact List.range_succ.symm
  waiting := by
    rw [nodes_keep, Array.size_push, List.range_succ]
    refine ((toList_frontier_keep _ x c).append_left positions).trans ?_
    exact List.perm_middle.trans ((List.perm_append_singleton _ _).symm.trans (hs.waiting.append_right _))

omit [Scale α] in
/-- What is remembered of keys is not in the books. -/
theorem remember (hs : s.Booked h positions fates) (key : Option UInt64) (g : Nat) :
    (s.remember key g).Booked h positions fates := by
  cases key with
  | none => exact hs
  | some key => exact { hs with }

/-- **A move that is offered is booked.** -/
theorem offer (hs : s.Booked h positions fates) :
    (s.offer x i n v).Booked h positions (fates ++ [s.fate x n v]) := by
  cases hr : s.isRevisit (x.key? v.next) (n.g + v.cost) with
  | true =>
    rw [offer_of_revisit hr, fate_of_revisit hr]
    exact hs.revisit ..
  | false =>
    rw [offer_of_new hr]
    replace hs := hs.remember (x.key? v.next) (n.g + v.cost)
    have hheuristic := s.heuristic_remember (x.key? v.next) (n.g + v.cost)
    cases hf : Scale.isFinite (s.heuristic.atMove x.model n.situation n.marks v).1.value with
    | false =>
      rw [fate_of_infinite hr hf]
      rw [← hheuristic] at hf
      rw [estimate_of_infinite hf]
      exact hs.deadEnd hf
    | true =>
      rw [fate_of_finite hr hf, ← s.nodes_remember (x.key? v.next) (n.g + v.cost)]
      rw [← hheuristic] at hf
      rw [estimate_of_finite hf rfl]
      exact hs.keep hf

/-- **Moves that are offered one after another are booked.** -/
theorem offers (moves : List Move) (hs : s.Booked h positions fates) :
    (moves.foldl (fun r v => r.offer x i n v) s).Booked h positions (fates ++ s.fates x i n moves) := by
  induction moves generalizing s fates with
  | nil => exact (List.append_nil fates).symm ▸ hs
  | cons v rest ih =>
    rw [Run.fates, List.append_cons]
    exact ih hs.offer

/-- **A node that is taken and opened is booked.** -/
theorem opened (hs : s.Booked h positions fates) {q : Frontier α} (readings : Nat)
    (hq : s.frontier.pop? = some (i, q)) (hi : n.sequence = i) :
    (({ s with frontier := q, readings } : Run α).opened n).Booked h (positions ++ [i]) fates where
  expanded := by simpa [Run.opened] using hs.expanded
  pruned := hs.pruned
  generated := hs.generated
  seenExpand := by simpa [sightings, Run.opened, see, Event.kind] using hs.seenExpand
  seenGenerate := by simpa [sightings, Run.opened, see, Event.kind] using hs.seenGenerate
  seenPrune := by simpa [sightings, Run.opened, see, Event.kind] using hs.seenPrune
  seenFinish := by simpa [sightings, Run.opened, see, Event.kind] using hs.seenFinish
  expansions := by
    simpa [Run.expansions, Run.opened, see, Event.expanded?, List.filterMap_cons, hi] using hs.expansions
  calls := hs.calls
  finite := hs.finite
  kept := hs.kept
  waiting := by
    rw [List.append_assoc]
    exact ((Frontier.toList_of_pop? hq).symm.append_left positions).trans hs.waiting

omit [Scale α] in
/-- Marks are not in the books. -/
theorem close (hs : s.Booked h positions fates) (i : Nat) :
    ({ s with nodes := forgetMarks s.nodes i } : Run α).Booked h positions fates :=
  { hs with
    kept := by rw [size_forgetMarks]; exact hs.kept
    waiting := by rw [size_forgetMarks]; exact hs.waiting }

/-- **A node that is taken and expanded is booked with all its moves.** -/
theorem expand (hs : s.Booked h positions fates) {q : Frontier α} (readings : Nat)
    (hq : s.frontier.pop? = some (i, q)) (hi : n.sequence = i) :
    (({ s with frontier := q, readings } : Run α).expand x i n).Booked h (positions ++ [i])
      (fates ++ (({ s with frontier := q, readings } : Run α).opened n).fates x i n (n.situation.moves x.model)) := by
  rw [expand_eq]
  exact ((hs.opened readings hq hi).offers (n.situation.moves x.model)).close i

omit [Scale α] in
/-- There is a node wherever one waits. -/
theorem lt_size (hs : s.Booked h positions fates) (hi : i ∈ s.frontier.toList) : i < s.nodes.size :=
  List.mem_range.mp (hs.waiting.mem_iff.mp (List.mem_append_right positions hi))

end Run.Booked

/-! ## The whole run -/

theorem Run.length_fates (s : Run α) (x : Search) (i : Nat) (n : Node α) (moves : List Move) :
    (s.fates x i n moves).length = moves.length := by
  induction moves generalizing s with
  | nil => rfl
  | cons v rest ih => rw [fates, List.length_cons, List.length_cons, ih]

namespace Search

variable {x : Search} {mon : Monitor} {s s' : Run α} {h : Heuristic α} {done : Finished α} {turns : Nat}
  {positions : List Nat} {fates : List Fate}

/-- **The books are open once the root is kept.** -/
theorem booked_start (hf : Scale.isFinite (h.atRoot x.model x.model.start).1.value = true) :
    (x.start h).Booked h [] [] := by
  have hstatistics : (x.start h).heuristic.statistics =
      h.statistics.record (h.atRoot x.model x.model.start).1.value := by
    rw [heuristic_start, Heuristic.statistics_atRoot]
  rw [start_of_finite hf] at hstatistics ⊢
  exact {
    expanded := by simp [blank]
    pruned := by simp [blank]
    generated := by simp [blank, Fate.positions]
    seenExpand := by simp [Run.sightings, blank]
    seenGenerate := by simp [Run.sightings, blank]
    seenPrune := by simp [Run.sightings, blank]
    seenFinish := by simp [Run.sightings, blank]
    expansions := by simp [Run.expansions, blank]
    calls := by rw [hstatistics]; simp [blank]
    finite := by rw [hstatistics]; simp [blank, hf]
    kept := by simp [blank, Fate.positions]
    waiting := by
      refine (Run.toList_frontier_keep ..).trans (.of_eq ?_)
      simp [blank] }

/-- The node that is next is expanded with all its moves. -/
theorem expansion?_of_node (mon : Monitor) {i : Nat} {q : Frontier α} {n : Node α}
    (hq : s.frontier.pop? = some (i, q)) (hn : s.nodes[i]? = some n) :
    x.expansion? mon s = some ⟨i, ({ s with
      frontier := q
      readings := (x.options.look mon s.expanded s.readings).readings }.opened n).fates x i n
        (n.situation.moves x.model)⟩ := by
  rw [expansion?, hq, Option.bind_some]
  dsimp only
  rw [hn, Option.map_some]

/-- **A turn books what it expands.** -/
theorem booked_step (hs : s.Booked h positions fates) (hgrown : s.Grown x.model) (hstep : x.step mon s = .running s') :
    s'.Booked h (positions ++ Ledger.positions (x.expansion? mon s).toList)
      (fates ++ Ledger.fates (x.expansion? mon s).toList) := by
  have turned := x.step_cases mon s
  rw [hstep] at turned
  cases turned with
  | @missing i q taken none =>
    -- all that waits is in the arena
    have hi := hs.lt_size ((Frontier.toList_of_pop? taken).mem_iff.mpr List.mem_cons_self)
    exact absurd hi (Nat.not_lt.mpr (Array.getElem?_eq_none_iff.mp none))
  | @expanded i q n taken node =>
    have hexpanded := hs.expand (x := x) (x.options.look mon s.expanded s.readings).readings taken
      (hgrown.arena.sequence i n node)
    rw [expansion?_of_node mon taken node]
    simpa [Ledger.positions, Ledger.fates] using hexpanded

/-- **A run books what it expands**, up to its last turn. -/
theorem booked_run (hs : s.Booked h positions fates) (hgrown : s.Grown x.model)
    (hdone : x.run mon turns s = some done) :
    ∃ last, x.Reaches mon s last ∧ x.step mon last = .finished done ∧
      last.Booked h (positions ++ (x.ledger mon turns s).positions) (fates ++ (x.ledger mon turns s).fates) := by
  induction turns generalizing s positions fates with
  | zero => cases hdone
  | succ turns ih =>
    rw [run] at hdone
    rw [ledger]
    cases hstep : x.step mon s with
    | finished d =>
      rw [hstep] at hdone
      cases hdone
      exact ⟨s, .here, hstep, by simpa [Ledger.positions, Ledger.fates] using hs⟩
    | running s' =>
      rw [hstep] at hdone
      obtain ⟨last, hreach, hlast, hbooked⟩ := ih (booked_step hs hgrown hstep) (grown_step hgrown hstep) hdone
      refine ⟨last, hreach.head hstep, hlast, ?_⟩
      simpa [Ledger.positions, Ledger.fates] using hbooked

/-- The estimate of the root is reported as it was. -/
theorem initial_of_reaches (hr : x.Reaches mon s s') : s'.initial = s.initial := by
  refine hr.keeps (P := fun r => r.initial = s.initial) (fun r r' hr hstep => ?_) rfl
  obtain ⟨i, q, -, ⟨-, rfl⟩ | ⟨n, readings, -, -, rfl⟩⟩ := running_of_step hstep
  · exact hr
  · rw [Run.expand_eq]
    refine Run.offers_induction (P := fun r : Run α => r.initial = s.initial) (fun r v r' _ hr ho => ?_) hr
    cases ho with
    | revisit => exact hr
    | new _ estimated => cases estimated <;> exact (Run.initial_remember ..).trans hr

/-- Nodes are what they were, but for their marks. -/
theorem extends_of_reaches (hr : x.Reaches mon s s') : Run.Extends s s' :=
  hr.keeps (P := fun r => Run.Extends s r) (fun _ _ hr hstep => hr.trans (extends_step hstep))
    (Run.extends_of_nodes_eq rfl)

/-- An expansion is of a node of the arena, with all its moves. -/
theorem exists_of_expansion? {e : Expansion} (he : x.expansion? mon s = some e) :
    ∃ n, s.nodes[e.position]? = some n ∧ e.fates.length = (n.situation.moves x.model).length := by
  obtain ⟨⟨i, q⟩, -, he⟩ := Option.bind_eq_some_iff.mp he
  obtain ⟨n, hn, rfl⟩ := Option.map_eq_some_iff.mp he
  exact ⟨n, hn, Run.length_fates ..⟩

/-- **The books tell of all moves** of the nodes that were expanded. -/
theorem moves_of_mem_ledger (hdone : x.run mon turns s = some done) {e : Expansion} (he : e ∈ x.ledger mon turns s) :
    ∃ n, done.last.nodes[e.position]? = some n ∧ e.fates.length = (n.situation.moves x.model).length := by
  induction turns generalizing s with
  | zero => cases hdone
  | succ turns ih =>
    obtain ⟨last, hreach, hlast⟩ := exists_last hdone
    have hnodes : done.last.nodes = last.nodes := by
      obtain ⟨-, rfl⟩ | ⟨i, q, n, -, -, ⟨-, rfl⟩ | ⟨-, st, rd, -, rfl⟩⟩ := finished_of_step hlast <;> rfl
    rw [run] at hdone
    rw [ledger] at he
    split at he
    · rename_i s' hstep
      rw [hstep] at hdone
      obtain he | he := List.mem_append.mp he
      · obtain ⟨n, hn, hlength⟩ := exists_of_expansion? (Option.mem_toList.mp he)
        obtain ⟨marks, hn'⟩ := extends_of_reaches hreach e.position n hn
        exact ⟨{ n with marks }, hnodes ▸ hn', hlength⟩
      · exact ih hdone he
    · cases he

end Search

/-- **The books of a search are balanced** when it is finished. -/
structure Finished.Account (x : Search) (h : Heuristic α) (done : Finished α) (ledger : Ledger)
    (stopped : Option Nat) : Prop where
  /-- What is counted was seen. -/
  seenExpand : done.last.sightings .expand = done.result.expanded
  seenGenerate : done.last.sightings .generate = done.result.generated
  seenPrune : done.last.sightings .prune = done.result.pruned
  /-- The end was seen once. -/
  seenFinish : done.last.sightings .finish = 1
  /-- The ledger lists the nodes that were seen to be expanded. -/
  expansions : done.last.expansions = ledger.positions
  /-- It lists them with all their moves. -/
  moves : ∀ e ∈ ledger, ∃ n, done.last.nodes[e.position]? = some n ∧
    e.fates.length = (n.situation.moves x.model).length
  /-- A move leads to a new node, to a revisit or to a dead end. -/
  successors : ledger.moves = done.result.generated + done.result.pruned + ledger.fates.count .deadEnd
  /-- The root and every move that is no revisit were estimated. -/
  calls : done.result.statistics.calls + done.result.pruned = h.statistics.calls + 1 + ledger.moves
  /-- The estimates of the nodes were finite, and no other. -/
  finite : done.result.statistics.finite = h.statistics.finite + 1 + done.result.generated
  /-- The root and the nodes that moves led to make up the arena. -/
  arena : 0 :: ledger.kept = List.range done.last.nodes.size
  /-- Each node of the arena waited once, and was expanded, or is the one stopped at, or waits still. -/
  waited : (ledger.positions ++ stopped.toList ++ done.last.frontier.toList).Perm (List.range done.last.nodes.size)
  balance : done.result.generated + 1 = done.result.expanded + done.last.frontier.size + stopped.toList.length

/-- The moves of all nodes are those whose fates are listed. -/
theorem Ledger.moves_eq (l : Ledger) : l.moves = l.fates.length := List.length_flatMap.symm

variable {x : Search} {mon : Monitor} {s : Run α} {h : Heuristic α} {done : Finished α} {turns : Nat}

omit [Scale α] in
/-- **Where a run ends, its books balance.** -/
theorem Run.Booked.account {ledger : Ledger} {stopped : Option Nat} {q : Frontier α} {readings : Nat}
    {status : Status} {goal : Option Nat} (hs : s.Booked h ledger.positions ledger.fates)
    (hq : s.frontier.toList.Perm (stopped.toList ++ q.toList))
    (hmoves : ∀ e ∈ ledger, ∃ n, s.nodes[e.position]? = some n ∧
      e.fates.length = (n.situation.moves x.model).length) :
    (({ s with frontier := q, readings } : Run α).finish x mon status goal).Account x h ledger stopped where
  seenExpand := by simpa [Run.finish, sightings, see, Event.kind] using hs.seenExpand
  seenGenerate := by simpa [Run.finish, sightings, see, Event.kind] using hs.seenGenerate
  seenPrune := by simpa [Run.finish, sightings, see, Event.kind] using hs.seenPrune
  seenFinish := by simpa [Run.finish, sightings, see, Event.kind] using hs.seenFinish
  expansions := by simpa [Run.finish, Run.expansions, see, Event.expanded?, List.filterMap_cons] using hs.expansions
  moves := hmoves
  successors := by
    rw [Ledger.moves_eq, Fate.length_eq, ← hs.generated, ← hs.pruned]
    rfl
  calls := by
    rw [Ledger.moves_eq]
    exact hs.calls
  finite := hs.finite
  arena := hs.kept
  waited := by
    rw [List.append_assoc]
    exact (hq.symm.append_left _).trans hs.waiting
  balance := by
    have hnodes := congrArg List.length hs.kept
    have hwaiting := hs.waiting.length_eq
    have htaken := hq.length_eq
    rw [List.length_cons, ← hs.generated, List.length_range] at hnodes
    rw [List.length_append, ← hs.expanded, htaken, List.length_append, Frontier.length_toList, List.length_range,
      ← hnodes] at hwaiting
    change s.generated + 1 = s.expanded + q.size + stopped.toList.length
    omega

namespace Search

/-- The estimate of the root is reported at the end. -/
theorem initial_of_run (hdone : x.run mon turns s = some done) : done.result.initial = s.initial := by
  obtain ⟨last, hreach, hlast⟩ := exists_last hdone
  rw [← initial_of_reaches hreach]
  obtain ⟨-, rfl⟩ | ⟨i, q, n, -, -, ⟨-, rfl⟩ | ⟨-, st, rd, -, rfl⟩⟩ := finished_of_step hlast <;> rfl

/-- A root that has an estimate to report is kept. -/
theorem finite_of_initial (hi : (x.start h).initial.isSome) :
    Scale.isFinite (h.atRoot x.model x.model.start).1.value = true := by
  cases hf : Scale.isFinite (h.atRoot x.model x.model.start).1.value with
  | true => rfl
  | false =>
    rw [start_of_infinite hf, blank, hf] at hi
    cases hi

/-- **The books of a finished search balance**, if its root was kept.  The node stopped at is the one that was taken
last, unless nothing waited any more. -/
theorem account_of_run (hdone : x.run mon turns (x.start h) = some done) (hinitial : done.result.initial.isSome) :
    ∃ last, x.Reaches mon (x.start h) last ∧ x.step mon last = .finished done ∧
      (last.frontier.pop? = none ↔ done.result.status = .unsolvable) ∧
      done.Account x h (x.ledger mon turns (x.start h)) (last.frontier.pop?.map Prod.fst) := by
  have hmoves := fun e => moves_of_mem_ledger (e := e) hdone
  rw [initial_of_run hdone] at hinitial
  obtain ⟨last, hreach, hlast, hbooked⟩ :=
    booked_run (booked_start (finite_of_initial hinitial)) (grown_start x h) hdone
  rw [List.nil_append, List.nil_append] at hbooked
  refine ⟨last, hreach, hlast, ?_⟩
  have turned := x.step_cases mon last
  rw [hlast] at turned
  cases turned with
  | dry empty =>
    rw [empty]
    exact ⟨iff_of_true rfl rfl, hbooked.account (.refl _) hmoves⟩
  | goal taken =>
    rw [taken]
    exact ⟨iff_of_false nofun nofun, hbooked.account (Frontier.toList_of_pop? taken) hmoves⟩
  | stopped taken _ _ verdict =>
    rw [taken]
    refine ⟨iff_of_false nofun fun hs => ?_, hbooked.account (Frontier.toList_of_pop? taken) hmoves⟩
    rcases verdict_of_look verdict with rfl | rfl <;> cases hs

/-- Three nodes are expanded to light the lamp; the search stops at the fourth, and one more waits. -/
theorem account_of_run_lamp :
    ∃ done : Finished Float,
      (lamp [0]).run ⟨fun _ => 0, fun _ => none⟩ 9 ((lamp [0]).start (.fresh .blind)) = some done ∧
      done.result.initial.isSome ∧ done.last.expansions = [0, 1, 2] ∧ done.last.frontier.toList = [4] ∧
      ∃ stopped, done.Account (lamp [0]) (.fresh .blind)
        ((lamp [0]).ledger ⟨fun _ => 0, fun _ => none⟩ 9 ((lamp [0]).start (.fresh .blind) : Run Float))
        (some stopped) := by
  obtain ⟨done, hdone⟩ : ∃ done : Finished Float,
      (lamp [0]).run ⟨fun _ => 0, fun _ => none⟩ 9 ((lamp [0]).start (.fresh .blind)) = some done :=
    Option.isSome_iff_exists.mp (by decide +kernel)
  have hout : ((lamp [0]).run ⟨fun _ => 0, fun _ => none⟩ 9 ((lamp [0]).start (.fresh .blind) : Run Float)).map
      (fun d => (d.result.initial.isSome, d.result.status, d.last.expansions, d.last.frontier.toList)) =
        some (true, .goal, [0, 1, 2], [4]) := by
    decide +kernel
  rw [hdone, Option.map_some, Option.some.injEq, Prod.mk.injEq, Prod.mk.injEq, Prod.mk.injEq] at hout
  obtain ⟨hinitial, hstatus, hexpansions, hwaiting⟩ := hout
  obtain ⟨last, -, -, hdry, haccount⟩ := account_of_run hdone hinitial
  refine ⟨done, hdone, hinitial, hexpansions, hwaiting, ?_⟩
  cases htaken : last.frontier.pop? with
  | none =>
    rw [hdry.mp htaken] at hstatus
    cases hstatus
  | some taken =>
    rw [htaken] at haccount
    exact ⟨taken.1, haccount⟩

end Search

end HierPlan
