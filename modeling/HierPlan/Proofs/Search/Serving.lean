import HierPlan.Proofs.Double.Order
import HierPlan.Proofs.Search.Ranking
import Mathlib.Data.List.Induction
import Mathlib.Data.List.Nodup

/-!
# Proofs/Search/Serving — which of the nodes that wait is served

    requests      push a   push b   pop   push c   pop   …
    waiting         a       a b      …               pushed, and no pop has answered with it yet

A frontier is asked to take nodes and to give them back, in any order.  Whatever the requests were, it holds what
waits (`Frontier.Holds`): as ranks in an ordered heap, or in the order they came, those with something new in a line
of their own.  A push and a pop keep it so (`Frontier.Holds.push`, `Frontier.Holds.of_pop?`), and so **every pop
answers with the node that is next by the rule of the search** (`SearchKind.IsNext`), **nothing is lost or served
twice, and only an empty frontier gives nothing** (`Frontier.serves_in_order`).
-/

namespace HierPlan

variable {α : Type} [Scale α]

/-! ## Requests -/

/-- A node put into a frontier. -/
structure Arrival (α : Type) where
  position : Nat
  node : Node α
  /-- Whether it brings something new. -/
  novel : Bool

/-- What a frontier is asked for. -/
inductive Request (α : Type) where
  /-- To take a node. -/
  | push (a : Arrival α)
  /-- To give back the node that is next. -/
  | pop

/-- A frontier, and what its pops have answered so far. -/
structure Session (α : Type) where
  frontier : Frontier α
  answers : List (Option Nat)

namespace Session

/-- The session after one more request. -/
def serve (s : Session α) : Request α → Session α
  | .push a => { s with frontier := s.frontier.push a.position a.node a.novel }
  | .pop =>
    match s.frontier.pop? with
    | none => { s with answers := s.answers ++ [none] }
    | some (i, frontier) => ⟨frontier, s.answers ++ [some i]⟩

/-- The session of a search of some kind after some requests. -/
def after (kind : SearchKind) (requests : List (Request α)) : Session α :=
  requests.foldl serve ⟨.empty kind, []⟩

/-- The positions that pops have answered with, in order. -/
def popped (s : Session α) : List Nat := s.answers.filterMap id

end Session

namespace Request

/-- The node that a request brings. -/
def arrival? : Request α → Option (Arrival α)
  | .push a => some a
  | .pop => none

/-- The nodes that were put in, in order. -/
def arrivals (requests : List (Request α)) : List (Arrival α) := requests.filterMap arrival?

/-- The nodes that no pop has answered with yet, in the order they came. -/
def waiting (kind : SearchKind) (requests : List (Request α)) : List (Arrival α) :=
  (arrivals requests).filter fun a => !(Session.after kind requests).popped.contains a.position

end Request

/-! ## The rule of a search -/

/-- What a node is ranked by, and its age. -/
def Arrival.key (ranking : Ranking) (a : Arrival α) : α × α × Nat :=
  match ranking with
  | .total => (a.node.f, a.node.h, a.node.sequence)
  | .estimate => (a.node.h, Scale.ofNat a.node.g, a.node.sequence)

/-- Whether a node comes before all others that wait: by one number, then by another, then by age. -/
def Arrival.IsLeast (ranking : Ranking) (waiting : List (Arrival Float)) (a : Arrival Float) : Prop :=
  a ∈ waiting ∧ ∀ b ∈ waiting, b = a ∨
    Prod.Lex Double.Below (Prod.Lex Double.Below (· < ·)) (a.key ranking) (b.key ranking)

/-- Whether a node is the one to be served, among those that wait in the order they came. -/
def SearchKind.IsNext (kind : SearchKind) (waiting : List (Arrival Float)) (a : Arrival Float) : Prop :=
  match kind with
  | .aStar => a.IsLeast .total waiting
  | .greedyBestFirst => a.IsLeast .estimate waiting
  | .breadthFirst => ((waiting.filter (·.novel)).head?.or (waiting.filter (!·.novel)).head?) = some a
  | .depthFirst => ((waiting.filter (·.novel)).getLast?.or (waiting.filter (!·.novel)).getLast?) = some a

/-! ## What a frontier holds -/

section Waiting

variable {waiting : List (Arrival α)} {a b : Arrival α}

omit [Scale α] in
/-- Nodes that wait are told apart by their positions. -/
theorem Arrival.eq_of_position_eq (hpositions : (waiting.map (·.position)).Nodup) (ha : a ∈ waiting)
    (hb : b ∈ waiting) (h : b.position = a.position) : b = a :=
  List.inj_on_of_nodup_map hpositions hb ha h

omit [Scale α] in
/-- A node that waits, and the others. -/
theorem Arrival.perm_cons_filter (hpositions : (waiting.map (·.position)).Nodup) (ha : a ∈ waiting) :
    waiting.Perm (a :: waiting.filter fun b => b.position != a.position) := by
  induction waiting with
  | nil => cases ha
  | cons b rest ih =>
    rw [List.map_cons, List.nodup_cons] at hpositions
    rcases List.mem_cons.mp ha with rfl | ha
    · have hrest : rest.filter (fun b => b.position != a.position) = rest :=
        List.filter_eq_self.mpr fun b hb => bne_iff_ne.mpr fun h => hpositions.1 (h ▸ List.mem_map_of_mem hb)
      rw [List.filter_cons_of_neg (by simp), hrest]
    · have hne : (b.position != a.position) = true :=
        bne_iff_ne.mpr fun h => hpositions.1 (h ▸ List.mem_map_of_mem ha)
      rw [List.filter_cons, if_pos hne]
      exact ((ih hpositions.2 ha).cons b).trans (.swap a b _)

/-- The oldest or the newest of a list. -/
def Service.next? {β : Type} (service : Service) (l : List β) : Option β :=
  match service with
  | .oldest => l.head?
  | .newest => l.getLast?

omit [Scale α] in
/-- **A line that is served loses its oldest or its newest**, and keeps the others as they were. -/
theorem Service.next?_of_pop? {service : Service} {line rest : Line Nat} {i : Nat}
    (hline : line.toList = waiting.map (·.position)) (hpositions : (waiting.map (·.position)).Nodup)
    (hpop : service.pop? line = some (i, rest)) :
    ∃ a, service.next? waiting = some a ∧ a.position = i ∧
      rest.toList = (waiting.filter fun b => b.position != i).map (·.position) := by
  have hothers : ∀ {others : List (Arrival α)}, i ∉ others.map (·.position) →
      others.filter (fun b => b.position != i) = others := fun hi =>
    List.filter_eq_self.mpr fun b hb => bne_iff_ne.mpr fun h => hi (h ▸ List.mem_map_of_mem hb)
  cases service with
  | oldest =>
    rw [Line.toList_of_popOldest? hpop] at hline
    obtain ⟨a, others, rfl, rfl, hrest⟩ := List.map_eq_cons_iff.mp hline.symm
    rw [List.map_cons, List.nodup_cons] at hpositions
    refine ⟨a, rfl, rfl, ?_⟩
    rw [List.filter_cons_of_neg (by simp), hothers hpositions.1, hrest]
  | newest =>
    rw [Line.toList_of_popNewest? hpop] at hline
    obtain ⟨others, last, rfl, hrest, hlast⟩ := List.map_eq_append_iff.mp hline.symm
    obtain ⟨a, rfl, rfl⟩ := List.map_eq_singleton_iff.mp hlast
    have hnot : a.position ∉ others.map (·.position) := by
      rw [List.map_append, List.map_singleton] at hpositions
      exact fun hin => List.disjoint_of_nodup_append hpositions hin (List.mem_singleton_self _)
    refine ⟨a, List.getLast?_concat, rfl, ?_⟩
    rw [List.filter_append, hothers hnot, List.filter_cons_of_neg (by simp), List.filter_nil, List.append_nil, hrest]

omit [Scale α] in
/-- A node that is not of a kind is missed by none of that kind. -/
theorem Arrival.filter_others (hpositions : (waiting.map (·.position)).Nodup) (ha : a ∈ waiting)
    {p : Arrival α → Bool} (hp : p a = false) :
    (waiting.filter fun b => b.position != a.position).filter p = waiting.filter p := by
  rw [List.filter_filter]
  refine List.filter_congr fun b hb => ?_
  cases hpb : p b with
  | false => rfl
  | true =>
    refine bne_iff_ne.mpr fun he => ?_
    rw [Arrival.eq_of_position_eq hpositions ha hb he, hp] at hpb
    cases hpb

omit [Scale α] in
theorem Service.mem_of_next? {service : Service} {p : Arrival α → Bool}
    (h : service.next? (waiting.filter p) = some a) : a ∈ waiting ∧ p a = true := by
  cases service with
  | oldest => exact List.mem_filter.mp (List.mem_of_head? h)
  | newest => exact List.mem_filter.mp (List.mem_of_getLast? h)

omit [Scale α] in
/-- **Serving the line of those of a kind** takes one of them, and leaves the others of both kinds. -/
theorem Service.next?_of_pop?_filter {service : Service} {line rest : Line Nat} {i : Nat} (p : Arrival α → Bool)
    (hpositions : (waiting.map (·.position)).Nodup) (hline : line.toList = (waiting.filter p).map (·.position))
    (hpop : service.pop? line = some (i, rest)) :
    ∃ a, a.position = i ∧ service.next? (waiting.filter p) = some a ∧
      rest.toList = ((waiting.filter fun b => b.position != i).filter p).map (·.position) ∧
      (waiting.filter fun b => b.position != i).filter (!p ·) = waiting.filter (!p ·) := by
  obtain ⟨a, hnext, rfl, hleft⟩ :=
    Service.next?_of_pop? hline (hpositions.sublist (List.filter_sublist.map _)) hpop
  obtain ⟨ha, hp⟩ := Service.mem_of_next? hnext
  exact ⟨a, rfl, hnext, by rw [hleft, List.filter_comm], Arrival.filter_others hpositions ha (by rw [hp]; rfl)⟩

end Waiting

namespace Frontier

/-- The rank of a node that arrives. -/
def rankOf (ranking : Ranking) (a : Arrival α) : Ranked α := rank ranking a.position a.node

/-- A frontier holds the nodes that wait: their ranks in an ordered heap, or their positions in two lines, those of
nodes with something new apart. -/
inductive Holds (kind : SearchKind) (waiting : List (Arrival α)) : Frontier α → Prop where
  | ranked {r : Ranking} {heap : Heap (Ranked α)} (rule : (empty kind : Frontier α) = .ranked r .empty)
      (ordered : heap.Ordered Ranked.before) (entries : heap.toList.Perm (waiting.map (rankOf r))) :
      Holds kind waiting (.ranked r heap)
  | lines {service : Service} {fresh rest : Line Nat} (rule : (empty kind : Frontier α) = .lines service {} {})
      (novel : fresh.toList = (waiting.filter (·.novel)).map (·.position))
      (others : rest.toList = (waiting.filter (!·.novel)).map (·.position)) :
      Holds kind waiting (.lines service fresh rest)

/-- Whether a node comes before all others that wait, as the rule of a frontier compares them. -/
inductive Serves (kind : SearchKind) (waiting : List (Arrival α)) (a : Arrival α) : Prop where
  | ranked {r : Ranking} (rule : (empty kind : Frontier α) = .ranked r .empty) (waits : a ∈ waiting)
      (first : ∀ b ∈ waiting, b = a ∨ (rankOf r a).compare (rankOf r b) = .lt)
  | lines {service : Service} (rule : (empty kind : Frontier α) = .lines service {} {})
      (next : ((service.next? (waiting.filter (·.novel))).or (service.next? (waiting.filter (!·.novel)))) = some a)

variable {waiting : List (Arrival α)} {q next : Frontier α} {i : Nat} {kind : SearchKind}

theorem Holds.empty (kind : SearchKind) : Holds kind [] (empty kind : Frontier α) := by
  cases kind
  · exact .ranked rfl trivial (.refl _)
  · exact .ranked rfl trivial (.refl _)
  · exact .lines rfl rfl rfl
  · exact .lines rfl rfl rfl

/-- What a frontier holds is what waits. -/
theorem Holds.toList (h : Holds kind waiting q) : q.toList.Perm (waiting.map (·.position)) := by
  cases h with
  | @ranked r heap rule ordered entries =>
    have hmap := entries.map (·.position)
    rwa [List.map_map, show (·.position) ∘ rankOf (α := α) r = (·.position) from
      funext fun a => position_rank r a.position a.node] at hmap
  | lines rule novel others =>
    rw [Frontier.toList, novel, others, ← List.map_append]
    exact (List.filter_append_perm (·.novel) waiting).map _

/-- **A frontier that takes a node holds it with what waited before.** -/
theorem Holds.push [Std.TransCmp (Scale.compare : α → α → Ordering)] (h : Holds kind waiting q) (a : Arrival α) :
    Holds kind (waiting ++ [a]) (q.push a.position a.node a.novel) := by
  cases h with
  | @ranked r heap rule ordered entries =>
    refine .ranked rule (ordered.push Ranked.strictOrder _) ?_
    rw [List.map_append]
    exact (Heap.toList_push Ranked.before heap _).trans ((entries.cons _).trans (List.perm_append_singleton _ _).symm)
  | @lines service fresh rest rule novel others =>
    unfold Frontier.push
    cases ha : a.novel with
    | true =>
      refine .lines rule ?_ ?_
      · simp [ha, novel]
      · simp [ha, others]
    | false =>
      refine .lines rule ?_ ?_
      · simp [ha, novel]
      · simp [ha, others]

/-- Ranks that compare equal are of one age. -/
theorem sequence_eq_of_compare {x y : Ranked α} (h : x.compare y = .eq) : x.sequence = y.sequence := by
  rw [Ranked.compare, Ordering.then_eq_eq] at h
  exact Nat.compare_eq_eq.mp h.2

/-- A heap is served from its top, and no two nodes are of one age. -/
theorem Holds.of_pop?_ranked [Std.TransCmp (Scale.compare : α → α → Ordering)] {r : Ranking} {heap : Heap (Ranked α)}
    (rule : (Frontier.empty kind : Frontier α) = .ranked r .empty) (ordered : heap.Ordered Ranked.before)
    (entries : heap.toList.Perm (waiting.map (rankOf r))) (hpositions : (waiting.map (·.position)).Nodup)
    (hsequences : (waiting.map (·.node.sequence)).Nodup) (hpop : (Frontier.ranked r heap).pop? = some (i, next)) :
    (∃ a, a.position = i ∧ Serves kind waiting a) ∧
      Holds kind (waiting.filter fun b => b.position != i) next := by
  obtain ⟨⟨x, rest⟩, hx, he⟩ := Option.map_eq_some_iff.mp hpop
  cases he
  have hperm := Heap.toList_of_pop? hx
  obtain ⟨hordered, hfirst⟩ := ordered.of_pop? Ranked.strictOrder hx
  obtain ⟨a, ha, rfl⟩ := List.mem_map.mp ((hperm.symm.trans entries).mem_iff.mp List.mem_cons_self)
  have hposition : (rankOf r a).position = a.position := position_rank r a.position a.node
  have hsplit := Arrival.perm_cons_filter hpositions ha
  have hrest : rest.toList.Perm ((waiting.filter fun b => b.position != a.position).map (rankOf r)) :=
    ((hperm.symm.trans entries).trans (hsplit.map (rankOf r))).cons_inv
  rw [hposition]
  refine ⟨⟨a, rfl, .ranked rule ha fun b hb => ?_⟩, .ranked rule hordered hrest⟩
  rcases List.mem_cons.mp (hsplit.mem_iff.mp hb) with rfl | hb'
  · exact .inl rfl
  · have hle : (rankOf r b).compare (rankOf r a) ≠ .lt :=
      beq_eq_false_iff_ne.mp (hfirst _ (hrest.mem_iff.mpr (List.mem_map_of_mem hb')))
    cases hcompare : (rankOf r b).compare (rankOf r a) with
    | lt => exact absurd hcompare hle
    | eq =>
      refine .inl (List.inj_on_of_nodup_map hsequences hb ha ?_)
      have hage := sequence_eq_of_compare hcompare
      cases r <;> exact hage
    | gt => exact .inr (Std.OrientedCmp.lt_of_gt hcompare)

/-- Of two lines the first is served as long as one waits there. -/
theorem Holds.of_pop?_lines {service : Service} {fresh rest : Line Nat}
    (rule : (Frontier.empty kind : Frontier α) = .lines service {} {})
    (novel : fresh.toList = (waiting.filter (·.novel)).map (·.position))
    (others : rest.toList = (waiting.filter (!·.novel)).map (·.position))
    (hpositions : (waiting.map (·.position)).Nodup)
    (hpop : (Frontier.lines service fresh rest : Frontier α).pop? = some (i, next)) :
    (∃ a, a.position = i ∧ Serves kind waiting a) ∧
      Holds kind (waiting.filter fun b => b.position != i) next := by
  simp only [pop?] at hpop
  split at hpop
  · rename_i j fresh' hserve
    cases hpop
    obtain ⟨a, hposition, hnext, hleft, hkept⟩ := Service.next?_of_pop?_filter (·.novel) hpositions novel hserve
    refine ⟨⟨a, hposition, .lines rule (by rw [hnext, Option.some_or])⟩, .lines rule hleft ?_⟩
    rw [others, hkept]
  · rename_i hnone
    obtain ⟨⟨j, rest'⟩, hserve, he⟩ := Option.map_eq_some_iff.mp hpop
    cases he
    obtain ⟨a, hposition, hnext, hleft, hkept⟩ := Service.next?_of_pop?_filter (!·.novel) hpositions others hserve
    have hfirst : service.next? (waiting.filter (·.novel)) = none := by
      rw [serve_eq_none, novel, List.map_eq_nil_iff] at hnone
      rw [hnone]
      cases service <;> rfl
    simp only [Bool.not_not] at hkept
    refine ⟨⟨a, hposition, .lines rule (by rw [hfirst, Option.none_or, hnext])⟩, .lines rule ?_ hleft⟩
    rw [novel, hkept]

/-- **A pop answers with the node that is next**, and leaves the others. -/
theorem Holds.of_pop? [Std.TransCmp (Scale.compare : α → α → Ordering)] (h : Holds kind waiting q)
    (hpositions : (waiting.map (·.position)).Nodup) (hsequences : (waiting.map (·.node.sequence)).Nodup)
    (hpop : q.pop? = some (i, next)) :
    (∃ a, a.position = i ∧ Serves kind waiting a) ∧
      Holds kind (waiting.filter fun b => b.position != i) next := by
  cases h with
  | ranked rule ordered entries => exact Holds.of_pop?_ranked rule ordered entries hpositions hsequences hpop
  | lines rule novel others => exact Holds.of_pop?_lines rule novel others hpositions hpop

/-- **The order of ranks is the order of keys**, one number after another. -/
theorem compare_rankOf {r : Ranking} {a b : Arrival Float} : (rankOf r a).compare (rankOf r b) = .lt ↔
    Prod.Lex Double.Below (Prod.Lex Double.Below (· < ·)) (a.key r) (b.key r) := by
  have hthree : ∀ (f g : Float) (h k : Float) (m n : Nat),
      ((Scale.compare f g).then (Scale.compare h k)).then (compare m n) = .lt ↔
        Prod.Lex Double.Below (Prod.Lex Double.Below (· < ·)) (f, h, m) (g, k, n) := by
    intro f g h k m n
    rw [Ordering.then_assoc, Ordering.then_eq_lt, Ordering.then_eq_lt, Double.compare_eq_lt, Double.compare_eq_eq,
      Double.compare_eq_lt, Double.compare_eq_eq, Nat.compare_eq_lt, Prod.lex_def, Prod.lex_def]
  cases r <;> exact hthree _ _ _ _ _ _

/-- What a frontier serves is next by the rule of its search. -/
theorem Serves.isNext {waiting : List (Arrival Float)} {a : Arrival Float} (h : Serves kind waiting a) :
    kind.IsNext waiting a := by
  cases h with
  | ranked rule waits first =>
    cases kind with
    | aStar | greedyBestFirst =>
      cases rule
      exact ⟨waits, fun b hb => (first b hb).imp_right compare_rankOf.mp⟩
    | breadthFirst | depthFirst => cases rule
  | lines rule next =>
    cases kind with
    | aStar | greedyBestFirst => cases rule
    | breadthFirst | depthFirst =>
      cases rule
      exact next

end Frontier

/-! ## Whole sessions -/

section Sessions

variable {kind : SearchKind} {requests : List (Request α)} {a : Arrival α} {i : Nat} {next : Frontier α}

theorem Session.after_snoc (r : Request α) :
    Session.after kind (requests ++ [r]) = (Session.after kind requests).serve r :=
  List.foldl_append

omit [Scale α] in
@[simp] theorem Request.arrivals_push :
    Request.arrivals (requests ++ [.push a]) = Request.arrivals requests ++ [a] :=
  List.filterMap_append

omit [Scale α] in
@[simp] theorem Request.arrivals_pop : Request.arrivals (requests ++ [.pop]) = Request.arrivals requests :=
  List.filterMap_append.trans (List.append_nil _)

theorem Session.popped_push : (Session.after kind (requests ++ [.push a])).popped =
    (Session.after kind requests).popped := by
  rw [after_snoc, serve]
  rfl

/-- A pop that an empty frontier could not serve changes nothing. -/
theorem Session.popped_pop_none (hpop : (Session.after kind requests).frontier.pop? = none) :
    (Session.after kind (requests ++ [.pop])).popped = (Session.after kind requests).popped ∧
      (Session.after kind (requests ++ [.pop])).frontier = (Session.after kind requests).frontier := by
  rw [after_snoc]
  simp [serve, hpop, popped]

/-- A pop that was served has one more answer. -/
theorem Session.popped_pop_some (hpop : (Session.after kind requests).frontier.pop? = some (i, next)) :
    (Session.after kind (requests ++ [.pop])).popped = (Session.after kind requests).popped ++ [i] ∧
      (Session.after kind (requests ++ [.pop])).frontier = next := by
  rw [after_snoc]
  simp [serve, hpop, popped]

/-- A node that has just come waits behind the others. -/
theorem Request.waiting_push (ha : a.position ∉ (Session.after kind requests).popped) :
    Request.waiting kind (requests ++ [.push a]) = Request.waiting kind requests ++ [a] := by
  rw [waiting, Session.popped_push, arrivals_push, List.filter_append, waiting, List.filter_cons, if_pos (by simp [ha])]
  rfl

/-- A pop that was served leaves the others waiting. -/
theorem Request.waiting_pop (hpop : (Session.after kind requests).frontier.pop? = some (i, next)) :
    Request.waiting kind (requests ++ [.pop]) =
      (Request.waiting kind requests).filter fun b => b.position != i := by
  rw [waiting, (Session.popped_pop_some hpop).1, arrivals_pop, waiting, List.filter_filter]
  refine List.filter_congr fun b _ => ?_
  simp only [List.contains_eq_mem, List.mem_append, List.mem_singleton, Bool.decide_or, Bool.not_or, bne, beq_eq_decide]
  exact Bool.and_comm _ _

/-- What waits came in. -/
theorem Request.waiting_sublist (kind : SearchKind) (requests : List (Request α)) :
    (Request.waiting kind requests).Sublist (Request.arrivals requests) :=
  List.filter_sublist

/-- **Nothing is lost**: what came in was answered with or is in the frontier still. -/
theorem Session.perm_arrivals (kind : SearchKind) (requests : List (Request α)) :
    ((Session.after kind requests).popped ++ (Session.after kind requests).frontier.toList).Perm
      ((Request.arrivals requests).map (·.position)) := by
  induction requests using List.reverseRecOn with
  | nil => exact .of_eq (Frontier.toList_empty kind)
  | append_singleton requests r ih =>
    cases r with
    | push a =>
      rw [popped_push, Request.arrivals_push, List.map_append]
      have hpush := Frontier.toList_push (Session.after kind requests).frontier a.position a.node a.novel
      rw [after_snoc]
      refine (hpush.append_left _).trans (List.perm_middle.trans ?_)
      exact (ih.cons _).trans (List.perm_append_singleton _ _).symm
    | pop =>
      rw [Request.arrivals_pop]
      cases hpop : (Session.after kind requests).frontier.pop? with
      | none => rwa [(popped_pop_none hpop).1, (popped_pop_none hpop).2]
      | some answer =>
        rw [(popped_pop_some hpop).1, (popped_pop_some hpop).2, List.append_assoc]
        exact ((Frontier.toList_of_pop? hpop).symm.append_left _).trans ih

/-- **A frontier holds what waits**, whatever it was asked for. -/
theorem Session.holds [Std.TransCmp (Scale.compare : α → α → Ordering)] (kind : SearchKind)
    (hpositions : ((Request.arrivals requests).map (·.position)).Nodup)
    (hsequences : ((Request.arrivals requests).map (·.node.sequence)).Nodup) :
    Frontier.Holds kind (Request.waiting kind requests) (Session.after kind requests).frontier := by
  induction requests using List.reverseRecOn with
  | nil => exact Frontier.Holds.empty kind
  | append_singleton requests r ih =>
    cases r with
    | push a =>
      rw [Request.arrivals_push, List.map_append] at hpositions hsequences
      have hholds := ih (hpositions.sublist (List.sublist_append_left _ _))
        (hsequences.sublist (List.sublist_append_left _ _))
      have hnew : a.position ∉ (Session.after kind requests).popped := fun ha =>
        List.disjoint_of_nodup_append hpositions
          ((perm_arrivals kind requests).mem_iff.mp (List.mem_append_left _ ha)) (List.mem_singleton_self _)
      rw [Request.waiting_push hnew, after_snoc]
      exact hholds.push a
    | pop =>
      rw [Request.arrivals_pop] at hpositions hsequences
      have hholds := ih hpositions hsequences
      have hsub := Request.waiting_sublist kind requests
      cases hpop : (Session.after kind requests).frontier.pop? with
      | none =>
        rw [Request.waiting, (popped_pop_none hpop).1, (popped_pop_none hpop).2, Request.arrivals_pop]
        exact hholds
      | some answer =>
        rw [Request.waiting_pop hpop, (popped_pop_some hpop).2]
        exact (hholds.of_pop? (hpositions.sublist (hsub.map _)) (hsequences.sublist (hsub.map _)) hpop).2

end Sessions

/-- **Nodes are served in the order of the search**: whatever a frontier was asked for, as long as no position and no
age was given to two nodes, what its pops answered with and what it holds are what came in, and what it holds is what
no pop has answered with; it counts right; it gives nothing only when nothing waits; and what it gives next is, of
all that wait, the one next by the rule. -/
theorem Frontier.serves_in_order (kind : SearchKind) (requests : List (Request Float))
    (hpositions : ((Request.arrivals requests).map (·.position)).Nodup)
    (hsequences : ((Request.arrivals requests).map (·.node.sequence)).Nodup) :
    let s := Session.after kind requests
    let waiting := Request.waiting kind requests
    (s.popped ++ s.frontier.toList).Perm ((Request.arrivals requests).map (·.position)) ∧
      s.frontier.toList.Perm (waiting.map (·.position)) ∧
      s.frontier.size + s.popped.length = (Request.arrivals requests).length ∧
      (s.frontier.pop? = none ↔ waiting = []) ∧
      ∀ i next, s.frontier.pop? = some (i, next) → ∃ a, a.position = i ∧ kind.IsNext waiting a := by
  have hholds := Session.holds kind hpositions hsequences
  have hperm := Session.perm_arrivals kind requests
  have hsub := Request.waiting_sublist kind requests
  refine ⟨hperm, hholds.toList, ?_, ?_, fun i next hpop => ?_⟩
  · have hlength := hperm.length_eq
    rwa [List.length_append, Frontier.length_toList, List.length_map, Nat.add_comm] at hlength
  · rw [Frontier.pop?_eq_none, ← List.length_eq_zero_iff, hholds.toList.length_eq, List.length_map,
      List.length_eq_zero_iff]
  · obtain ⟨⟨a, hposition, hserves⟩, -⟩ :=
      hholds.of_pop? (hpositions.sublist (hsub.map _)) (hsequences.sublist (hsub.map _)) hpop
    exact ⟨a, hposition, hserves.isNext⟩

/-- A node of which only its total and its age are looked at. -/
def Request.total (f : Float) (sequence : Nat) : Request Float :=
  .push ⟨sequence, ⟨⟨.empty 0, []⟩, none, none, 0, f, f, sequence, 0, none⟩, false⟩

/-- Of two nodes that cost nothing the younger is served first, as its zero has a sign. -/
theorem Frontier.serves_in_order_zeros :
    let requests := [.total 1.0 0, .pop, .total 0.0 1, .total (-0.0) 2]
    ((Request.arrivals requests).map (·.position)).Nodup ∧
      ((Request.arrivals requests).map (·.node.sequence)).Nodup ∧
      (Session.after .aStar requests).popped = [0] ∧
      ∃ next, (Session.after .aStar requests).frontier.pop? = some (2, next) ∧
        ∃ a, a.position = 2 ∧ SearchKind.aStar.IsNext (Request.waiting .aStar requests) a := by
  intro requests
  have hpositions : ((Request.arrivals requests).map (·.position)).Nodup := by decide
  have hsequences : ((Request.arrivals requests).map (·.node.sequence)).Nodup := by decide
  have hpop : ((Session.after .aStar requests).frontier.pop?.map (·.1)) = some 2 := by decide +kernel
  obtain ⟨⟨i, next⟩, hpop, rfl⟩ := Option.map_eq_some_iff.mp hpop
  obtain ⟨-, -, -, -, hnext⟩ := serves_in_order .aStar requests hpositions hsequences
  exact ⟨hpositions, hsequences, by decide +kernel, next, hpop, hnext _ next hpop⟩

end HierPlan
