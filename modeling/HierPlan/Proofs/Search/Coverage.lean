import HierPlan.Proofs.Search.Arena

/-!
# Proofs/Search/Coverage — nothing worth keeping is lost

    every node   waits,   or it is no goal and each of its moves is answered for

A move is answered for when some node stands where it leads, at no greater cost — or when that place is
not worth a node, being a dead end that the heuristic is right about.  A search that keeps the least cost
of a key in place of a node may confuse two situations; it then answers for the other one
(`Search.Confuses`), and only a key that tells apart what the search met makes up for that
(`Run.Separated`).  `Run.Covers` is the invariant, kept by every step (`Search.covers_step`).

**So along a walk to a goal that is worth keeping a node waits** (`Run.Covers.exists_waiting`), at no
greater cost than the walk had so far.
-/

namespace HierPlan

variable {α : Type} [Scale α]

/-! ## What is answered for -/

/-- Whether a search may take one situation for another. -/
def Search.Confuses (x : Search) (a b : Situation) : Prop :=
  a = b ∨ (x.options.revisit = .hashedKey ∧ x.key a = x.key b)

namespace Run

variable {x : Search} {W : Situation → Prop} {s s' : Run α}

/-- The start, and every situation one move away from a node. -/
def Met (x : Search) (s : Run α) (t : Situation) : Prop :=
  t = x.model.start ∨
    ∃ (k : Nat) (n : Node α) (v : Move),
      s.nodes[k]? = some n ∧ v ∈ n.situation.moves x.model ∧ v.next = t

/-- The key of a search tells apart all situations it met. -/
def Separated (x : Search) (s : Run α) : Prop :=
  ∀ a b, s.Met x a → s.Met x b → x.key a = x.key b → a = b

/-- Some node stands for a situation at no greater cost. -/
def Holds (s : Run α) (t : Situation) (g : Nat) : Prop :=
  ∃ (k : Nat) (n : Node α), s.nodes[k]? = some n ∧ n.situation = t ∧ n.g ≤ g

/-- A situation, or one it was confused with, has its node unless it is not worth one. -/
def Answers (x : Search) (W : Situation → Prop) (s : Run α) (t : Situation) (g : Nat) : Prop :=
  ∃ u, x.Confuses u t ∧ s.Met x u ∧ (W u → s.Holds u g)

/-- All nodes of one run are nodes of another, but for their marks. -/
def Extends (s s' : Run α) : Prop :=
  ∀ (k : Nat) (n : Node α), s.nodes[k]? = some n → ∃ marks, s'.nodes[k]? = some { n with marks }

omit [Scale α] in
theorem Met.mono (h : Extends s s') {t : Situation} (ht : s.Met x t) : s'.Met x t := by
  rcases ht with rfl | ⟨k, n, v, hn, hv, rfl⟩
  · exact .inl rfl
  · obtain ⟨marks, hn'⟩ := h k n hn
    exact .inr ⟨k, _, v, hn', hv, rfl⟩

omit [Scale α] in
theorem Holds.mono (h : Extends s s') {t : Situation} {g g' : Nat} (ht : s.Holds t g) (hg : g ≤ g') :
    s'.Holds t g' := by
  obtain ⟨k, n, hn, rfl, hle⟩ := ht
  obtain ⟨marks, hn'⟩ := h k n hn
  exact ⟨k, _, hn', rfl, Nat.le_trans hle hg⟩

omit [Scale α] in
theorem Answers.mono (h : Extends s s') {t : Situation} {g : Nat} (ht : s.Answers x W t g) :
    s'.Answers x W t g := by
  obtain ⟨u, hu, hmet, hholds⟩ := ht
  exact ⟨u, hu, hmet.mono h, fun hw => (hholds hw).mono h (Nat.le_refl g)⟩

end Run

/-! ## What is asked of a heuristic -/

/-- Whether an estimator can go on from the marks of a node. -/
def Estimator.Accepts (m : Model) : Estimator α → Option Marks → Prop
  | .landmarkCount _, marks => ∃ k, marks = some k ∧ k.landmarks.width = m.size
  | _, _ => True

/-- An estimator calls no situation worth keeping a dead end. -/
def Estimator.Safe (m : Model) (W : Situation → Prop) (e : Estimator α) : Prop :=
  ∀ (h : Heuristic α), h.estimator = e → ∀ (a : Situation) (marks : Option Marks) (v : Move),
    e.Accepts m marks → W v.next → Scale.isFinite (h.atMove m a marks v).1.value = true

theorem Heuristic.estimator_atMove (h : Heuristic α) (m : Model) (a : Situation)
    (marks : Option Marks) (v : Move) : (h.atMove m a marks v).2.estimator = h.estimator := rfl

/-- The marks of a move are good to go on from when those of its node are. -/
theorem Heuristic.accepts_atMove {h : Heuristic α} {m : Model} {a : Situation} {marks : Option Marks}
    {v : Move} (hm : h.estimator.Accepts m marks) :
    h.estimator.Accepts m (h.atMove m a marks v).1.marks := by
  obtain ⟨e, statistics⟩ := h
  cases e with
  | landmarkCount c =>
    obtain ⟨k, rfl, hk⟩ := hm
    exact ⟨_, rfl, hk⟩
  | blind => trivial
  | decomposition t => trivial
  | landmarkCut k => trivial

/-! ## The invariant -/

/-- Every node waits or is settled, the node at position `skip` excepted. -/
structure Run.Covers (x : Search) (W : Situation → Prop) (skip : Option Nat) (s : Run α) : Prop where
  nodup : s.frontier.toList.Nodup
  bound : ∀ i ∈ s.frontier.toList, i < s.nodes.size
  marks : ∀ i ∈ s.frontier.toList, ∀ n : Node α, s.nodes[i]? = some n →
    s.heuristic.estimator.Accepts x.model n.marks
  /-- A remembered key is that of a situation met, and of its node if it is worth one. -/
  closed : ∀ (k : UInt64) (g : Nat), s.closed[k]? = some g → x.options.revisit = .hashedKey ∧
    ∃ t, x.key t = k ∧ s.Met x t ∧ (W t → s.Holds t g)
  settled : ∀ (i : Nat) (n : Node α), s.nodes[i]? = some n → i ∉ s.frontier.toList → some i ≠ skip →
    n.situation.isGoal x.model = false ∧
      ∀ v ∈ n.situation.moves x.model, s.Answers x W v.next (n.g + v.cost)

namespace Run

variable {x : Search} {W : Situation → Prop} {s s' : Run α} {i : Nat} {n : Node α} {v : Move}

/-- What holds while the moves of a node are offered. -/
structure Opened (x : Search) (W : Situation → Prop) (i : Nat) (n : Node α) (s : Run α) : Prop where
  covers : s.Covers x W (some i)
  node : s.nodes[i]? = some n
  taken : i ∉ s.frontier.toList
  accepts : s.heuristic.estimator.Accepts x.model n.marks
  safe : s.heuristic.estimator.Safe x.model W

omit [Scale α] in
theorem extends_of_push {c : Node α} (h : s'.nodes = s.nodes.push c) : Extends s s' :=
  fun _ n hn => ⟨n.marks, h ▸ Arena.getElem?_push_of_some hn⟩

omit [Scale α] in
theorem extends_of_nodes_eq (h : s'.nodes = s.nodes) : Extends s s' := fun _ n hn => ⟨n.marks, h ▸ hn⟩

omit [Scale α] in
theorem Extends.trans {s'' : Run α} (h : Extends s s') (k : Extends s' s'') : Extends s s'' := by
  intro j n hn
  obtain ⟨marks, hn'⟩ := h j n hn
  obtain ⟨marks', hn''⟩ := k j _ hn'
  exact ⟨marks', hn''⟩

/-- A move that is offered adds a node at most. -/
theorem Offered.extends (ho : s.Offered x i n v s') : Extends s s' := by
  cases ho with
  | revisit => exact extends_of_nodes_eq rfl
  | new _ estimated =>
    cases estimated with
    | deadEnd => exact extends_of_nodes_eq (nodes_remember ..)
    | kept => exact extends_of_push (by rw [nodes_remember])

omit [Scale α] in
theorem getElem?_closed_remember {key : Option UInt64} {g : Nat} {k : UInt64} :
    (s.remember key g).closed[k]? = if key = some k then some g else s.closed[k]? := by
  cases key with
  | none => rfl
  | some j =>
    unfold remember
    dsimp only
    rw [Std.HashMap.getElem?_insert]
    by_cases hj : j = k
    · rw [if_pos (beq_iff_eq.mpr hj), if_pos (congrArg some hj)]
    · rw [if_neg (fun h => hj (beq_iff_eq.mp h)), if_neg (fun h => hj (Option.some.inj h))]

omit [Scale α] in
/-- Keys are looked at when revisits are detected only. -/
theorem key?_eq_some {t : Situation} {k : UInt64} (h : x.key? t = some k) :
    x.options.revisit = .hashedKey ∧ x.key t = k := by
  unfold Search.key? at h
  split at h
  · cases h
  · rename_i hr
    exact ⟨hr, Option.some.inj h⟩

namespace Opened

/-- The move leads to a situation that is met. -/
theorem met (h : s.Opened x W i n) (hv : v ∈ n.situation.moves x.model) : s.Met x v.next :=
  .inr ⟨i, n, v, h.node, hv, rfl⟩

/-- **A revisit is answered for** by what its key was met at. -/
theorem answers_of_revisit (h : s.Opened x W i n) {g : Nat}
    (known : s.isRevisit (x.key? v.next) g = true) : s.Answers x W v.next g := by
  unfold isRevisit at known
  obtain ⟨k, hk, hany⟩ := Option.any_eq_true _ _ |>.mp known
  obtain ⟨g₀, hg₀, hle⟩ := Option.any_eq_true _ _ |>.mp hany
  obtain ⟨hashed, t, hkey, hmet, hholds⟩ := h.covers.closed k g₀ hg₀
  refine ⟨t, .inr ⟨hashed, hkey.trans (key?_eq_some hk).2.symm⟩, hmet, fun hw => ?_⟩
  exact (hholds hw).mono (extends_of_nodes_eq rfl) (of_decide_eq_true hle)

/-- What was remembered is still right when the key of a move is remembered that is answered for. -/
theorem closed_remember (h : s.Opened x W i n) (hv : v ∈ n.situation.moves x.model) {g : Nat}
    (hext : Extends s s') (hclosed : s'.closed = (s.remember (x.key? v.next) g).closed)
    (hholds : W v.next → s'.Holds v.next g) (k : UInt64) (g' : Nat) (hk : s'.closed[k]? = some g') :
    x.options.revisit = .hashedKey ∧ ∃ t, x.key t = k ∧ s'.Met x t ∧ (W t → s'.Holds t g') := by
  rw [hclosed, getElem?_closed_remember] at hk
  split at hk
  · rename_i hkey
    obtain rfl := Option.some.inj hk
    exact ⟨(key?_eq_some hkey).1, v.next, (key?_eq_some hkey).2, (h.met hv).mono hext, hholds⟩
  · obtain ⟨hashed, t, hkey, hmet, hold⟩ := h.covers.closed k g' hk
    exact ⟨hashed, t, hkey, hmet.mono hext, fun hw => (hold hw).mono hext (Nat.le_refl g')⟩

/-- A settled node stays settled in a longer run. -/
theorem settled_mono (h : s.Opened x W i n) (hext : Extends s s') {k : Nat} {q : Node α}
    (hq : s.nodes[k]? = some q) (hk : k ∉ s.frontier.toList) (hskip : some k ≠ some i) :
    q.situation.isGoal x.model = false ∧
      ∀ v ∈ q.situation.moves x.model, s'.Answers x W v.next (q.g + v.cost) := by
  obtain ⟨hgoal, hans⟩ := h.covers.settled k q hq hk hskip
  exact ⟨hgoal, fun v hv => (hans v hv).mono hext⟩

/-- **A dead end is answered for**: it is not worth a node. -/
theorem deadEnd (h : s.Opened x W i n) (hv : v ∈ n.situation.moves x.model)
    (hnodes : s'.nodes = s.nodes) (hfrontier : s'.frontier = s.frontier)
    (hestimator : s'.heuristic.estimator = s.heuristic.estimator)
    (hclosed : s'.closed = (s.remember (x.key? v.next) (n.g + v.cost)).closed) (hw : ¬ W v.next) :
    s'.Opened x W i n ∧ s'.Answers x W v.next (n.g + v.cost) ∧ Extends s s' := by
  have hext : Extends s s' := extends_of_nodes_eq hnodes
  refine ⟨⟨⟨?_, ?_, ?_, ?_, ?_⟩, ?_, ?_, ?_, ?_⟩,
    ⟨v.next, .inl rfl, (h.met hv).mono hext, fun hin => absurd hin hw⟩, hext⟩
  · exact hfrontier ▸ h.covers.nodup
  · rw [hfrontier, hnodes]
    exact h.covers.bound
  · rw [hfrontier, hnodes, hestimator]
    exact h.covers.marks
  · exact h.closed_remember hv hext hclosed fun hin => absurd hin hw
  · rw [hfrontier, hnodes]
    exact fun k q hq hk hskip => h.settled_mono hext hq hk hskip
  · exact hnodes ▸ h.node
  · exact hfrontier ▸ h.taken
  · exact hestimator ▸ h.accepts
  · exact hestimator ▸ h.safe

/-- **A kept move is answered for** by the node that is new. -/
theorem kept (h : s.Opened x W i n) (hv : v ∈ n.situation.moves x.model) {c : Node α} {novel : Bool}
    (hnodes : s'.nodes = s.nodes.push c)
    (hfrontier : s'.frontier = s.frontier.push s.nodes.size c novel)
    (hestimator : s'.heuristic.estimator = s.heuristic.estimator)
    (hclosed : s'.closed = (s.remember (x.key? v.next) (n.g + v.cost)).closed)
    (hsituation : c.situation = v.next) (hg : c.g = n.g + v.cost)
    (hmarks : s.heuristic.estimator.Accepts x.model c.marks) :
    s'.Opened x W i n ∧ s'.Answers x W v.next (n.g + v.cost) ∧ Extends s s' := by
  have hext : Extends s s' := extends_of_push hnodes
  have hlist : s'.frontier.toList.Perm (s.nodes.size :: s.frontier.toList) :=
    hfrontier ▸ Frontier.toList_push ..
  have hwaits : ∀ {k : Nat}, k ∈ s'.frontier.toList ↔ k = s.nodes.size ∨ k ∈ s.frontier.toList := by
    intro k
    rw [hlist.mem_iff, List.mem_cons]
  have hnew : s'.nodes[s.nodes.size]? = some c := by
    rw [hnodes, Array.getElem?_push_size]
  have hholds : s'.Holds v.next (n.g + v.cost) := ⟨_, c, hnew, hsituation, Nat.le_of_eq hg⟩
  obtain ⟨hi, -⟩ := Array.getElem?_eq_some_iff.mp h.node
  refine ⟨⟨⟨?_, ?_, ?_, ?_, ?_⟩, ?_, ?_, ?_, ?_⟩,
    ⟨v.next, .inl rfl, (h.met hv).mono hext, fun _ => hholds⟩, hext⟩
  · rw [hlist.nodup_iff, List.nodup_cons]
    exact ⟨fun hin => Nat.lt_irrefl _ (h.covers.bound _ hin), h.covers.nodup⟩
  · intro k hk
    rw [hnodes, Array.size_push]
    rcases hwaits.mp hk with rfl | hk
    · exact Nat.lt_succ_self _
    · exact Nat.lt_succ_of_lt (h.covers.bound k hk)
  · intro k hk q hq
    rw [hestimator]
    rw [hnodes] at hq
    rcases Arena.getElem?_push_cases hq with ⟨hlt, hq⟩ | ⟨-, rfl⟩
    · refine h.covers.marks k ((hwaits.mp hk).resolve_left fun he => ?_) q hq
      exact Nat.lt_irrefl _ (he ▸ hlt)
    · exact hmarks
  · exact h.closed_remember hv hext hclosed fun _ => hholds
  · intro k q hq hk hskip
    rw [hnodes] at hq
    rcases Arena.getElem?_push_cases hq with ⟨-, hq⟩ | ⟨rfl, -⟩
    · exact h.settled_mono hext hq (fun hin => hk (hwaits.mpr (.inr hin))) hskip
    · exact absurd (hwaits.mpr (.inl rfl)) hk
  · exact hnodes ▸ Arena.getElem?_push_of_some h.node
  · intro hin
    rcases hwaits.mp hin with rfl | hin
    · exact Nat.lt_irrefl _ hi
    · exact h.taken hin
  · exact hestimator ▸ h.accepts
  · exact hestimator ▸ h.safe

/-- **A move that is offered is answered for**, and nothing that was is given up. -/
theorem offered (h : s.Opened x W i n) (hv : v ∈ n.situation.moves x.model)
    (ho : s.Offered x i n v s') :
    s'.Opened x W i n ∧ s'.Answers x W v.next (n.g + v.cost) ∧ Extends s s' := by
  cases ho with
  | revisit known =>
    obtain ⟨hcov, hnode, htaken, hacc, hsafe⟩ := h
    have hext : Extends s ({ s.see (.prune (n.g + v.cost) (n.depth + 1) v.transition) with
        pruned := s.pruned + 1 } : Run α) := extends_of_nodes_eq rfl
    exact ⟨⟨⟨hcov.nodup, hcov.bound, hcov.marks, hcov.closed, hcov.settled⟩, hnode, htaken, hacc,
      hsafe⟩, (answers_of_revisit ⟨hcov, hnode, htaken, hacc, hsafe⟩ known).mono hext, hext⟩
  | new fresh estimated =>
    cases estimated with
    | deadEnd infinite =>
      rw [heuristic_remember] at infinite
      refine h.deadEnd hv (nodes_remember ..) (frontier_remember ..) ?_ rfl fun hw => ?_
      · dsimp only
        rw [Heuristic.estimator_atMove, heuristic_remember]
      · rw [h.safe s.heuristic rfl n.situation n.marks v h.accepts hw] at infinite
        cases infinite
    | kept finite child =>
      rw [heuristic_remember] at child
      refine h.kept hv (by rw [nodes_remember]) (by rw [nodes_remember, frontier_remember]) ?_ rfl
        (by rw [child]; rfl) (by rw [child]; rfl) ?_
      · dsimp only
        rw [Heuristic.estimator_atMove, heuristic_remember]
      · rw [child]
        exact Heuristic.accepts_atMove h.accepts

/-- **Once all its moves are answered for, a node is settled**, and its marks may go. -/
theorem close (h : s.Opened x W i n) (hgoal : n.situation.isGoal x.model = false)
    (hmoves : ∀ v ∈ n.situation.moves x.model, s.Answers x W v.next (n.g + v.cost)) :
    ({ s with nodes := forgetMarks s.nodes i } : Run α).Covers x W none := by
  have hext : Extends s { s with nodes := forgetMarks s.nodes i } :=
    fun k q hq => exists_forgetMarks hq
  refine ⟨h.covers.nodup, ?_, ?_, ?_, ?_⟩
  · intro k hk
    rw [size_forgetMarks]
    exact h.covers.bound k hk
  · intro k hk q hq
    have hki : i ≠ k := fun he => h.taken (he ▸ hk)
    rw [getElem?_forgetMarks] at hq
    obtain ⟨q₀, hq₀, rfl⟩ := Option.map_eq_some_iff.mp hq
    rw [if_neg hki]
    exact h.covers.marks k hk q₀ hq₀
  · intro k g hk
    obtain ⟨hashed, t, hkey, hmet, hholds⟩ := h.covers.closed k g hk
    exact ⟨hashed, t, hkey, hmet.mono hext, fun hw => (hholds hw).mono hext (Nat.le_refl g)⟩
  · intro k q hq hk _
    obtain ⟨q₀, hq₀, marks, rfl⟩ := exists_of_forgetMarks hq
    by_cases hki : k = i
    · subst hki
      obtain rfl := Option.some.inj (h.node.symm.trans hq₀)
      exact ⟨hgoal, fun v hv => (hmoves v hv).mono hext⟩
    · have hsettled := h.settled_mono hext hq₀ hk fun he => hki (Option.some.inj he)
      exact hsettled

end Opened

/-! ## Steps keep it -/

/-- A taken node is the one exception until its moves are offered. -/
theorem Covers.opened (h : s.Covers x W none) (hsafe : s.heuristic.estimator.Safe x.model W)
    {q : Frontier α} (readings : Nat) (hpop : s.frontier.pop? = some (i, q))
    (hn : s.nodes[i]? = some n) :
    (({ s with frontier := q, readings } : Run α).opened n).Opened x W i n := by
  have hlist := Frontier.toList_of_pop? hpop
  have hnodup := (hlist.nodup_iff.mp h.nodup)
  rw [List.nodup_cons] at hnodup
  have hwaits : ∀ {k : Nat}, k ∈ s.frontier.toList ↔ k = i ∨ k ∈ q.toList := by
    intro k
    rw [hlist.mem_iff, List.mem_cons]
  refine ⟨⟨hnodup.2, ?_, ?_, h.closed, ?_⟩, hn, hnodup.1, ?_, hsafe⟩
  · exact fun k hk => h.bound k (hwaits.mpr (.inr hk))
  · exact fun k hk => h.marks k (hwaits.mpr (.inr hk))
  · intro k p hp hk hskip
    refine h.settled k p hp (fun hin => ?_) (fun he => nomatch he)
    exact (hwaits.mp hin).elim (fun he => hskip (congrArg some he)) hk
  · exact h.marks i (hwaits.mpr (.inl rfl)) n hn

omit [Scale α] in
/-- Without nodes there is nothing to answer for. -/
theorem Covers.of_nothing (hnodes : s.nodes = #[]) (hnone : s.frontier.toList = []) (hclosed : s.closed = {}) :
    s.Covers x W none where
  nodup := hnone ▸ List.nodup_nil
  bound := fun k hk => absurd (hnone ▸ hk) List.not_mem_nil
  marks := fun k hk => absurd (hnone ▸ hk) List.not_mem_nil
  closed := fun k g hk => by
    rw [hclosed] at hk
    simp at hk
  settled := fun k p hp => by
    rw [hnodes] at hp
    simp at hp

omit [Scale α] in
/-- With the root alone waiting there is nothing to answer for but the root. -/
theorem Covers.of_root (hnodes : s.nodes = #[n]) (halone : s.frontier.toList.Perm [0])
    (hsituation : n.situation = x.model.start) (hg : n.g = 0)
    (hmarks : s.heuristic.estimator.Accepts x.model n.marks)
    (hclosed : ∀ (k : UInt64) (g : Nat), s.closed[k]? = some g →
      x.options.revisit = .hashedKey ∧ x.key x.model.start = k) : s.Covers x W none := by
  have honly : ∀ {k : Nat} {p : Node α}, s.nodes[k]? = some p → k = 0 ∧ p = n := fun hp =>
    Arena.getElem?_singleton (hnodes ▸ hp)
  refine ⟨?_, fun k hk => ?_, fun k _ p hp => ?_, fun k g hk => ?_, fun k p hp hk => ?_⟩
  · exact halone.nodup_iff.mpr (List.nodup_cons.mpr ⟨List.not_mem_nil, List.nodup_nil⟩)
  · rw [hnodes, List.mem_singleton.mp (halone.mem_iff.mp hk)]
    exact Nat.zero_lt_one
  · exact (honly hp).2 ▸ hmarks
  · obtain ⟨hashed, hkey⟩ := hclosed k g hk
    exact ⟨hashed, x.model.start, hkey, .inl rfl, fun _ => ⟨0, n, by rw [hnodes]; rfl, hsituation, hg ▸ Nat.zero_le g⟩⟩
  · exact absurd (halone.mem_iff.mpr (List.mem_singleton.mpr (honly hp).1)) hk

end Run

namespace Search

variable {x : Search} {W : Situation → Prop} {mon : Monitor} {s s' : Run α}

/-- **Every step keeps it.** -/
theorem covers_step (hs : s.Covers x W none) (hsafe : s.heuristic.estimator.Safe x.model W)
    (h : x.step mon s = .running s') :
    s'.Covers x W none ∧ s'.heuristic.estimator.Safe x.model W := by
  obtain ⟨i, q, hpop, ⟨hnone, rfl⟩ | ⟨n, readings, hn, hgoal, rfl⟩⟩ := running_of_step h
  · have hi := hs.bound i (Frontier.toList_of_pop? hpop |>.mem_iff.mpr List.mem_cons_self)
    rw [Array.getElem?_eq_none_iff] at hnone
    exact absurd hi (Nat.not_lt.mpr hnone)
  · obtain ⟨hend, -, hmoves⟩ := Run.offers_each (P := fun r : Run α => r.Opened x W i n)
      (S := fun v r => r.Answers x W v.next (n.g + v.cost))
      (fun r v r' hv hr ho => by
        obtain ⟨hopen, hans, hext⟩ := hr.offered hv ho
        exact ⟨hopen, hans, fun w hw => hw.mono hext⟩)
      (hs.opened hsafe readings hpop hn)
    rw [Run.expand_eq]
    exact ⟨hend.close hgoal hmoves, hend.safe⟩

/-- Steps keep all nodes, but for their marks. -/
theorem extends_step (h : x.step mon s = .running s') : Run.Extends s s' := by
  obtain ⟨i, q, -, ⟨-, rfl⟩ | ⟨n, readings, -, -, rfl⟩⟩ := running_of_step h
  · exact Run.extends_of_nodes_eq rfl
  · rw [Run.expand_eq]
    have hoffered : Run.Extends s (({ s with frontier := q, readings } : Run α).offered x i n) :=
      Run.offers_induction (P := fun r : Run α => Run.Extends s r)
        (fun r v r' _ hr ho => hr.trans ho.extends) (Run.extends_of_nodes_eq rfl)
    exact hoffered.trans fun k p hp => exists_forgetMarks hp

omit [Scale α] in
/-- Only the key of the start is remembered at first. -/
theorem key_start_of_closed {k : UInt64} {g : Nat}
    (hk : (match x.key? x.model.start with
      | none => ({} : Std.HashMap UInt64 Nat)
      | some j => Std.HashMap.insert {} j 0)[k]? = some g) :
    x.options.revisit = .hashedKey ∧ x.key x.model.start = k := by
  cases hkey : x.key? x.model.start with
  | none =>
    rw [hkey] at hk
    simp at hk
  | some j =>
    rw [hkey] at hk
    dsimp only at hk
    rw [Std.HashMap.getElem?_insert] at hk
    split at hk
    · rename_i hj
      obtain rfl := beq_iff_eq.mp hj
      exact Run.key?_eq_some hkey
    · simp at hk

/-- **A search begins with it**, if the root is worth keeping only when it is kept. -/
theorem covers_start {h : Heuristic α}
    (hmarks : Scale.isFinite (h.atRoot x.model x.model.start).1.value = true →
      (x.start h).heuristic.estimator.Accepts x.model (h.atRoot x.model x.model.start).1.marks) :
    (x.start h).Covers x W none := by
  generalize hs : x.start h = s at hmarks ⊢
  have started := start_cases x h
  rw [hs] at started
  cases started with
  | deadEnd infinite nodes frontier heuristic closed =>
    exact .of_nothing nodes (by rw [frontier, Frontier.toList_empty]) closed
  | @kept n novel finite root nodes frontier heuristic generated closed =>
    have hlist : s.frontier.toList.Perm [0] := by
      have hpush := Frontier.toList_push (Frontier.empty x.options.kind) 0 n novel
      rwa [Frontier.toList_empty, ← frontier] at hpush
    refine .of_root nodes hlist (by rw [root]; rfl) (by rw [root]; rfl) (by rw [root]; exact hmarks finite) ?_
    intro k g hk
    rw [closed] at hk
    exact key_start_of_closed hk

end Search

/-! ## Along a walk -/

/-- Situations over the facts of the problem from which a goal can be reached by operators that fit. -/
structure Worth (m : Model) (fits : List Nat → Prop) (t : Situation) : Prop where
  width : t.state.width = m.facts.size
  solvable : ∃ p b, Walk m t p b ∧ b.isGoal m = true ∧ fits p

namespace Run

variable {x : Search} {fits : List Nat → Prop} {s : Run α}

omit [Scale α] in
/-- What the search met is told apart, so nothing else is answered for. -/
theorem Covers.holds_of_answers (hsep : x.options.revisit = .hashedKey → s.Separated x)
    {W : Situation → Prop} {t : Situation} {g : Nat} (hmet : s.Met x t) (hw : W t)
    (h : s.Answers x W t g) : s.Holds t g := by
  obtain ⟨u, rfl | ⟨hashed, hkey⟩, hu, hholds⟩ := h
  · exact hholds hw
  · obtain rfl := hsep hashed u t hu hmet hkey
    exact hholds hw

omit [Scale α] in
/-- **Along a walk to a goal a node waits**, at no greater cost than the walk had so far. -/
theorem Covers.exists_waiting (h : s.Covers x (Worth x.model fits) none)
    (hsep : x.options.revisit = .hashedKey → s.Separated x)
    (hfits : ∀ p q, fits (p ++ q) → fits q) {a b : Situation} {p : List Nat} {g : Nat}
    (hwidth : a.state.width = x.model.facts.size) (hwalk : Walk x.model a p b)
    (hgoal : b.isGoal x.model = true) (hp : fits p) (ha : s.Holds a g) :
    ∃ i ∈ s.frontier.toList, ∃ (n : Node α) (p₁ p₂ : List Nat), s.nodes[i]? = some n ∧
      p = p₁ ++ p₂ ∧ Walk x.model n.situation p₂ b ∧ n.g ≤ g + x.model.planCost p₁ := by
  induction hwalk generalizing g with
  | @stay a =>
    obtain ⟨k, n, hn, rfl, hg⟩ := ha
    by_cases hk : k ∈ s.frontier.toList
    · exact ⟨k, hk, n, [], [], hn, rfl, .stay, hg⟩
    · have hsettled := (h.settled k n hn hk (fun he => nomatch he)).1
      rw [hgoal] at hsettled
      cases hsettled
  | @step a b v plan first after ih =>
    obtain ⟨k, n, hn, rfl, hg⟩ := ha
    by_cases hk : k ∈ s.frontier.toList
    · exact ⟨k, hk, n, [], _, hn, rfl, .step first after, hg⟩
    · have hans := (h.settled k n hn hk (fun he => nomatch he)).2 v first
      have hplan := hfits _ _ hp
      have hnext := (Situation.width_next first).trans hwidth
      have hholds := Covers.holds_of_answers hsep (.inr ⟨k, n, v, hn, first, rfl⟩)
        ⟨hnext, plan, b, after, hgoal, hplan⟩ hans
      obtain ⟨i, hi, q, p₁, p₂, hq, rfl, hrest, hle⟩ := ih hnext hgoal hplan hholds
      refine ⟨i, hi, q, v.transition.applied ++ p₁, p₂, hq, (List.append_assoc ..).symm, hrest, ?_⟩
      rw [Model.planCost_append, Model.planCost_applied first]
      omega

end Run

end HierPlan
