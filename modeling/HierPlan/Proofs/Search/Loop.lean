import HierPlan.Search.Run

/-!
# Proofs/Search/Loop — what one turn of a search does

    take a node ──goal──▸ finished ,  ──limit──▸ finished ,  otherwise ──offer each move──▸ running

A turn is taken apart here once and for all: `Search.running_of_step` and `Search.finished_of_step`
say what a step leads to, and `Run.offer_cases` what becomes of a single move.  Everything about whole
runs follows by `Search.Reaches.keeps`, **what steps keep holds of every run a search passes through**, the
last one included (`Search.exists_last`).
-/

namespace HierPlan

universe u

variable {α : Type} [Scale α]

/-! ## One move -/

namespace Run

/-- What becomes of a move that is no revisit: dropped as a dead end, or kept as a new node. -/
inductive Estimated (s : Run α) (x : Search) (i : Nat) (n : Node α) (move : Move) : Run α → Prop where
  /-- Its estimate is infinite. -/
  | deadEnd
      (infinite : Scale.isFinite
        (s.heuristic.atMove x.model n.situation n.marks move).1.value = false) :
      Estimated s x i n move
        { s with heuristic := (s.heuristic.atMove x.model n.situation n.marks move).2 }
  /-- It enters arena and frontier. -/
  | kept {c : Node α} {novel : Bool} {novelty : Novelty} {trace : List (Event α)}
      (finite : Scale.isFinite
        (s.heuristic.atMove x.model n.situation n.marks move).1.value = true)
      (child : c = n.child i move (s.heuristic.atMove x.model n.situation n.marks move).1
        (s.generated + 1)) :
      Estimated s x i n move
        { s with
          heuristic := (s.heuristic.atMove x.model n.situation n.marks move).2
          nodes := s.nodes.push c
          frontier := s.frontier.push s.nodes.size c novel
          generated := s.generated + 1
          novelty
          trace }

/-- What becomes of a move: dropped as a revisit, or remembered and estimated. -/
inductive Offered (s : Run α) (x : Search) (i : Nat) (n : Node α) (move : Move) : Run α → Prop where
  /-- Its key was met at no greater cost. -/
  | revisit (known : s.isRevisit (x.key? move.next) (n.g + move.cost) = true) :
      Offered s x i n move
        { s.see (.prune (n.g + move.cost) (n.depth + 1) move.transition) with pruned := s.pruned + 1 }
  /-- Its key is new, or was met at greater cost only. -/
  | new {s' : Run α} (fresh : s.isRevisit (x.key? move.next) (n.g + move.cost) = false)
      (estimated : (s.remember (x.key? move.next) (n.g + move.cost)).Estimated x i n move s') :
      Offered s x i n move s'

section Remember

omit [Scale α]

variable (s : Run α) (key : Option UInt64) (g : Nat)

@[simp] theorem nodes_remember : (s.remember key g).nodes = s.nodes := by cases key <;> rfl

@[simp] theorem frontier_remember : (s.remember key g).frontier = s.frontier := by cases key <;> rfl

@[simp] theorem heuristic_remember : (s.remember key g).heuristic = s.heuristic := by
  cases key <;> rfl

@[simp] theorem generated_remember : (s.remember key g).generated = s.generated := by
  cases key <;> rfl

@[simp] theorem expanded_remember : (s.remember key g).expanded = s.expanded := by cases key <;> rfl

@[simp] theorem readings_remember : (s.remember key g).readings = s.readings := by cases key <;> rfl

@[simp] theorem trace_remember : (s.remember key g).trace = s.trace := by cases key <;> rfl

@[simp] theorem pruned_remember : (s.remember key g).pruned = s.pruned := by cases key <;> rfl

@[simp] theorem initial_remember : (s.remember key g).initial = s.initial := by cases key <;> rfl

end Remember

section Keep

variable (s : Run α) (x : Search) (n : Node α)

/-- A node that is kept changes nodes and frontier, and what is new. -/
theorem keep_eq :
    s.keep x n = { s with
      nodes := s.nodes.push n
      frontier := s.frontier.push s.nodes.size n (x.options.novelty && s.novelty.isNew n.situation)
      novelty := (s.note x n.situation).novelty } := by
  unfold keep note
  split <;> rfl

@[simp] theorem nodes_keep : (s.keep x n).nodes = s.nodes.push n := by rw [keep_eq]

@[simp] theorem heuristic_keep : (s.keep x n).heuristic = s.heuristic := by rw [keep_eq]

@[simp] theorem initial_keep : (s.keep x n).initial = s.initial := by rw [keep_eq]

@[simp] theorem expanded_keep : (s.keep x n).expanded = s.expanded := by rw [keep_eq]

@[simp] theorem generated_keep : (s.keep x n).generated = s.generated := by rw [keep_eq]

@[simp] theorem pruned_keep : (s.keep x n).pruned = s.pruned := by rw [keep_eq]

@[simp] theorem readings_keep : (s.keep x n).readings = s.readings := by rw [keep_eq]

@[simp] theorem trace_keep : (s.keep x n).trace = s.trace := by rw [keep_eq]

/-- A node that is kept waits. -/
theorem toList_frontier_keep : (s.keep x n).frontier.toList.Perm (s.nodes.size :: s.frontier.toList) := by
  rw [keep_eq]
  exact Frontier.toList_push ..

end Keep

/-- **A move that is no revisit is dropped as a dead end or kept.** -/
theorem estimate_cases (s : Run α) (x : Search) (i : Nat) (n : Node α) (move : Move) :
    s.Estimated x i n move (s.estimate x i n move) := by
  unfold estimate
  dsimp only
  split
  · rename_i hf
    unfold keep note
    split <;> exact .kept hf rfl
  · rename_i hf
    exact .deadEnd (Bool.eq_false_iff.mpr hf)

/-- **A move is dropped as a revisit, or remembered and estimated.** -/
theorem offer_cases (s : Run α) (x : Search) (i : Nat) (n : Node α) (move : Move) :
    s.Offered x i n move (s.offer x i n move) := by
  unfold offer
  dsimp only
  split
  · rename_i hr
    exact .revisit hr
  · rename_i hr
    exact .new (Bool.eq_false_iff.mpr hr) (estimate_cases _ x i n move)

/-- The run after the heuristic was asked about a move of the node `n`. -/
def asked (s : Run α) (x : Search) (n : Node α) (move : Move) : Run α :=
  { s with heuristic := (s.heuristic.atMove x.model n.situation n.marks move).2 }

/-- The run in which a node was announced that is put nowhere yet. -/
def announced (s : Run α) (c : Node α) (t : Transition) : Run α :=
  { s.see (.generate c.sequence c.g c.h c.f t) with generated := s.generated + 1 }

section Equations

variable {s : Run α} {x : Search} {i : Nat} {n : Node α} {move : Move}

/-- A revisit is counted and seen. -/
theorem offer_of_revisit (h : s.isRevisit (x.key? move.next) (n.g + move.cost) = true) :
    s.offer x i n move =
      { s.see (.prune (n.g + move.cost) (n.depth + 1) move.transition) with pruned := s.pruned + 1 } :=
  if_pos h

/-- What is no revisit is remembered and estimated. -/
theorem offer_of_new (h : s.isRevisit (x.key? move.next) (n.g + move.cost) = false) :
    s.offer x i n move = (s.remember (x.key? move.next) (n.g + move.cost)).estimate x i n move :=
  if_neg (Bool.eq_false_iff.mp h)

/-- A dead end leaves nothing behind but its estimate. -/
theorem estimate_of_infinite
    (h : Scale.isFinite (s.heuristic.atMove x.model n.situation n.marks move).1.value = false) :
    s.estimate x i n move = s.asked x n move :=
  if_neg (Bool.eq_false_iff.mp h)

/-- What is no dead end is announced and kept. -/
theorem estimate_of_finite {c : Node α}
    (h : Scale.isFinite (s.heuristic.atMove x.model n.situation n.marks move).1.value = true)
    (hc : c = n.child i move (s.heuristic.atMove x.model n.situation n.marks move).1 (s.generated + 1)) :
    s.estimate x i n move = ((s.asked x n move).announced c move.transition).keep x c := by
  subst hc
  exact if_pos h

end Equations

/-- What holds of a run and is kept by every single move holds after a node was expanded, before its
marks are let go. -/
theorem offers_induction {P : Run α → Prop} {x : Search} {i : Nat} {n : Node α} {moves : List Move}
    {s : Run α} (keeps : ∀ r v r', v ∈ moves → P r → r.Offered x i n v r' → P r') (hs : P s) :
    P (moves.foldl (fun s v => s.offer x i n v) s) := by
  induction moves generalizing s with
  | nil => exact hs
  | cons v rest ih =>
    exact ih (fun r w r' hw => keeps r w r' (List.mem_cons_of_mem v hw))
      (keeps s v _ List.mem_cons_self hs (s.offer_cases x i n v))

/-- Moreover, what every single move brings about and no later one undoes holds of all of them. -/
theorem offers_each {P : Run α → Prop} {S : Move → Run α → Prop} {x : Search} {i : Nat}
    {n : Node α} {moves : List Move} {s : Run α}
    (keeps : ∀ r v r', v ∈ moves → P r → r.Offered x i n v r' →
      P r' ∧ S v r' ∧ ∀ w, S w r → S w r') (hs : P s) :
    P (moves.foldl (fun s v => s.offer x i n v) s) ∧
      (∀ w, S w s → S w (moves.foldl (fun s v => s.offer x i n v) s)) ∧
      ∀ v ∈ moves, S v (moves.foldl (fun s v => s.offer x i n v) s) := by
  induction moves generalizing s with
  | nil => exact ⟨hs, fun _ hw => hw, fun _ hv => absurd hv List.not_mem_nil⟩
  | cons v rest ih =>
    obtain ⟨hp, hv, hkept⟩ := keeps s v _ List.mem_cons_self hs (s.offer_cases x i n v)
    obtain ⟨hend, hlater, hrest⟩ :=
      ih (fun r w r' hw => keeps r w r' (List.mem_cons_of_mem v hw)) hp
    exact ⟨hend, fun w hw => hlater w (hkept w hw), List.forall_mem_cons.mpr ⟨hlater v hv, hrest⟩⟩

/-- The run in which a node is expanded, when none of its moves was offered yet. -/
def opened (s : Run α) (n : Node α) : Run α :=
  { s.see (.expand n.sequence n.g n.h n.depth n.situation.network.length) with
    expanded := s.expanded + 1 }

/-- The run after all moves of a node were offered, before its marks are let go. -/
def offered (s : Run α) (x : Search) (i : Nat) (n : Node α) : Run α :=
  (n.situation.moves x.model).foldl (fun s v => s.offer x i n v) (s.opened n)

theorem expand_eq (s : Run α) (x : Search) (i : Nat) (n : Node α) :
    s.expand x i n =
      { s.offered x i n with nodes := forgetMarks (s.offered x i n).nodes i } := rfl

end Run

/-! ## The root -/

namespace Search

variable {x : Search} {h : Heuristic α}

/-- The run that has asked for the estimate of the root, and has kept nothing yet. -/
def blank (x : Search) (h : Heuristic α) : Run α where
  nodes := #[]
  frontier := .empty x.options.kind
  closed := {}
  novelty := {}
  heuristic := (h.atRoot x.model x.model.start).2.release
  initial :=
    if Scale.isFinite (h.atRoot x.model x.model.start).1.value then some (h.atRoot x.model x.model.start).1.value
    else none
  expanded := 0
  generated := 0
  pruned := 0
  readings := 0
  trace := []

/-- A root that is a dead end is not kept. -/
theorem start_of_infinite (hf : Scale.isFinite (h.atRoot x.model x.model.start).1.value = false) :
    x.start h = x.blank h :=
  if_neg (Bool.eq_false_iff.mp hf)

/-- Any other root is remembered and kept. -/
theorem start_of_finite (hf : Scale.isFinite (h.atRoot x.model x.model.start).1.value = true) :
    x.start h = ((x.blank h).remember (x.key? x.model.start) 0).keep x
      (Node.root x.model.start (h.atRoot x.model x.model.start).1) :=
  if_pos hf

end Search

/-! ## One turn -/

namespace Search

variable {x : Search} {mon : Monitor} {s s' : Run α} {done : Finished α}

section Equations

variable (mon) {i : Nat} {q : Frontier α} {n : Node α}

/-- A search ends when nothing waits. -/
theorem step_of_empty (hq : s.frontier.pop? = none) :
    x.step mon s = .finished (s.finish x mon .unsolvable none) := by
  rw [step, hq]

/-- A position without a node is passed over. -/
theorem step_of_missing (hq : s.frontier.pop? = some (i, q)) (hn : s.nodes[i]? = none) :
    x.step mon s = .running { s with frontier := q } := by
  rw [step, hq]
  dsimp only
  rw [hn]

/-- A search ends at a goal. -/
theorem step_of_goal (hq : s.frontier.pop? = some (i, q)) (hn : s.nodes[i]? = some n)
    (hg : n.situation.isGoal x.model = true) :
    x.step mon s = .finished ({ s with frontier := q }.finish x mon .goal (some i)) := by
  rw [step, hq]
  dsimp only
  rw [hn]
  exact if_pos hg

/-- What happens to a node that is no goal is up to the limits. -/
theorem step_of_node (hq : s.frontier.pop? = some (i, q)) (hn : s.nodes[i]? = some n)
    (hg : n.situation.isGoal x.model = false) :
    x.step mon s =
      match (x.options.look mon s.expanded s.readings).verdict with
      | some status =>
        .finished ({ s with frontier := q, readings := (x.options.look mon s.expanded s.readings).readings }.finish
          x mon status none)
      | none =>
        .running ({ s with frontier := q, readings := (x.options.look mon s.expanded s.readings).readings }.expand
          x i n) := by
  rw [step, hq]
  dsimp only
  rw [hn]
  exact if_neg (Bool.eq_false_iff.mp hg)

end Equations

/-- A look at the limits stops a search for want of time or memory only. -/
theorem verdict_of_look {o : SearchOptions} {expanded readings : Nat} {status : Status}
    (h : (o.look mon expanded readings).verdict = some status) :
    status = .timeout ∨ status = .outOfMemory := by
  unfold SearchOptions.look at h
  split at h
  · split at h
    · exact Or.inl (Option.some.inj h).symm
    · split at h
      · cases h
      · split at h
        · exact Or.inr (Option.some.inj h).symm
        · cases h
  · cases h

/-- Without limits a look at them stops nothing. -/
theorem verdict_look_of_no_limits {o : SearchOptions} (htime : o.timeLimit = none)
    (hmemory : o.memoryLimit = none) (mon : Monitor) (expanded readings : Nat) :
    (o.look mon expanded readings).verdict = none := by
  unfold SearchOptions.look
  split
  · rw [SearchOptions.isLate, htime, Option.any_none, hmemory]
    rfl
  · rfl

/-- What a turn leads to. -/
inductive Turned (x : Search) (mon : Monitor) (s : Run α) : Progress α → Prop where
  /-- Nothing waits. -/
  | dry (empty : s.frontier.pop? = none) : Turned x mon s (.finished (s.finish x mon .unsolvable none))
  /-- There is no node where one was to wait. -/
  | missing {i : Nat} {q : Frontier α} (taken : s.frontier.pop? = some (i, q)) (none : s.nodes[i]? = none) :
      Turned x mon s (.running { s with frontier := q })
  /-- A goal was taken. -/
  | goal {i : Nat} {q : Frontier α} {n : Node α} (taken : s.frontier.pop? = some (i, q))
      (node : s.nodes[i]? = some n) (isGoal : n.situation.isGoal x.model = true) :
      Turned x mon s (.finished ({ s with frontier := q }.finish x mon .goal (some i)))
  /-- A limit is exceeded. -/
  | stopped {i : Nat} {q : Frontier α} {n : Node α} {status : Status} (taken : s.frontier.pop? = some (i, q))
      (node : s.nodes[i]? = some n) (isNoGoal : n.situation.isGoal x.model = false)
      (verdict : (x.options.look mon s.expanded s.readings).verdict = some status) :
      Turned x mon s (.finished
        ({ s with frontier := q, readings := (x.options.look mon s.expanded s.readings).readings }.finish x mon
          status .none))
  /-- A node is expanded. -/
  | expanded {i : Nat} {q : Frontier α} {n : Node α} (taken : s.frontier.pop? = some (i, q))
      (node : s.nodes[i]? = some n) (isNoGoal : n.situation.isGoal x.model = false)
      (verdict : (x.options.look mon s.expanded s.readings).verdict = none) :
      Turned x mon s (.running
        ({ s with frontier := q, readings := (x.options.look mon s.expanded s.readings).readings }.expand x i n))

/-- **A turn leads nowhere else.** -/
theorem step_cases (x : Search) (mon : Monitor) (s : Run α) : x.Turned mon s (x.step mon s) := by
  cases hq : s.frontier.pop? with
  | none => exact step_of_empty (x := x) mon hq ▸ .dry hq
  | some taken =>
    obtain ⟨i, q⟩ := taken
    cases hn : s.nodes[i]? with
    | none => exact step_of_missing (x := x) mon hq hn ▸ .missing hq hn
    | some n =>
      cases hg : n.situation.isGoal x.model with
      | true => exact step_of_goal mon hq hn hg ▸ .goal hq hn hg
      | false =>
        rw [step_of_node mon hq hn hg]
        cases hv : (x.options.look mon s.expanded s.readings).verdict with
        | none => exact .expanded hq hn hg hv
        | some status => exact .stopped hq hn hg hv

/-- **A search goes on** past a position without a node, or after expanding a node that is no goal. -/
theorem running_of_step (h : x.step mon s = .running s') :
    ∃ i q, s.frontier.pop? = some (i, q) ∧
      ((s.nodes[i]? = none ∧ s' = { s with frontier := q }) ∨
        ∃ n readings, s.nodes[i]? = some n ∧ n.situation.isGoal x.model = false ∧
          s' = { s with frontier := q, readings }.expand x i n) := by
  have turned := x.step_cases mon s
  rw [h] at turned
  cases turned with
  | missing taken none => exact ⟨_, _, taken, .inl ⟨none, rfl⟩⟩
  | expanded taken node isNoGoal => exact ⟨_, _, taken, .inr ⟨_, _, node, isNoGoal, rfl⟩⟩

/-- **A search ends** when nothing waits, at a goal node, or at a limit. -/
theorem finished_of_step (h : x.step mon s = .finished done) :
    (s.frontier.pop? = none ∧ done = s.finish x mon .unsolvable none) ∨
      ∃ i q n, s.frontier.pop? = some (i, q) ∧ s.nodes[i]? = some n ∧
        ((n.situation.isGoal x.model = true ∧
            done = { s with frontier := q }.finish x mon .goal (some i)) ∨
          (n.situation.isGoal x.model = false ∧ ∃ status readings,
            (status = .timeout ∨ status = .outOfMemory) ∧
              done = { s with frontier := q, readings }.finish x mon status none)) := by
  have turned := x.step_cases mon s
  rw [h] at turned
  cases turned with
  | dry empty => exact .inl ⟨empty, rfl⟩
  | goal taken node isGoal => exact .inr ⟨_, _, _, taken, node, .inl ⟨isGoal, rfl⟩⟩
  | stopped taken node isNoGoal verdict =>
    exact .inr ⟨_, _, _, taken, node, .inr ⟨isNoGoal, _, _, verdict_of_look verdict, rfl⟩⟩

/-- The runs a search passes through. -/
inductive Reaches (x : Search) (mon : Monitor) (s : Run α) : Run α → Prop where
  | here : Reaches x mon s s
  | step {r r' : Run α} (before : Reaches x mon s r) (next : x.step mon r = .running r') :
      Reaches x mon s r'

/-- **What every step keeps holds in every run a search passes through.** -/
theorem Reaches.keeps {P : Run α → Prop} {r : Run α} (h : x.Reaches mon s r)
    (keeps : ∀ r r', P r → x.step mon r = .running r' → P r') (hs : P s) : P r := by
  induction h with
  | here => exact hs
  | step _ next ih => exact keeps _ _ ih next

/-- A search passes through what it passes through after its first turn. -/
theorem Reaches.head {r : Run α} (hstep : x.step mon s = .running s') (h : x.Reaches mon s' r) :
    x.Reaches mon s r := by
  induction h with
  | here => exact Reaches.here.step hstep
  | step _ next ih => exact ih.step next

/-- The run after so many turns, or the last one if the search is over before. -/
def turns (x : Search) (mon : Monitor) : Nat → Run α → Run α
  | 0, s => s
  | k + 1, s =>
    match x.step mon s with
    | .running s' => turns x mon k s'
    | .finished _ => s

theorem reaches_turns (k : Nat) : x.Reaches mon s (x.turns mon k s) := by
  induction k generalizing s with
  | zero => exact .here
  | succ k ih =>
    unfold turns
    split
    · rename_i s' hnext
      exact ih.head hnext
    · exact .here

/-- **A run that ends is taken to its end by the last turn** of those it passes through. -/
theorem exists_last {fuel : Nat} (h : x.run mon fuel s = some done) :
    ∃ last, x.Reaches mon s last ∧ x.step mon last = .finished done := by
  suffices hlast : ∀ r, x.Reaches mon s r → x.run mon fuel r = some done →
      ∃ last, x.Reaches mon s last ∧ x.step mon last = .finished done from hlast s .here h
  clear h
  induction fuel with
  | zero => exact fun r _ hr => nomatch hr
  | succ fuel ih =>
    intro r hreach hr
    unfold run at hr
    split at hr
    · rename_i r' hnext
      exact ih r' (hreach.step hnext) hr
    · rename_i d hd
      obtain rfl := Option.some.inj hr
      exact ⟨r, hreach, hd⟩

/-! ## The heuristic of a run -/

variable {h : Heuristic α} {fuel : Nat}

/-- Steps leave the estimator alone. -/
theorem estimator_step (hstep : x.step mon s = .running s') :
    s'.heuristic.estimator = s.heuristic.estimator := by
  obtain ⟨i, q, -, ⟨-, rfl⟩ | ⟨n, readings, -, -, rfl⟩⟩ := running_of_step hstep
  · rfl
  · rw [Run.expand_eq]
    refine Run.offers_induction (P := fun r : Run α => r.heuristic.estimator = s.heuristic.estimator)
      (fun r v r' _ hr ho => ?_) rfl
    cases ho with
    | revisit => exact hr
    | new _ estimated =>
      cases estimated with
      | deadEnd => exact (congrArg Heuristic.estimator (Run.heuristic_remember ..)).trans hr
      | kept => exact (congrArg Heuristic.estimator (Run.heuristic_remember ..)).trans hr

/-- A search begins with the heuristic that looked at its root. -/
theorem heuristic_start (x : Search) (h : Heuristic α) :
    (x.start h).heuristic = (h.atRoot x.model x.model.start).2.release := by
  cases hf : Scale.isFinite (h.atRoot x.model x.model.start).1.value with
  | false => rw [start_of_infinite hf, blank]
  | true => rw [start_of_finite hf, Run.heuristic_keep, Run.heuristic_remember, blank]

/-- A search keeps the estimator it began with. -/
theorem estimator_of_reaches {r : Run α} (hr : x.Reaches mon (x.start h) r) :
    r.heuristic.estimator = (h.atRoot x.model x.model.start).2.release.estimator :=
  hr.keeps (fun _ _ hs hstep => (estimator_step hstep).trans hs) (congrArg _ (heuristic_start x h))

/-- A search ends with the estimator it began with, and with the figures it reports. -/
theorem heuristic_last (hr : x.run mon fuel (x.start h) = some done) :
    done.last.heuristic =
      ⟨(h.atRoot x.model x.model.start).2.release.estimator, done.result.statistics⟩ := by
  obtain ⟨last, hreach, hstep⟩ := exists_last hr
  rw [← estimator_of_reaches hreach]
  rcases finished_of_step hstep with ⟨-, rfl⟩ | ⟨i, q, n, -, -, ⟨-, rfl⟩ | ⟨-, st, rd, -, rfl⟩⟩ <;> rfl

/-- A search ends with the estimator it began with. -/
theorem estimator_last (hr : x.run mon fuel (x.start h) = some done) :
    done.last.heuristic.estimator = (h.atRoot x.model x.model.start).2.release.estimator := by
  rw [heuristic_last hr]

end Search

end HierPlan
