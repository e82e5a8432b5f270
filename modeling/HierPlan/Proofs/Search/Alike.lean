import HierPlan.Proofs.Search.Loop

/-!
# Proofs/Search/Alike — what a search does not look at

    s  ──turn──▸ t
    ≈            ≈          but for readings of memory and figures over estimates
    s' ──turn──▸ t'

A turn looks neither at how often memory was read nor at the figures over estimates, and it looks at the limits
only to stop.  So **runs that differ in nothing else go on like that** (`Search.alike_step`), whatever the limits
are, as long as a look at them says the same.
-/

namespace HierPlan

variable {α : Type} [Scale α]

/-- A relation of figures that is kept when an estimate is recorded on both sides. -/
def Statistics.Lasting (S : Statistics α → Statistics α → Prop) : Prop :=
  ∀ a b value, S a b → S (a.record value) (b.record value)

/-- The search with other limits. -/
def Search.withLimits (x : Search) (time memory : Option Nat) : Search :=
  { x with options := { x.options with timeLimit := time, memoryLimit := memory } }

/-- The run with other figures over estimates and other readings. -/
def Run.recounted (s : Run α) (statistics : Statistics α) (readings : Nat) : Run α :=
  { s with readings, heuristic := ⟨s.heuristic.estimator, statistics⟩ }

/-- Two runs that differ at most in readings, and in figures as far as `S` allows. -/
inductive Run.Alike (S : Statistics α → Statistics α → Prop) (s : Run α) : Run α → Prop where
  | intro {statistics : Statistics α} {readings : Nat} (figures : S s.heuristic.statistics statistics) :
      Alike S s (s.recounted statistics readings)

/-- Two ends of a search that differ at most in readings, in figures as far as `S` allows, and in the time. -/
structure Finished.Alike (S : Statistics α → Statistics α → Prop) (done done' : Finished α) : Prop where
  last : done.last.Alike S done'.last
  result : done'.result =
    { done.result with elapsed := done'.result.elapsed, statistics := done'.result.statistics }
  statistics : S done.result.statistics done'.result.statistics

/-- Two searches that both go on or both end, alike. -/
inductive Progress.Alike (S : Statistics α → Statistics α → Prop) : Progress α → Progress α → Prop where
  | running {s s' : Run α} (runs : s.Alike S s') : Alike S (.running s) (.running s')
  | finished {done done' : Finished α} (ends : done.Alike S done') : Alike S (.finished done) (.finished done')

variable {S : Statistics α → Statistics α → Prop} {x : Search} {mon mon' : Monitor} {s s' : Run α} {i g : Nat}
  {n : Node α} {v : Move} {statistics : Statistics α} {readings : Nat}
  {key : Option UInt64}

namespace Run

omit [Scale α] in
/-- A run is like itself if its figures are. -/
theorem Alike.refl (figures : S s.heuristic.statistics s.heuristic.statistics) : s.Alike S s :=
  @Alike.intro _ S s _ s.readings figures

section Fields

omit [Scale α]

theorem Alike.expanded (h : s.Alike S s') : s'.expanded = s.expanded := by
  obtain ⟨-⟩ := h
  rfl

theorem Alike.trace (h : s.Alike S s') : s'.trace = s.trace := by
  obtain ⟨-⟩ := h
  rfl

theorem Alike.estimator (h : s.Alike S s') : s'.heuristic.estimator = s.heuristic.estimator := by
  obtain ⟨-⟩ := h
  rfl

theorem Alike.figures (h : s.Alike S s') : S s.heuristic.statistics s'.heuristic.statistics := by
  obtain ⟨figures⟩ := h
  exact figures

end Fields

/-! ## One move -/

omit [Scale α] in
theorem remember_recounted :
    (s.recounted statistics readings).remember key g = (s.remember key g).recounted statistics readings := by
  cases key <;> rfl

omit [Scale α] in
theorem Alike.remember (h : s.Alike S s') : (s.remember key g).Alike S (s'.remember key g) := by
  obtain ⟨figures⟩ := h
  rw [remember_recounted]
  exact .intro ((heuristic_remember s key g).symm ▸ figures)

theorem Alike.keep (h : s.Alike S s') : (s.keep x n).Alike S (s'.keep x n) := by
  obtain ⟨figures⟩ := h
  unfold Run.keep note
  split <;> exact .intro figures

omit [Scale α] in
theorem Alike.announced (h : s.Alike S s') (c : Node α) (t : Transition) :
    (s.announced c t).Alike S (s'.announced c t) := by
  obtain ⟨figures⟩ := h
  exact .intro figures

/-- **A move is estimated alike.** -/
theorem Alike.estimate (hS : Statistics.Lasting S) (h : s.Alike S s') :
    (s.estimate x i n v).Alike S (s'.estimate x i n v) := by
  obtain @⟨statistics, readings, figures⟩ := h
  have asked : (s.asked x n v).Alike S ((s.recounted statistics readings).asked x n v) :=
    .intro (s := s.asked x n v) (hS _ _ (s.heuristic.atMove x.model n.situation n.marks v).1.value figures)
  cases hf : Scale.isFinite (s.heuristic.atMove x.model n.situation n.marks v).1.value with
  | true =>
    rw [estimate_of_finite hf rfl, estimate_of_finite (s := s.recounted statistics readings) hf rfl]
    exact .keep (asked.announced _ _)
  | false =>
    rwa [estimate_of_infinite hf, estimate_of_infinite (s := s.recounted statistics readings) hf]

/-- **What becomes of a move is alike.** -/
theorem Alike.offer (hS : Statistics.Lasting S) (h : s.Alike S s') :
    (s.offer x i n v).Alike S (s'.offer x i n v) := by
  obtain @⟨statistics, readings, figures⟩ := h
  cases hr : s.isRevisit (x.key? v.next) (n.g + v.cost) with
  | true =>
    rw [offer_of_revisit hr, offer_of_revisit (s := s.recounted statistics readings) hr]
    exact .intro figures
  | false =>
    rw [offer_of_new hr, offer_of_new (s := s.recounted statistics readings) hr]
    exact .estimate hS (.remember (.intro figures))

/-- **So is what becomes of a node that is expanded.** -/
theorem Alike.expand (hS : Statistics.Lasting S) (h : s.Alike S s') :
    (s.expand x i n).Alike S (s'.expand x i n) := by
  have offers : ∀ (moves : List Move) {r r' : Run α}, r.Alike S r' →
      (moves.foldl (fun r v => r.offer x i n v) r).Alike S (moves.foldl (fun r v => r.offer x i n v) r') := by
    intro moves
    induction moves with
    | nil => exact fun hr => hr
    | cons v rest ih => exact fun hr => ih (hr.offer hS)
  have opened : (s.opened n).Alike S (s'.opened n) := by
    obtain ⟨figures⟩ := h
    exact .intro figures
  rw [expand_eq, expand_eq]
  generalize hr : s'.offered x i n = r'
  obtain ⟨figures⟩ : (s.offered x i n).Alike S r' := hr ▸ offers (n.situation.moves x.model) opened
  exact .intro figures

/-! ## One turn -/

omit [Scale α] in
/-- **Alike runs end alike.** -/
theorem Alike.finish (h : s.Alike S s') (status : Status) (goal : Option Nat) :
    (s.finish x mon status goal).Alike S (s'.finish x mon' status goal) := by
  obtain ⟨figures⟩ := h
  exact ⟨.intro figures, rfl, figures⟩

end Run

namespace Search

/-- **Alike runs take alike turns**, if a look at the limits says the same where it is taken. -/
theorem alike_step (time memory : Option Nat) (hS : Statistics.Lasting S) (h : s.Alike S s')
    (hlook : ∀ i q n, s.frontier.pop? = some (i, q) → s.nodes[i]? = some n →
      n.situation.isGoal x.model = false →
      ((x.withLimits time memory).options.look mon' s'.expanded s'.readings).verdict =
        (x.options.look mon s.expanded s.readings).verdict) :
    (x.step mon s).Alike S ((x.withLimits time memory).step mon' s') := by
  obtain @⟨statistics, readings, figures⟩ := h
  cases hq : s.frontier.pop? with
  | none =>
    rw [step_of_empty mon hq, step_of_empty (s := s.recounted statistics readings) mon' hq]
    exact .finished (Run.Alike.finish (.intro figures) .unsolvable none)
  | some taken =>
    obtain ⟨i, q⟩ := taken
    cases hn : s.nodes[i]? with
    | none =>
      rw [step_of_missing mon hq hn, step_of_missing (s := s.recounted statistics readings) mon' hq hn]
      exact .running (.intro (s := { s with frontier := q }) figures)
    | some n =>
      cases hg : n.situation.isGoal x.model with
      | true =>
        rw [step_of_goal mon hq hn hg,
          step_of_goal (x := x.withLimits time memory) (s := s.recounted statistics readings) mon' hq hn hg]
        exact .finished (Run.Alike.finish (s := { s with frontier := q }) (.intro figures) .goal (some i))
      | false =>
        rw [step_of_node mon hq hn hg,
          step_of_node (x := x.withLimits time memory) (s := s.recounted statistics readings) mon' hq hn hg,
          hlook i q n hq hn hg]
        cases (x.options.look mon s.expanded s.readings).verdict with
        | none => exact .running (.expand hS (.intro (s := { s with frontier := q, readings := _ }) figures))
        | some status =>
          exact .finished
            (Run.Alike.finish (s := { s with frontier := q, readings := _ }) (.intro figures) status none)

end Search

end HierPlan
