import HierPlan.Proofs.Search.Alike
import HierPlan.Proofs.Search.Soundness

/-!
# Proofs/Search/Limits — limits only cut a search short

    without limits    e₁ e₂ e₃ e₄ e₅ …
    with limits       e₁ e₂ e₃  ╳                 stopped where a look at the limits was due

A search with limits sees what it would see without them, turn by turn, until it is stopped.  So **a result that
is not a limit's is the result without limits** (`Search.limits_cut_off`).  A search is stopped after expanding a
positive multiple of the interval, at a node that is no goal, and the limits were kept at all multiples before.
-/

namespace HierPlan

variable {α : Type} [Scale α]

/-! ## What is seen, turn by turn -/

/-- Whether an event tells of a node, and not of the end. -/
def Event.isOfNode : Event α → Bool
  | .finish _ => false
  | _ => true

/-- What was seen of nodes, earliest first. -/
def Run.seen (s : Run α) : List (Event α) := (s.trace.filter Event.isOfNode).reverse

/-- Whether a search was stopped by a limit. -/
def Status.IsLimit (status : Status) : Prop := status = .timeout ∨ status = .outOfMemory

/-- The run that a search has come to. -/
def Progress.last : Progress α → Run α
  | .running s => s
  | .finished done => done.last

/-- Where a search stands after so many turns, or where it ended before. -/
def Search.advance (x : Search) (mon : Monitor) : Nat → Run α → Progress α
  | 0, s => .running s
  | turns + 1, s =>
    match x.step mon s with
    | .running s => x.advance mon turns s
    | .finished done => .finished done

variable {x : Search} {mon mon' : Monitor} {s s' : Run α} {done : Finished α} {i turns : Nat} {n : Node α}
  {v : Move}

omit [Scale α] in
theorem Run.Alike.seen {S : Statistics α → Statistics α → Prop} (h : s.Alike S s') : s'.seen = s.seen := by
  rw [Run.seen, Run.seen, h.trace]

omit [Scale α] in
theorem Progress.Alike.seen {S : Statistics α → Statistics α → Prop} {p p' : Progress α} (h : p.Alike S p') :
    p'.last.seen = p.last.seen := by
  cases h with
  | running runs => exact runs.seen
  | finished ends => exact ends.last.seen

omit [Scale α] in
/-- What was seen before is seen first. -/
theorem Run.seen_prefix (h : s.trace <:+ s'.trace) : s.seen <+: s'.seen :=
  List.reverse_prefix.mpr (h.filter Event.isOfNode)

namespace Run

/-- Nothing that was seen is forgotten. -/
theorem trace_offer : s.trace <:+ (s.offer x i n v).trace := by
  cases hr : s.isRevisit (x.key? v.next) (n.g + v.cost) with
  | true =>
    rw [offer_of_revisit hr]
    exact List.suffix_cons _ _
  | false =>
    rw [offer_of_new hr]
    generalize hs : s.remember (x.key? v.next) (n.g + v.cost) = r
    have htrace : r.trace = s.trace := by rw [← hs, trace_remember]
    cases hf : Scale.isFinite (r.heuristic.atMove x.model n.situation n.marks v).1.value with
    | true =>
      rw [estimate_of_finite hf rfl, trace_keep, ← htrace]
      exact List.suffix_cons _ _
    | false =>
      rw [estimate_of_infinite hf, ← htrace]
      exact List.suffix_rfl

theorem trace_expand : s.trace <:+ (s.expand x i n).trace := by
  rw [expand_eq]
  exact List.foldlRecOn (motive := fun r : Run α => s.trace <:+ r.trace) _ _ (List.suffix_cons _ _)
    fun r hr v _ => hr.trans trace_offer

end Run

namespace Search

/-- **A search forgets nothing that it saw.** -/
theorem seen_prefix_advance (turns : Nat) (s : Run α) : s.seen <+: (x.advance mon turns s).last.seen := by
  induction turns generalizing s with
  | zero => exact List.prefix_rfl
  | succ turns ih =>
    rw [advance]
    split
    · rename_i s' hstep
      refine List.IsPrefix.trans ?_ (ih s')
      obtain ⟨i, q, -, ⟨-, rfl⟩ | ⟨n, readings, -, -, rfl⟩⟩ := running_of_step hstep
      · exact List.prefix_rfl
      · exact Run.seen_prefix (Run.trace_expand (s := { s with frontier := q, readings }))
    · rename_i done hstep
      obtain ⟨-, rfl⟩ | ⟨i, q, n, -, -, ⟨-, rfl⟩ | ⟨-, st, rd, -, rfl⟩⟩ := finished_of_step hstep <;>
        exact List.prefix_rfl

/-- A search has its result after so many turns, or not yet. -/
theorem run_eq_some_iff : x.run mon turns s = some done ↔ x.advance mon turns s = .finished done := by
  induction turns generalizing s with
  | zero => simp [run, advance]
  | succ turns ih =>
    rw [run, advance]
    cases x.step mon s with
    | running s' => exact ih
    | finished d => simp

/-! ## Two searches, one with limits and one without -/

/-- **Alike runs, one with limits and one without, go on alike until a limit stops the one.** -/
theorem advance_withLimits (mon mon' : Monitor) (turns : Nat) (h : s.Alike Eq s') :
    (x.advance mon turns s).Alike Eq ((x.withLimits none none).advance mon' turns s') ∨
      ∃ done, x.advance mon turns s = .finished done ∧ done.result.status.IsLimit ∧
        done.last.seen <+: ((x.withLimits none none).advance mon' turns s').last.seen := by
  induction turns generalizing s s' with
  | zero => exact .inl (.running h)
  | succ turns ih =>
    by_cases hstop : ∃ i q n status, s.frontier.pop? = some (i, q) ∧ s.nodes[i]? = some n ∧
        n.situation.isGoal x.model = false ∧
        (x.options.look mon s.expanded s.readings).verdict = some status
    · obtain ⟨i, q, n, status, hq, hn, hg, hv⟩ := hstop
      have hstep := step_of_node mon hq hn hg
      rw [hv] at hstep
      refine .inr ⟨_, by rw [advance, hstep], verdict_of_look hv, ?_⟩
      -- nothing more is seen of nodes in the turn that stops
      exact h.seen ▸ seen_prefix_advance (turns + 1) s'
    · have hlook : ∀ i q n, s.frontier.pop? = some (i, q) → s.nodes[i]? = some n →
          n.situation.isGoal x.model = false →
          ((x.withLimits none none).options.look mon' s'.expanded s'.readings).verdict =
            (x.options.look mon s.expanded s.readings).verdict := by
        intro i q n hq hn hg
        rw [verdict_look_of_no_limits rfl rfl]
        refine (Option.eq_none_iff_forall_ne_some.mpr fun status hv => hstop ?_).symm
        exact ⟨i, q, n, status, hq, hn, hg, hv⟩
      have hsteps := alike_step none none (fun _ _ _ => congrArg (Statistics.record · _)) h hlook
      rw [advance, advance]
      generalize x.step mon s = p, (x.withLimits none none).step mon' s' = p' at hsteps ⊢
      cases hsteps with
      | running runs => exact ih runs
      | finished ends => exact .inl (.finished ends)

end Search

/-! ## When a limit stops a search -/

namespace SearchOptions

variable {o : SearchOptions} {expanded readings : Nat} {status : Status}

/-- What is too much after that many expansions; each look at the limits before read memory once. -/
inductive Exceeds (o : SearchOptions) (mon : Monitor) (expanded : Nat) : Status → Prop where
  | timeout {limit : Nat} (limited : o.timeLimit = some limit) (late : limit < mon.elapsed expanded) :
      Exceeds o mon expanded .timeout
  | outOfMemory {limit bytes : Nat} (limited : o.memoryLimit = some limit)
      (read : mon.resident (expanded / o.checkInterval - 1) = some bytes) (full : limit < bytes) :
      Exceeds o mon expanded .outOfMemory

/-- A limit is exceeded after that many expansions, at a multiple of the interval, and at none before. -/
structure StopsAt (o : SearchOptions) (mon : Monitor) (expanded : Nat) (status : Status) : Prop where
  positive : 0 < expanded
  multiple : o.checkInterval ∣ expanded
  exceeds : o.Exceeds mon expanded status
  kept : ∀ m, 0 < m → m < expanded → o.checkInterval ∣ m → ∀ status, ¬ o.Exceeds mon m status

/-- How often memory was read by then, if no limit was exceeded. -/
def readingsBy (o : SearchOptions) (expanded : Nat) : Nat :=
  if o.memoryLimit.isSome then (expanded - 1) / o.checkInterval else 0

/-- The limits are looked at after every positive multiple of the interval. -/
theorem isDue_iff (hi : 0 < o.checkInterval) :
    o.isDue expanded = true ↔ 0 < expanded ∧ o.checkInterval ∣ expanded := by
  rw [isDue, Bool.and_eq_true, bne_iff_ne, beq_iff_eq, Nat.max_eq_left hi, Nat.pos_iff_ne_zero,
    Nat.dvd_iff_mod_eq_zero]

/-- Time is up if a time limit is exceeded. -/
theorem isLate_iff : o.isLate (mon.elapsed expanded) = true ↔ o.Exceeds mon expanded .timeout := by
  rw [isLate, Option.any_eq_true]
  constructor
  · rintro ⟨limit, hlimit, hlate⟩
    exact .timeout hlimit (of_decide_eq_true hlate)
  · rintro ⟨hlimit, hlate⟩
    exact ⟨_, hlimit, decide_eq_true hlate⟩

/-- Memory was read once more by then if it is limited and a look was due. -/
theorem readingsBy_succ (expanded : Nat) :
    o.readingsBy (expanded + 1) =
      if o.memoryLimit.isSome ∧ 0 < expanded ∧ o.checkInterval ∣ expanded then o.readingsBy expanded + 1
      else o.readingsBy expanded := by
  unfold readingsBy
  cases expanded with
  | zero => simp
  | succ expanded =>
    rw [Nat.add_sub_cancel, Nat.add_sub_cancel, Nat.succ_div]
    by_cases hm : o.memoryLimit.isSome = true <;> by_cases hd : o.checkInterval ∣ expanded + 1 <;> simp [hm, hd]

/-- Memory is read at the place that counts the looks before. -/
theorem readingsBy_of_due (hlimit : o.memoryLimit.isSome) (hpos : 0 < expanded) (hdvd : o.checkInterval ∣ expanded) :
    o.readingsBy expanded = expanded / o.checkInterval - 1 := by
  have hsucc := o.readingsBy_succ expanded
  rw [if_pos ⟨hlimit, hpos, hdvd⟩, readingsBy, if_pos hlimit, Nat.add_sub_cancel] at hsucc
  omega

/-- Memory is full if a memory limit is exceeded. -/
theorem exceeds_outOfMemory_iff (mon : Monitor) {limit : Nat} (hlimit : o.memoryLimit = some limit)
    (hpos : 0 < expanded) (hdvd : o.checkInterval ∣ expanded) :
    o.Exceeds mon expanded .outOfMemory ↔ (mon.resident (o.readingsBy expanded)).any (limit < ·) = true := by
  rw [readingsBy_of_due (hlimit ▸ rfl) hpos hdvd, Option.any_eq_true]
  constructor
  · rintro (_ | ⟨hsome, hread, hfull⟩)
    obtain rfl := Option.some.inj (hsome.symm.trans hlimit)
    exact ⟨_, hread, decide_eq_true hfull⟩
  · rintro ⟨bytes, hread, hfull⟩
    exact .outOfMemory hlimit hread (of_decide_eq_true hfull)

/-- There are two limits to exceed. -/
theorem not_exceeds (hlate : ¬ o.Exceeds mon expanded .timeout) (hfull : ¬ o.Exceeds mon expanded .outOfMemory)
    (status : Status) : ¬ o.Exceeds mon expanded status := by
  intro h
  cases h with
  | timeout limited late => exact hlate (.timeout limited late)
  | outOfMemory limited read full => exact hfull (.outOfMemory limited read full)

/-- **A look at the limits that stops a search sees one exceeded, and one that does not sees all kept.** -/
theorem look_spec (hi : 0 < o.checkInterval) :
    (∀ status, (o.look mon expanded (o.readingsBy expanded)).verdict = some status →
      0 < expanded ∧ o.checkInterval ∣ expanded ∧ o.Exceeds mon expanded status) ∧
    ((o.look mon expanded (o.readingsBy expanded)).verdict = none →
      (o.look mon expanded (o.readingsBy expanded)).readings = o.readingsBy (expanded + 1) ∧
      (0 < expanded → o.checkInterval ∣ expanded → ∀ status, ¬ o.Exceeds mon expanded status)) := by
  rw [readingsBy_succ]
  unfold look
  split
  · rename_i hdue
    obtain ⟨hpos, hdvd⟩ := (isDue_iff hi).mp hdue
    split
    · rename_i hlate
      refine ⟨fun status hs => ?_, nofun⟩
      exact Option.some.inj hs ▸ ⟨hpos, hdvd, isLate_iff.mp hlate⟩
    · rename_i hlate
      have htime : ¬ o.Exceeds mon expanded .timeout := fun h => hlate (isLate_iff.mpr h)
      cases hlimit : o.memoryLimit with
      | none =>
        refine ⟨nofun, fun _ => ⟨rfl, fun _ _ => not_exceeds htime fun hs => ?_⟩⟩
        cases hs with
        | outOfMemory limited => exact absurd (hlimit.symm.trans limited) nofun
      | some limit =>
        have hmemory := exceeds_outOfMemory_iff mon hlimit hpos hdvd
        dsimp only
        split
        · rename_i hfull
          refine ⟨fun status hs => ?_, nofun⟩
          exact Option.some.inj hs ▸ ⟨hpos, hdvd, hmemory.mpr hfull⟩
        · rename_i hfull
          exact ⟨nofun, fun _ => ⟨(if_pos ⟨rfl, hpos, hdvd⟩).symm, fun _ _ =>
            not_exceeds htime fun hs => hfull (hmemory.mp hs)⟩⟩
  · rename_i hdue
    have hnot : ¬ (0 < expanded ∧ o.checkInterval ∣ expanded) := fun h => hdue ((isDue_iff hi).mpr h)
    exact ⟨nofun, fun _ => ⟨(if_neg fun h => hnot h.2).symm, fun hpos hdvd => absurd ⟨hpos, hdvd⟩ hnot⟩⟩

end SearchOptions

namespace Run

/-- The limits were kept so far, and memory was read as often as they were looked at. -/
structure Within (x : Search) (mon : Monitor) (s : Run α) : Prop where
  readings : s.readings = x.options.readingsBy s.expanded
  kept : ∀ m, 0 < m → m < s.expanded → x.options.checkInterval ∣ m → ∀ status, ¬ x.options.Exceeds mon m status

/-- A move is no expansion, and memory is not read for it. -/
theorem counters_offer : (s.offer x i n v).expanded = s.expanded ∧ (s.offer x i n v).readings = s.readings := by
  have ho := s.offer_cases x i n v
  generalize s.offer x i n v = s' at ho ⊢
  cases ho with
  | revisit => exact ⟨rfl, rfl⟩
  | new _ estimated =>
    cases estimated <;> exact ⟨expanded_remember .., readings_remember ..⟩

/-- **A node that is expanded counts once.** -/
theorem counters_expand :
    (s.expand x i n).expanded = s.expanded + 1 ∧ (s.expand x i n).readings = s.readings := by
  rw [expand_eq]
  refine List.foldlRecOn (motive := fun r : Run α => r.expanded = s.expanded + 1 ∧ r.readings = s.readings) _ _
    ⟨rfl, rfl⟩ fun r hr v _ => ?_
  exact ⟨counters_offer.1.trans hr.1, counters_offer.2.trans hr.2⟩

end Run

namespace Search

/-- A search begins without an expansion. -/
theorem counters_start (x : Search) (h : Heuristic α) : (x.start h).expanded = 0 ∧ (x.start h).readings = 0 := by
  cases hf : Scale.isFinite (h.atRoot x.model x.model.start).1.value with
  | false => exact start_of_infinite hf ▸ ⟨rfl, rfl⟩
  | true =>
    rw [start_of_finite hf]
    exact ⟨(Run.expanded_keep ..).trans (Run.expanded_remember ..),
      (Run.readings_keep ..).trans (Run.readings_remember ..)⟩

/-- **As long as a search goes on, the limits were kept.** -/
theorem within_step (hi : 0 < x.options.checkInterval) (hs : s.Within x mon) (h : x.step mon s = .running s') :
    s'.Within x mon := by
  have turned := x.step_cases mon s
  rw [h] at turned
  cases turned with
  | missing => exact ⟨hs.readings, hs.kept⟩
  | @expanded i q n _ _ _ verdict =>
    rw [hs.readings] at verdict ⊢
    obtain ⟨hreadings, hkept⟩ := (SearchOptions.look_spec hi).2 verdict
    generalize hr : ({ s with frontier := q, readings := _ } : Run α) = r
    obtain ⟨hexpanded, hread⟩ : (r.expand x i n).expanded = s.expanded + 1 ∧
        (r.expand x i n).readings = x.options.readingsBy (s.expanded + 1) := by
      subst hr
      exact ⟨Run.counters_expand.1, Run.counters_expand.2.trans hreadings⟩
    refine ⟨by rw [hread, hexpanded], fun m hpos hlt hdvd => ?_⟩
    rw [hexpanded] at hlt
    obtain hlt | rfl := Nat.lt_succ_iff_lt_or_eq.mp hlt
    · exact hs.kept m hpos hlt hdvd
    · exact hkept hpos hdvd

/-- **The limits were kept in every run a search passes through.** -/
theorem within_of_reaches (hi : 0 < x.options.checkInterval) {h : Heuristic α}
    (hr : x.Reaches mon (x.start h) s) : s.Within x mon := by
  refine hr.keeps (fun _ _ hs hstep => within_step hi hs hstep) ?_
  obtain ⟨hexpanded, hreadings⟩ := counters_start x h
  refine ⟨?_, fun m hpos hlt => absurd hlt (hexpanded ▸ Nat.not_lt_zero m)⟩
  rw [hexpanded, hreadings, SearchOptions.readingsBy, Nat.zero_sub, Nat.zero_div, ite_self]

/-- **A search that is stopped by a limit** is stopped at a node that is no goal. -/
theorem stopped_of_step (hi : 0 < x.options.checkInterval) (hs : s.Within x mon)
    (h : x.step mon s = .finished done) (hlimit : done.result.status.IsLimit) :
    x.options.StopsAt mon done.result.expanded done.result.status ∧
      ∃ i q n, s.frontier.pop? = some (i, q) ∧ s.nodes[i]? = some n ∧ n.situation.isGoal x.model = false := by
  have turned := x.step_cases mon s
  rw [h] at turned
  cases turned with
  | dry => rcases hlimit with hlimit | hlimit <;> cases hlimit
  | goal => rcases hlimit with hlimit | hlimit <;> cases hlimit
  | stopped taken node isNoGoal verdict =>
    rw [hs.readings] at verdict
    obtain ⟨hpos, hdvd, hexceeds⟩ := (SearchOptions.look_spec hi).1 _ verdict
    exact ⟨⟨hpos, hdvd, hexceeds, hs.kept⟩, _, _, _, taken, node, isNoGoal⟩

/-! ## The whole run -/

/-- Other limits make no other beginning. -/
theorem start_withLimits (x : Search) (time memory : Option Nat) (h : Heuristic α) :
    (x.withLimits time memory).start h = x.start h := rfl

/-- What is seen with limits is seen first without them. -/
theorem seen_prefix_of_limits (mon mon' : Monitor) (turns : Nat) (s : Run α) :
    (x.advance mon turns s).last.seen <+: ((x.withLimits none none).advance mon' turns s).last.seen := by
  rcases advance_withLimits (x := x) mon mon' turns (.refl (s := s) rfl) with alike | ⟨done, hdone, -, hseen⟩
  · exact alike.seen ▸ List.prefix_rfl
  · exact hdone ▸ hseen

/-- **A result that no limit brought about is the result without limits**, but for the time. -/
theorem exists_done_of_not_isLimit (mon mon' : Monitor) (hdone : x.run mon turns s = some done)
    (hstatus : ¬ done.result.status.IsLimit) :
    ∃ done', (x.withLimits none none).run mon' turns s = some done' ∧ done'.last.seen = done.last.seen ∧
      done'.result = { done.result with elapsed := done'.result.elapsed } := by
  rw [run_eq_some_iff] at hdone
  rcases advance_withLimits (x := x) mon mon' turns (.refl (s := s) rfl) with alike | ⟨done', hdone', hlimit, -⟩
  · rw [hdone] at alike
    generalize hp : (x.withLimits none none).advance mon' turns s = p at alike
    cases alike with
    | @finished _ done' ends =>
      have hresult := ends.result
      rw [← ends.statistics] at hresult
      exact ⟨done', run_eq_some_iff.mpr hp, ends.last.seen, hresult⟩
  · rw [hdone] at hdone'
    cases hdone'
    exact absurd hlimit hstatus

/-- **Limits only cut a search short**, whatever clock and system report.  With limits and without, so many turns
see the same of the nodes, or those with limits see the first part of it.  A result of the search with limits that
no limit brought about is the result without limits but for the time.  If a limit brought it about, the limit was
exceeded at a positive multiple of the interval and none was at a multiple before, and the node taken last is no
goal. -/
theorem limits_cut_off (hinterval : 0 < x.options.checkInterval) (mon mon' : Monitor) (turns : Nat)
    (h : Heuristic α) :
    (x.advance mon turns (x.start h)).last.seen <+:
      ((x.withLimits none none).advance mon' turns ((x.withLimits none none).start h)).last.seen ∧
    ∀ done, x.run mon turns (x.start h) = some done →
      (¬ done.result.status.IsLimit → ∃ done',
        (x.withLimits none none).run mon' turns ((x.withLimits none none).start h) = some done' ∧
        done'.last.seen = done.last.seen ∧
        done'.result = { done.result with elapsed := done'.result.elapsed }) ∧
      (done.result.status.IsLimit →
        x.options.StopsAt mon done.result.expanded done.result.status ∧
        ∃ last, x.Reaches mon (x.start h) last ∧ x.step mon last = .finished done ∧
          ∃ i q n, last.frontier.pop? = some (i, q) ∧ last.nodes[i]? = some n ∧
            n.situation.isGoal x.model = false) := by
  rw [start_withLimits]
  refine ⟨seen_prefix_of_limits mon mon' turns (x.start h), fun done hdone =>
    ⟨exists_done_of_not_isLimit mon mon' hdone, fun hlimit => ?_⟩⟩
  obtain ⟨last, hreach, hstep⟩ := exists_last hdone
  obtain ⟨hstops, hnode⟩ := stopped_of_step hinterval (within_of_reaches hinterval hreach) hstep hlimit
  exact ⟨hstops, last, hreach, hstep, hnode⟩

/-- The lamp with no time at all, looked at after every expansion. -/
def hurriedLamp : Search :=
  { lamp [0] with options := { kind := .breadthFirst, timeLimit := some 0, checkInterval := 1 } }

/-- In no time the lamp is given up after one expansion, with a node in hand that is no goal; what was seen until
then is seen with more time too. -/
theorem limits_cut_off_lamp :
    0 < hurriedLamp.options.checkInterval ∧ ∃ done : Finished Float,
      hurriedLamp.run ⟨id, fun _ => none⟩ 9 (hurriedLamp.start (.fresh .blind)) = some done ∧
      done.result.status = .timeout ∧
      hurriedLamp.options.StopsAt ⟨id, fun _ => none⟩ 1 .timeout ∧
      done.last.seen <+: ((hurriedLamp.withLimits none none).advance ⟨id, fun _ => none⟩ 9
        ((hurriedLamp.withLimits none none).start (.fresh .blind))).last.seen := by
  obtain ⟨done, hr⟩ : ∃ done : Finished Float,
      hurriedLamp.run ⟨id, fun _ => none⟩ 9 (hurriedLamp.start (.fresh .blind)) = some done :=
    Option.isSome_iff_exists.mp (by decide +kernel)
  have hout : (hurriedLamp.run ⟨id, fun _ => none⟩ 9 (hurriedLamp.start (.fresh .blind) : Run Float)).map
      (fun d => (d.result.status, d.result.expanded)) = some (.timeout, 1) := by
    decide +kernel
  rw [hr, Option.map_some, Option.some.injEq, Prod.mk.injEq] at hout
  obtain ⟨hstatus, hexpanded⟩ := hout
  obtain ⟨hseen, hends⟩ := limits_cut_off (x := hurriedLamp) (by decide) ⟨id, fun _ => none⟩ ⟨id, fun _ => none⟩ 9
    (.fresh .blind : Heuristic Float)
  obtain ⟨hstops, -⟩ := (hends done hr).2 (.inl hstatus)
  rw [hstatus, hexpanded] at hstops
  rw [run_eq_some_iff.mp hr] at hseen
  exact ⟨by decide, done, hr, hstatus, hstops, hseen⟩

end Search

end HierPlan
