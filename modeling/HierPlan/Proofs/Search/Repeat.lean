import HierPlan.Planner
import HierPlan.Proofs.Heuristic.Release
import HierPlan.Proofs.Model.WellFormed
import HierPlan.Proofs.Search.Alike

/-!
# Proofs/Search/Repeat — a planner may search again

    planner ──run──▸ planner ──run──▸ planner ──run──▸ …       the same result and the same events each time,
       0                c                2c                    figures over estimates added up

The heuristic of a planner outlives a search: it has let its tables go by then, and remembers what it was asked
about.  As it gives the root its estimate again (`Heuristic.atRoot_again`) and is not changed by estimating moves,
the next search begins like the first one and goes on like it.  **Every run of a planner without a time limit
repeats the first** (`Planner.runs_repeat`), as far as memory reads the same throughout.
-/

namespace HierPlan

variable {α : Type} [Scale α] {x : Search} {mon mon' : Monitor} {s s' : Run α} {i fuel : Nat} {n : Node α}
  {v : Move} {h h' : Heuristic α} {S : Statistics α → Statistics α → Prop} {done : Finished α}

/-! ## Alike runs have alike results -/

/-- Without a time limit, how often memory was read does not matter if it reads the same throughout. -/
theorem SearchOptions.verdict_look_congr {o : SearchOptions} {reading : Option Nat} (htime : o.timeLimit = none)
    (hmon : ∀ i, mon.resident i = reading) (hmon' : ∀ i, mon'.resident i = reading) (expanded readings more : Nat) :
    (o.look mon' expanded more).verdict = (o.look mon expanded readings).verdict := by
  unfold look isLate
  rw [htime, Option.any_none, Option.any_none, hmon, hmon']
  split
  · cases o.memoryLimit with
    | none => rfl
    | some limit =>
      dsimp only
      cases reading.any (limit < ·) <;> rfl
  · rfl

namespace Search

/-- **Without a time limit alike runs have alike results**, if memory reads the same throughout. -/
theorem run_alike {reading : Option Nat} (hS : Statistics.Lasting S) (htime : x.options.timeLimit = none)
    (hmon : ∀ i, mon.resident i = reading) (hmon' : ∀ i, mon'.resident i = reading) (halike : s.Alike S s')
    (hdone : x.run mon fuel s = some done) : ∃ done', x.run mon' fuel s' = some done' ∧ done.Alike S done' := by
  induction fuel generalizing s s' with
  | zero => cases hdone
  | succ fuel ih =>
    have hexpanded := halike.expanded
    have hsteps : (x.step mon s).Alike S (x.step mon' s') :=
      alike_step x.options.timeLimit x.options.memoryLimit hS halike fun _ _ _ _ _ _ => hexpanded ▸
        SearchOptions.verdict_look_congr htime hmon hmon' s.expanded s.readings s'.readings
    rw [run] at hdone ⊢
    generalize x.step mon s = p, x.step mon' s' = p' at hdone hsteps ⊢
    cases hsteps with
    | running runs => exact ih runs hdone
    | finished ends =>
      cases hdone
      exact ⟨_, rfl, ends⟩

/-- **Alike heuristics make alike beginnings**: the same estimate of the root, and the same to estimate moves with. -/
theorem alike_start (hestimate : (h'.atRoot x.model x.model.start).1 = (h.atRoot x.model x.model.start).1)
    (hestimator : (h'.atRoot x.model x.model.start).2.release.estimator =
      (h.atRoot x.model x.model.start).2.release.estimator)
    (figures : S (h.atRoot x.model x.model.start).2.release.statistics
      (h'.atRoot x.model x.model.start).2.release.statistics) : (x.start h).Alike S (x.start h') := by
  have hblank : x.blank h' =
      (x.blank h).recounted (h'.atRoot x.model x.model.start).2.release.statistics 0 := by
    rw [blank, blank, Run.recounted, hestimate, ← hestimator]
  have blanks : (x.blank h).Alike S (x.blank h') := hblank ▸ .intro (s := x.blank h) figures
  cases hf : Scale.isFinite (h.atRoot x.model x.model.start).1.value with
  | false => rwa [start_of_infinite hf, start_of_infinite (hestimate ▸ hf)]
  | true =>
    rw [start_of_finite hf, start_of_finite (hestimate ▸ hf), hestimate]
    exact .keep (.remember blanks)

end Search

/-! ## Run after run -/

/-- Figures that are so many estimates ahead. -/
structure Statistics.Ahead (calls finite : Nat) (a b : Statistics α) : Prop where
  calls : b.calls = a.calls + calls
  finite : b.finite = a.finite + finite

theorem Statistics.lasting_ahead (calls finite : Nat) :
    Statistics.Lasting (Statistics.Ahead (α := α) calls finite) := by
  rintro a b value ⟨hcalls, hfinite⟩
  refine ⟨?_, ?_⟩
  · rw [calls_record, calls_record, hcalls, Nat.add_right_comm]
  · rw [finite_record, finite_record, hfinite, Nat.add_right_comm]

namespace Planner

variable {m : Model} {o : PlannerOptions} {key : Situation → UInt64} {p : Planner α} {first : Finished α}

/-- The planner after so many runs; none if one of them is not over after so many steps. -/
def afterRuns (p : Planner α) (mons : Nat → Monitor) (fuel : Nat) : Nat → Option (Planner α)
  | 0 => some p
  | k + 1 => (p.afterRuns mons fuel k).bind fun q => (q.run (mons k) fuel).map q.after

/-- A planner is built to the options, and has estimated nothing yet. -/
theorem fresh_of_build (hbuild : Planner.build m o key = .ok p) :
    p.search.options = o.search ∧ p.heuristic.statistics = Statistics.empty := by
  obtain ⟨-, -, hbuild⟩ := exists_of_bind_eq_ok hbuild
  obtain ⟨h, hheuristic, hbuild⟩ := exists_of_bind_eq_ok hbuild
  obtain ⟨-, -, hheuristic⟩ := exists_of_bind_eq_ok hheuristic
  obtain rfl := Except.ok.inj hbuild
  obtain rfl := Except.ok.inj hheuristic
  exact ⟨rfl, rfl⟩

/-- **A run repeats the first one** if the heuristic was left by a run like it. -/
theorem run_again {reading : Option Nat} {q : Planner α} {calls finite : Nat}
    (htime : p.search.options.timeLimit = none) (hmon : ∀ i, mon.resident i = reading)
    (hmon' : ∀ i, mon'.resident i = reading) (hfirst : p.run mon fuel = some first)
    (hsearch : q.search = p.search) (hestimator : q.heuristic.estimator = first.last.heuristic.estimator)
    (hahead : p.heuristic.statistics.Ahead calls finite q.heuristic.statistics) :
    ∃ done, q.run mon' fuel = some done ∧ first.Alike (Statistics.Ahead calls finite) done := by
  have hreleased := hestimator.trans (Search.estimator_last hfirst)
  obtain ⟨hestimate, hkept⟩ := Heuristic.atRoot_again hreleased
  have hstart : p.start.Alike (Statistics.Ahead calls finite) (p.search.start q.heuristic) := by
    refine Search.alike_start hestimate (hkept.trans hreleased) ?_
    rw [Heuristic.statistics_atRoot, Heuristic.statistics_atRoot, hestimate]
    exact Statistics.lasting_ahead calls finite _ _ _ hahead
  rw [run, start, hsearch]
  exact Search.run_alike (Statistics.lasting_ahead calls finite) htime hmon hmon' hstart hfirst

/-- What holds of the planner `q` after `k` runs of a planner `p`, and of its next run: the search is the same, the
heuristic is left by a run like the first one, and its figures are so many times those of the first run ahead. -/
structure Repeats (p : Planner α) (first : Finished α) (k : Nat) (q : Planner α) (done : Finished α) : Prop where
  search : q.search = p.search
  estimator : k = 0 ∨ q.heuristic.estimator = first.last.heuristic.estimator
  ahead : p.heuristic.statistics.Ahead (k * first.result.statistics.calls) (k * first.result.statistics.finite)
    q.heuristic.statistics
  ends : first.Alike
    (Statistics.Ahead (k * first.result.statistics.calls) (k * first.result.statistics.finite)) done

/-- **Run by run it goes on like that.** -/
theorem exists_repeats {reading : Option Nat} {mons : Nat → Monitor}
    (hfresh : p.heuristic.statistics = Statistics.empty) (htime : p.search.options.timeLimit = none)
    (hmons : ∀ k i, (mons k).resident i = reading) (hfirst : p.run (mons 0) fuel = some first) (k : Nat) :
    ∃ q done, p.afterRuns mons fuel k = some q ∧ q.run (mons k) fuel = some done ∧ p.Repeats first k q done := by
  induction k with
  | zero =>
    have hzero : ∀ a : Statistics α, a.Ahead (0 * first.result.statistics.calls)
        (0 * first.result.statistics.finite) a := fun a => ⟨by omega, by omega⟩
    exact ⟨p, first, rfl, hfirst, rfl, .inl rfl, hzero _, .refl (hzero _), rfl, hzero _⟩
  | succ k ih =>
    obtain ⟨q, done, hq, hdone, before⟩ := ih
    have hleft : done.last.heuristic.estimator = first.last.heuristic.estimator := before.ends.last.estimator
    have hahead : p.heuristic.statistics.Ahead ((k + 1) * first.result.statistics.calls)
        ((k + 1) * first.result.statistics.finite) done.last.heuristic.statistics := by
      -- the first run began without figures, so what it reports is what it added
      obtain ⟨hcalls, hfinite⟩ := before.ends.last.figures
      rw [Search.heuristic_last hfirst] at hcalls hfinite
      rw [hfresh, Nat.add_comm k, Nat.add_mul, Nat.add_mul, Nat.one_mul, Nat.one_mul]
      exact ⟨hcalls.trans (Nat.zero_add _).symm, hfinite.trans (Nat.zero_add _).symm⟩
    obtain ⟨next, hnext, hends⟩ := run_again (q := q.after done) htime (hmons 0) (hmons (k + 1)) hfirst
      before.search hleft hahead
    refine ⟨q.after done, next, ?_, hnext, before.search, .inr hleft, hahead, hends⟩
    rw [afterRuns, hq, Option.bind_some, hdone, Option.map_some]

/-- **Every run of a planner repeats the first one**, though the tables of its heuristic were let go in the first:
without a time limit, and with memory reading the same throughout, each run has the same result but for time and
figures, and the same is seen of it, however situations are hashed.  The figures of all runs before add up: so many
times the estimates of the first run, and so many times the finite ones. -/
theorem runs_repeat {reading : Option Nat} {mons : Nat → Monitor} (hbuild : Planner.build m o key = .ok p)
    (htime : o.search.timeLimit = none) (hmons : ∀ k i, (mons k).resident i = reading)
    (hfirst : p.run (mons 0) fuel = some first) (k : Nat) :
    ∃ q done, p.afterRuns mons fuel k = some q ∧ q.run (mons k) fuel = some done ∧
      done.result =
        { first.result with elapsed := done.result.elapsed, statistics := done.result.statistics } ∧
      done.last.trace = first.last.trace ∧
      q.heuristic.statistics.calls = k * first.result.statistics.calls ∧
      q.heuristic.statistics.finite = k * first.result.statistics.finite ∧
      (0 < k → q.heuristic.release = q.heuristic) := by
  obtain ⟨hoptions, hfresh⟩ := fresh_of_build hbuild
  obtain ⟨q, done, hq, hdone, again⟩ := exists_repeats hfresh (hoptions ▸ htime) hmons hfirst k
  refine ⟨q, done, hq, hdone, again.ends.result, again.ends.last.trace, ?_, ?_, fun hk => ?_⟩
  · rw [again.ahead.calls, hfresh, Statistics.empty, Nat.zero_add]
  · rw [again.ahead.finite, hfresh, Statistics.empty, Nat.zero_add]
  · exact Heuristic.release_of_estimator
      ((again.estimator.resolve_left (Nat.ne_of_gt hk)).trans (Search.estimator_last hfirst))

/-- The lamp, oldest node first, by what the landmarks of both directions cost when unit costs are shared. -/
def lampOptions : PlannerOptions where
  search := { kind := .breadthFirst }
  heuristic := { kind := .landmarkCount, landmarks := { bidirectional := true, partition := true } }

/-- A planner for the lamp. -/
def lamp : Planner Float where
  search := { model := .lamp [0], options := lampOptions.search }
  heuristic := .fresh (.landmarkCount (.build (.lamp [0]) lampOptions.heuristic.landmarks))

/-- Each search starts at a later time; the system does not tell how much memory is in use. -/
def lampMonitor (k : Nat) : Monitor := ⟨fun _ => k, fun _ => none⟩

/-- The lamp is lit a third time like the first time, without tables, when ten nodes were estimated before. -/
theorem runs_repeat_lamp :
    Planner.build (.lamp [0]) lampOptions = .ok lamp ∧ lampOptions.search.timeLimit = none ∧
      ∃ first q done, lamp.run (lampMonitor 0) 9 = some first ∧ first.result.plan = [0] ∧
        lamp.afterRuns lampMonitor 9 2 = some q ∧
        q.heuristic.release = q.heuristic ∧ q.heuristic.statistics.calls = 10 ∧
        q.run (lampMonitor 2) 9 = some done ∧ done.result.plan = [0] ∧
        done.last.trace = first.last.trace := by
  obtain ⟨first, hfirst⟩ : ∃ first, lamp.run (lampMonitor 0) 9 = some first :=
    Option.isSome_iff_exists.mp (by decide +kernel)
  have hout : (lamp.run (lampMonitor 0) 9).map
      (fun d => (d.result.plan, d.result.statistics.calls)) = some ([0], 5) := by
    decide +kernel
  rw [hfirst, Option.map_some, Option.some.injEq, Prod.mk.injEq] at hout
  obtain ⟨hplan, hcalls⟩ := hout
  have hbuild : Planner.build (.lamp [0]) lampOptions = .ok lamp := rfl
  obtain ⟨q, done, hq, hdone, hresult, htrace, hcount, -, hreleased⟩ :=
    runs_repeat hbuild rfl (fun _ _ => rfl) hfirst 2
  refine ⟨hbuild, rfl, first, q, done, hfirst, hplan, hq, hreleased (by decide), ?_, hdone, ?_, htrace⟩
  · rw [hcount, hcalls]
  · rw [hresult]
    exact hplan

end Planner

end HierPlan
