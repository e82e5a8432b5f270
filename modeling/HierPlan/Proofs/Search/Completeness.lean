import HierPlan.Proofs.Double.Finite
import HierPlan.Proofs.Heuristic.Safe
import HierPlan.Proofs.Search.Soundness

/-!
# Proofs/Search/Completeness — a problem called unsolvable has no solution

    solution ──▸ the root is kept ──▸ some node on the way always waits ──▸ the frontier never runs dry

A search says `unsolvable` when nothing waits, be it that the root was a dead end or that every node was
expanded.  **Then there is no solution** (`Search.not_isSolution_of_unsolvable`), for every order of
expansion, with novelty or without, and for every heuristic that the options can ask for, whether it is
fresh or has searched the problem before.
-/

namespace HierPlan

namespace Search

variable {α : Type} [Scale α] {x : Search} {mon : Monitor} {fuel : Nat} {h : Heuristic α}
  {o : HeuristicOptions} {done : Finished α} {s s' : Run α}

/-- A root that is kept stands for the start. -/
theorem holds_start (hfinite : Scale.isFinite (h.atRoot x.model x.model.start).1.value = true) :
    (x.start h).Holds x.model.start 0 := by
  generalize hs : x.start h = s
  have started := start_cases x h
  rw [hs] at started
  cases started with
  | deadEnd infinite =>
    rw [infinite] at hfinite
    cases hfinite
  | kept _ root nodes =>
    subst root
    exact ⟨0, _, by rw [nodes]; rfl, rfl, Nat.zero_le 0⟩

section Lawful

variable [Scale.Lawful α] {m : Model}

omit [Scale.Lawful α] in
/-- A fresh heuristic serves the options it was built for. -/
theorem serves_of_build (hb : Heuristic.build m o = .ok h) : h.estimator.Serves m o := by
  obtain ⟨-, -, hh⟩ := exists_of_bind_eq_ok hb
  obtain rfl := Except.ok.inj hh
  cases hk : o.kind with
  | blind => exact .blind hk
  | landmarkCount => exact .landmarkCount hk (.inl rfl)
  | decomposition => exact .decomposition hk
  | landmarkCut => exact .landmarkCut hk

/-- **Searches leave a heuristic that serves.** -/
theorem serves_of_used (hw : m.WellFormed) (ho : o.Holds m) (hu : h.Used m o) :
    h.estimator.Serves m o := by
  induction hu with
  | fresh built => exact serves_of_build built
  | again _ same ran ih =>
    subst same
    rw [estimator_last ran]
    exact (Heuristic.looked hw ho ih).serves

/-- **A search never loses what is worth keeping.** -/
theorem covers_of_reaches (hw : x.model.WellFormed) (ho : o.Holds x.model) (hu : h.Used x.model o)
    {r : Run α} (hr : x.Reaches mon (x.start h) r) :
    r.Covers x (Worth x.model (o.Admits x.model)) none ∧
      (Worth x.model (o.Admits x.model) x.model.start → r.Holds x.model.start 0) := by
  have looked := Heuristic.looked hw ho (serves_of_used hw ho hu)
  have hheuristic := heuristic_start x h
  have hcovers : (x.start h).Covers x (Worth x.model (o.Admits x.model)) none :=
    covers_start fun hfinite => hheuristic ▸ looked.accepts hfinite
  have hsafe : (x.start h).heuristic.estimator.Safe x.model (Worth x.model (o.Admits x.model)) :=
    hheuristic ▸ looked.serves.safe hw ho looked.ready
  obtain ⟨hr, -, hroot⟩ := hr.keeps
    (P := fun r : Run α => r.Covers x (Worth x.model (o.Admits x.model)) none ∧
      r.heuristic.estimator.Safe x.model (Worth x.model (o.Admits x.model)) ∧
      (Worth x.model (o.Admits x.model) x.model.start → r.Holds x.model.start 0))
    (fun r r' hr hstep => by
      obtain ⟨hcov, hsafe', hroot⟩ := hr
      obtain ⟨hcov', hsafe''⟩ := covers_step hcov hsafe' hstep
      exact ⟨hcov', hsafe'', fun hworth => (hroot hworth).mono (extends_step hstep) le_rfl⟩)
    ⟨hcovers, hsafe, fun hworth => holds_start (looked.finite hworth)⟩
  exact ⟨hr, hroot⟩

/-- **A problem called unsolvable has no solution.** -/
theorem not_isSolution_of_unsolvable {d : Draft} (hd : d.build = .ok x.model) (ho : o.Holds x.model)
    (hu : h.Used x.model o) (hr : x.run mon fuel (x.start h) = some done)
    (hsep : x.options.revisit = .hashedKey → done.last.Separated x)
    (hs : done.result.status = .unsolvable) (plan : List Nat) (hp : o.Admits x.model plan) :
    ¬ x.model.IsSolution plan := by
  have hw := Draft.wellFormed_of_build hd
  intro hsolution
  obtain ⟨last, hreach, hstep⟩ := exists_last hr
  obtain ⟨hcovers, hroot⟩ := covers_of_reaches hw ho hu hreach
  rcases finished_of_step hstep with ⟨hempty, rfl⟩ | ⟨i, q, n, -, -, ⟨-, rfl⟩ | ⟨-, st, rd, hst, rfl⟩⟩
  · have hworth := worth_start hw hsolution hp
    obtain ⟨t, hexec, hgoal⟩ := hsolution
    obtain ⟨i, hi, -⟩ := hcovers.exists_waiting hsep (fun p q => HeuristicOptions.Admits.suffix)
      hworth.width (execution_iff_walk.mp hexec) (Situation.isGoal_iff.mpr ⟨rfl, hgoal⟩) hp
      (hroot hworth)
    rw [Frontier.pop?_eq_none.mp hempty] at hi
    exact List.not_mem_nil hi
  · cases hs
  · have hunsolvable : st = .unsolvable := hs
    rcases hst with rfl | rfl <;> cases hunsolvable

/-- Nothing ever pays the bill. -/
theorem not_isSolution_of_unsolvable_lamp :
    ∃ done : Finished Float, (lamp [1]).run ⟨fun _ => 0, fun _ => none⟩ 9
        ((lamp [1]).start (.fresh .blind)) = some done ∧
      done.result.status = .unsolvable ∧ ¬ (Model.lamp [1]).IsSolution [0] := by
  obtain ⟨done, hr⟩ : ∃ done : Finished Float, (lamp [1]).run ⟨fun _ => 0, fun _ => none⟩ 9
      ((lamp [1]).start (.fresh .blind)) = some done :=
    Option.isSome_iff_exists.mp (by decide +kernel)
  have hout : ((lamp [1]).run ⟨fun _ => 0, fun _ => none⟩ 9 ((lamp [1]).start
      (.fresh .blind) : Run Float)).map (fun d => d.result.status) = some .unsolvable := by
    decide +kernel
  rw [hr, Option.map_some, Option.some.injEq] at hout
  have hbuild : (Draft.lamp [1]).build = .ok (lamp [1]).model := rfl
  have hholds : HeuristicOptions.Holds { kind := .blind } (lamp [1]).model :=
    ⟨fun hk => (nomatch hk), fun hk => (nomatch hk)⟩
  have hused : (Heuristic.fresh .blind : Heuristic Float).Used (.lamp [1]) { kind := .blind } := .fresh rfl
  exact ⟨done, hr, hout, not_isSolution_of_unsolvable hbuild hholds hused hr (fun hk => (nomatch hk)) hout
    [0] fun hk => (nomatch hk)⟩

end Lawful

end Search

end HierPlan
