import HierPlan.Heuristic.Basic

/-!
# Proofs/Heuristic/Release — a root that was asked about may be asked about again

    root ──atRoot──▸ estimate      tables
         ──release──▸              no tables
         ──atRoot──▸ estimate      the same, from what is remembered of the root

The tables of a landmark engine are let go as soon as the root of a search has its estimate.  **The root is given
the same estimate again** (`Heuristic.atRoot_again`), whatever it was: landmarks and their costs are remembered,
so is that the goal is out of reach, and a question that had no answer has none without tables either.
-/

namespace HierPlan

variable {α : Type} [Scale α] {m : Model} {s : Situation}

namespace LandmarkCount

variable {c c' : LandmarkCount α} {r : RootLandmarks α}

/-- What is found out about a root is remembered under that root. -/
theorem root_of_ask (h : c.ask m s = .ok r) : r.root = s := by
  unfold ask at h
  cases hl : c.engine.landmarks m s.state s.network c.options.bidirectional with
  | error cause =>
    rw [hl] at h
    cases h
  | ok landmarks =>
    rw [hl] at h
    cases landmarks with
    | none => exact Except.ok.inj h ▸ rfl
    | some set =>
      dsimp only [bind, Except.bind] at h
      split at h
      · cases hp : c.engine.partition (α := α) set with
        | error cause =>
          rw [hp] at h
          cases h
        | ok costs =>
          rw [hp] at h
          exact Except.ok.inj h ▸ rfl
      · exact Except.ok.inj h ▸ rfl

/-- Without tables a question has no answer. -/
theorem ask_release : c.release.ask m s = .error .released := rfl

/-- A root that was looked at is remembered. -/
theorem root_of_lookAt (h : c.lookAt m s = some c') : (c'.root.any fun r => decide (r.root = s)) = true := by
  unfold lookAt at h
  split at h
  · rename_i hroot
    exact Option.some.inj h ▸ hroot
  · cases hask : c.ask m s with
    | error cause =>
      rw [hask] at h
      cases h
    | ok r =>
      rw [hask] at h
      rw [← Option.some.inj h]
      exact decide_eq_true (root_of_ask hask)

/-- **A root that was looked at needs no tables any more.** -/
theorem lookAt_release (h : c.lookAt m s = some c') : c'.release.lookAt m s = some c'.release :=
  if_pos (root_of_lookAt h)

/-- A root that could not be looked at cannot be without tables. -/
theorem lookAt_release_of_none (h : c.lookAt m s = none) : c.release.lookAt m s = none := by
  unfold lookAt at h ⊢
  split at h
  · cases h
  · rename_i hroot
    rw [ask_release]
    exact if_neg hroot

/-- The estimate of a root that was looked at. -/
def answer (c : LandmarkCount α) (s : Situation) : Estimate α :=
  match c.root.bind (·.landmarks) with
  | none => ⟨Scale.infinite, none⟩
  | some landmarks => c.marked landmarks (s.state.resize landmarks.width)

/-- A root that was looked at is estimated by what is remembered of it. -/
theorem atRoot_of_lookAt (h : c.lookAt m s = some c') : c.atRoot m s = (c'.answer s, c') := by
  rw [atRoot, h, answer]
  dsimp only
  cases c'.root.bind (·.landmarks) <;> rfl

/-- A root that cannot be looked at is given up. -/
theorem atRoot_of_lookAt_none (h : c.lookAt m s = none) : c.atRoot m s = (⟨Scale.infinite, none⟩, c) := by
  rw [atRoot, h]

/-- **A counter gives a root the same estimate without tables as with them.** -/
theorem atRoot_release (c : LandmarkCount α) (m : Model) (s : Situation) :
    (c.atRoot m s).2.release.atRoot m s = ((c.atRoot m s).1, (c.atRoot m s).2.release) := by
  cases hl : c.lookAt m s with
  | none => rw [atRoot_of_lookAt_none hl, atRoot_of_lookAt_none (lookAt_release_of_none hl)]
  | some c' =>
    rw [atRoot_of_lookAt hl, atRoot_of_lookAt (lookAt_release hl)]
    rfl

end LandmarkCount

namespace Heuristic

variable {h h' : Heuristic α}

omit [Scale α] in
/-- A heuristic that was released has nothing more to let go. -/
theorem release_of_estimator (he : h'.estimator = h.release.estimator) : h'.release = h' := by
  obtain ⟨estimator, statistics⟩ := h'
  subst he
  obtain ⟨estimator, -⟩ := h
  cases estimator <;> rfl

/-- A root is recorded as any estimate is, and letting tables go changes no figures. -/
theorem statistics_atRoot (h : Heuristic α) (m : Model) (s : Situation) :
    (h.atRoot m s).2.release.statistics = h.statistics.record (h.atRoot m s).1.value := by
  obtain ⟨estimator, -⟩ := h
  cases estimator <;> rfl

/-- **Asked about a root again, a heuristic that was released gives the same estimate**, and is left as it was but
for the figures. -/
theorem atRoot_again (he : h'.estimator = (h.atRoot m s).2.release.estimator) :
    (h'.atRoot m s).1 = (h.atRoot m s).1 ∧ (h'.atRoot m s).2.release.estimator = h'.estimator := by
  obtain ⟨estimator, statistics⟩ := h'
  subst he
  obtain ⟨estimator, -⟩ := h
  cases estimator with
  | blind => exact ⟨rfl, rfl⟩
  | landmarkCount c =>
    have hagain := c.atRoot_release m s
    exact ⟨show ((c.atRoot m s).2.release.atRoot m s).1 = _ by rw [hagain]; rfl,
      show Estimator.landmarkCount ((c.atRoot m s).2.release.atRoot m s).2.release = _ by rw [hagain]; rfl⟩
  | decomposition => exact ⟨rfl, rfl⟩
  | landmarkCut => exact ⟨rfl, rfl⟩

end Heuristic

end HierPlan
