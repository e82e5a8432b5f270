import HierPlan.Execution
import HierPlan.Proofs.Model.WellFormed

/-!
# Proofs/Model/TopTask — what unwrapping a top task does to the solutions of a problem

    as declared   [top] ──its only method, if applicable──▸ network ──▸ …
    as built                                                network ──▸ …

A built problem differs from the declared one in its network only, and there by the first step of every
execution.  That step asks for the preconditions of the method, and unwrapping does not: **the built problem
has the solutions of the declared one as long as the method is applicable at the start; otherwise the declared
one has none** (`Draft.isSolution_iff_of_build`).
-/

namespace HierPlan

namespace Model

variable {m : Model}

/-- Without a top method nothing is unwrapped. -/
theorem withoutTop_of_none (h : m.topMethod? = none) : m.withoutTop = m := by
  rw [withoutTop, topNetwork?, h]
  rfl

/-- With one, its network is what is left to do. -/
theorem withoutTop_of_some {y : Method} (h : m.topMethod? = some y) :
    m.withoutTop = { m with network := y.network } := by
  rw [withoutTop, topNetwork?, h]
  rfl

end Model

namespace Execution

variable {m : Model} {s t : IdSet} {a d : Nat} {x : Compound} {y : Method} {plan : List Nat}

/-- Executions look at operators, tasks and methods only, not at what a problem asks for. -/
theorem with_network {xs : List Task} (h : Execution m s xs plan t) (network : List Task) :
    Execution { m with network } s xs plan t := by
  induction h with
  | done => exact .done
  | operator known applicable _ ih => exact .operator known applicable ih
  | compound known listed chosen applicable _ _ inner outer =>
    exact .compound known listed chosen applicable inner outer

/-- **A task with a single method is done by doing the network of that method**, and only where the method is
applicable. -/
theorem compound_iff (known : m.compounds[a]? = some x) (only : x.methods = [d])
    (chosen : m.methods[d]? = some y) :
    Execution m s [.compound a] plan t ↔ y.applicable s = true ∧ Execution m s y.network plan t := by
  constructor
  · rintro (_ | _ | ⟨known', listed, chosen', applicable, inside, after⟩)
    obtain rfl := Option.some.inj (known.symm.trans known')
    obtain rfl := List.mem_singleton.mp (only ▸ listed)
    obtain rfl := Option.some.inj (chosen.symm.trans chosen')
    cases after
    rw [List.append_nil]
    exact ⟨applicable, inside⟩
  · rintro ⟨applicable, inside⟩
    have h := Execution.compound known (only ▸ List.mem_singleton_self d) chosen applicable inside .done
    rwa [List.append_nil] at h

end Execution

namespace Model

variable {m : Model}

/-- **Unwrapping a top task takes the preconditions of its method off every solution**, and nothing else. -/
theorem isSolution_iff_withoutTop (m : Model) (plan : List Nat) :
    m.IsSolution plan ↔
      m.withoutTop.IsSolution plan ∧ ∀ y, m.topMethod? = some y → y.applicable m.init = true := by
  cases htop : m.topMethod? with
  | none =>
    rw [withoutTop_of_none htop]
    exact ⟨fun h => ⟨h, fun _ hy => nomatch hy⟩, And.left⟩
  | some y =>
    obtain ⟨a, d, x, hnet, known, only, chosen⟩ := topMethod?_eq_some htop
    rw [withoutTop_of_some htop]
    constructor
    · rintro ⟨t, hexec, hgoal⟩
      rw [hnet, Execution.compound_iff known only chosen] at hexec
      refine ⟨⟨t, hexec.2.with_network y.network, hgoal⟩, fun z hz => ?_⟩
      obtain rfl := Option.some.inj hz
      exact hexec.1
    · rintro ⟨⟨t, hexec, hgoal⟩, happlicable⟩
      refine ⟨t, ?_, hgoal⟩
      rw [hnet, Execution.compound_iff known only chosen]
      exact ⟨happlicable y rfl, hexec.with_network m.network⟩

end Model

namespace Draft

variable {d : Draft} {m : Model}

/-- A problem is assembled with the network it was declared with. -/
theorem network_of_assemble (h : d.assemble = .ok m) : m.network = d.network := by
  obtain ⟨-, -, -, -, -, -, -, -, -, rfl⟩ := exists_of_assemble h
  rfl

/-- **The built problem with its declared network is the problem as assembled.** -/
theorem assemble_of_build (h : d.build = .ok m) :
    d.assemble = .ok { m with network := d.network } ∧
      m = Model.withoutTop { m with network := d.network } := by
  obtain ⟨m₀, hm₀, rfl, -⟩ := exists_of_build h
  have hnet := network_of_assemble hm₀
  have hsame : { m₀.withoutTop with network := d.network } = m₀ := by
    rw [← hnet, Model.withoutTop]
    split <;> rfl
  rw [hsame]
  exact ⟨hm₀, rfl⟩

/-- **What unwrapping a top task does to the solutions.**  A sequence of operators solves the problem with the
network it was declared with exactly if it solves the built problem and, should a top task have been
unwrapped, its method is applicable at the start. -/
theorem isSolution_iff_of_build (h : d.build = .ok m) (plan : List Nat) :
    Model.IsSolution { m with network := d.network } plan ↔
      m.IsSolution plan ∧
        ∀ y, Model.topMethod? { m with network := d.network } = some y → y.applicable m.init = true := by
  obtain ⟨-, hm⟩ := assemble_of_build h
  have hiff := Model.isSolution_iff_withoutTop { m with network := d.network } plan
  rwa [← hm] at hiff

end Draft

/-! ## A gate

The only method of the top task wants the gate open; what it wraps does not. -/

namespace Draft

/-- The gate as declared. -/
def gated (init : List Nat) : Draft where
  facts := #["open"]
  operators := #[⟨"go", 1, [], [], [], []⟩]
  compounds := #["__top"]
  methods := #[⟨"through", 0, [0], [], [.operator 0]⟩]
  init
  network := [.compound 0]

end Draft

/-- The gate as built: what the method wraps is all that is left to do. -/
def Model.gated (init : List Nat) : Model where
  facts := #[⟨0, "open"⟩]
  operators := #[⟨1, "go", 1, .ofList 1 [], .ofList 1 [], .ofList 1 [], .ofList 1 []⟩]
  compounds := #[⟨2, "__top", [0]⟩]
  methods := #[⟨3, "through", 0, .ofList 1 [0], .ofList 1 [], [.operator 0]⟩]
  init := .ofList 1 init
  goal := .ofList 1 []
  network := [.operator 0]

/-- What the method wraps can always be done. -/
theorem Model.isSolution_gated (init : List Nat) : (Model.gated init).IsSolution [0] := by
  have hnone : ∀ f ∈ IdSet.ofList 1 [], f ∉ (Model.gated init).init := fun f hf =>
    absurd hf IdSet.not_mem_empty
  refine ⟨_, .operator rfl (Operator.applicable_iff.mpr ⟨fun f hf => ?_, hnone⟩) .done, fun f hf => ?_⟩ <;>
    exact absurd hf IdSet.not_mem_empty

namespace Draft

/-- An open gate can be passed as declared. -/
theorem isSolution_iff_of_build_gated :
    (gated [0]).build = .ok (.gated [0]) ∧
      Model.IsSolution { Model.gated [0] with network := (gated [0]).network } [0] := by
  refine ⟨rfl, (isSolution_iff_of_build (d := gated [0]) rfl [0]).mpr
    ⟨Model.isSolution_gated [0], fun y hy => ?_⟩⟩
  obtain rfl := Option.some.inj hy
  decide

/-- **Unwrapping a top task can make a problem solvable**: a closed gate is passed once it is built. -/
theorem not_isSolution_iff_gated :
    ¬ ∀ (d : Draft) (m : Model), d.build = .ok m → ∀ plan,
      (Model.IsSolution { m with network := d.network } plan ↔ m.IsSolution plan) := by
  intro hclaim
  obtain ⟨t, hexec, -⟩ := (hclaim (gated []) (.gated []) rfl [0]).mpr (Model.isSolution_gated [])
  have happlicable := ((Execution.compound_iff (a := 0) rfl rfl rfl).mp hexec).1
  exact absurd happlicable (by decide)

end Draft

end HierPlan
