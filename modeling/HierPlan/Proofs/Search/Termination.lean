import HierPlan.Proofs.Search.Soundness
import Mathlib.Data.DFinsupp.WellFounded
import Mathlib.Data.ENat.Basic
import Mathlib.Data.FinEnum

/-!
# Proofs/Search/Termination — keys make every search end

    a move is kept   ⟹  the least cost of its key falls
    no move is kept  ⟹  one node less waits

Networks can grow without bound, so there are infinitely many situations to come to.  A search that looks at
keys still ends, since there are only so many keys and the least cost at which each was met falls with
every node that enters the frontier: `Run.met` falls pointwise, in an order of functions from finitely many
keys to costs, which is well-founded.  **So many turns are enough, whatever the keys are**
(`Search.exists_finished_of_hashedKey`): nothing is asked of the problem, the heuristic or the order of
expansion.
-/

namespace HierPlan

variable {α : Type} [Scale α]

/-! ## The costs at which keys were met -/

/-- The least cost at which each key was met, infinite if it never was. -/
def Run.met (s : Run α) (k : UInt64) : ℕ∞ := (s.closed[k]?).elim ⊤ (↑)

namespace Run

variable {x : Search} {s s' : Run α} {i g : Nat} {n : Node α} {v : Move} {key : UInt64}

omit [Scale α] in
theorem met_congr (h : s'.closed = s.closed) : s'.met = s.met := by
  funext k
  rw [met, met, h]

omit [Scale α] in
theorem met_remember (s : Run α) (key : UInt64) (g : Nat) (k : UInt64) :
    (s.remember (some key) g).met k = if key = k then (g : ℕ∞) else s.met k := by
  rw [met, met, remember, Std.HashMap.getElem?_insert]
  by_cases hk : key = k
  · rw [if_pos (beq_iff_eq.mpr hk), if_pos hk, Option.elim_some]
  · rw [if_neg (fun he => hk (beq_iff_eq.mp he)), if_neg hk]

omit [Scale α] in
/-- A key that is no revisit was met at greater cost only. -/
theorem lt_met_of_not_isRevisit (h : s.isRevisit (some key) g = false) : (g : ℕ∞) < s.met key := by
  rw [isRevisit, Option.any_some] at h
  rw [met]
  cases hk : s.closed[key]? with
  | none => exact ENat.natCast_lt_top g
  | some old =>
    rw [hk, Option.any_some, decide_eq_false_iff_not, Nat.not_le] at h
    exact ENat.natCast_lt_natCast.mpr h

omit [Scale α] in
/-- **Remembering what is no revisit makes a key cheaper.** -/
theorem met_remember_lt (h : s.isRevisit (some key) g = false) :
    (s.remember (some key) g).met < s.met := by
  have hlt := lt_met_of_not_isRevisit h
  refine Pi.lt_def.mpr ⟨fun k => ?_, key, ?_⟩
  · rw [met_remember]
    split
    · rename_i hk
      exact hk ▸ hlt.le
    · exact le_rfl
  · rw [met_remember, if_pos rfl]
    exact hlt

/-- What is estimated was remembered before. -/
theorem Estimated.closed (h : s.Estimated x i n v s') : s'.closed = s.closed := by
  cases h <;> rfl

/-- **A move makes a key cheaper, or it leaves keys and frontier alone.** -/
theorem Offered.met_lt_or_eq (hk : x.options.revisit = .hashedKey) (h : s.Offered x i n v s') :
    s'.met < s.met ∨ (s'.met = s.met ∧ s'.frontier = s.frontier) := by
  cases h with
  | revisit => exact .inr ⟨rfl, rfl⟩
  | new fresh estimated =>
    have hkey : x.key? v.next = some (x.key v.next) := by rw [Search.key?, hk]
    rw [hkey] at fresh estimated
    rw [met_congr estimated.closed]
    exact .inl (met_remember_lt fresh)

/-- **So does the expansion of a node**, all its moves together. -/
theorem met_expand (hk : x.options.revisit = .hashedKey) (s : Run α) (i : Nat) (n : Node α) :
    (s.expand x i n).met < s.met ∨
      ((s.expand x i n).met = s.met ∧ (s.expand x i n).frontier = s.frontier) := by
  -- letting marks go afterwards changes neither keys nor frontier
  change (s.offered x i n).met < s.met ∨
    ((s.offered x i n).met = s.met ∧ (s.offered x i n).frontier = s.frontier)
  refine offers_induction
    (P := fun r : Run α => r.met < s.met ∨ (r.met = s.met ∧ r.frontier = s.frontier))
    (fun r v r' _ hr ho => ?_) (.inr ⟨rfl, rfl⟩)
  rcases hr with hr | ⟨hmet, hfrontier⟩ <;> rcases ho.met_lt_or_eq hk with ho | ⟨hmet', hfrontier'⟩
  · exact .inl (ho.trans hr)
  · exact .inl (hmet'.trans_lt hr)
  · exact .inl (ho.trans_eq hmet)
  · exact .inr ⟨hmet'.trans hmet, hfrontier'.trans hfrontier⟩

/-! ## What every turn lowers -/

/-- The costs of all keys, then how many nodes wait. -/
def outlook (s : Run α) : (UInt64 → ℕ∞) × Nat := (s.met, s.frontier.size)

/-- Whether an outlook is nearer to the end than another: cheaper keys, or the same and fewer nodes. -/
def Nearer : (UInt64 → ℕ∞) × Nat → (UInt64 → ℕ∞) × Nat → Prop := Prod.Lex (· < ·) (· < ·)

/-- **No outlook is nearer forever**, there being finitely many keys. -/
theorem wellFounded_nearer : WellFounded Nearer := wellFounded_lt.prod_lex wellFounded_lt

end Run

namespace Search

variable {x : Search} {mon : Monitor} {s s' : Run α} {done : Finished α}

/-- A node that is taken waits no more. -/
theorem size_of_pop? {i : Nat} {q next : Frontier α} (h : q.pop? = some (i, next)) :
    next.size < q.size := by
  rw [← Frontier.length_toList, ← Frontier.length_toList, (Frontier.toList_of_pop? h).length_eq,
    List.length_cons]
  exact Nat.lt_succ_self _

/-- **Every turn brings a search nearer to its end.** -/
theorem nearer_of_step (hk : x.options.revisit = .hashedKey) (h : x.step mon s = .running s') :
    Run.Nearer s'.outlook s.outlook := by
  obtain ⟨i, q, hq, ⟨-, rfl⟩ | ⟨n, readings, -, -, rfl⟩⟩ := running_of_step h
  · exact .right _ (size_of_pop? hq)
  · rcases Run.met_expand hk { s with frontier := q, readings } i n with hmet | ⟨hmet, hfrontier⟩
    · exact .left _ _ hmet
    · rw [Run.outlook, hmet, hfrontier]
      exact .right _ (size_of_pop? hq)

/-- A result stays the result of more turns. -/
theorem run_of_le {fuel more : Nat} (h : x.run mon fuel s = some done) (hle : fuel ≤ more) :
    x.run mon more s = some done := by
  induction fuel generalizing more s with
  | zero => cases h
  | succ fuel ih =>
    obtain ⟨more, rfl⟩ := Nat.exists_eq_add_of_le' (Nat.le_of_add_left_le hle)
    rw [run] at h ⊢
    split at h
    · exact ih h (Nat.le_of_succ_le_succ hle)
    · exact h

/-- **A search that looks at keys ends**, wherever it stands. -/
theorem exists_finished (hk : x.options.revisit = .hashedKey) (mon : Monitor) (s : Run α) :
    ∃ turns done, x.run mon turns s = some done := by
  induction hs : s.outlook using Run.wellFounded_nearer.induction generalizing s with
  | _ o ih =>
    subst hs
    cases hstep : x.step mon s with
    | finished done => exact ⟨1, done, by rw [run, hstep]⟩
    | running s' =>
      obtain ⟨turns, done, hdone⟩ := ih _ (nearer_of_step hk hstep) s' rfl
      exact ⟨turns + 1, done, by rw [run, hstep]; exact hdone⟩

/-! ## What is left without limits -/

/-- Without limits a search ends at a goal, or when nothing waits. -/
theorem status_of_step_of_no_limits (htime : x.options.timeLimit = none)
    (hmemory : x.options.memoryLimit = none) (h : x.step mon s = .finished done) :
    done.result.status = .goal ∨ done.result.status = .unsolvable := by
  unfold step at h
  split at h
  · exact .inr (Progress.finished.inj h ▸ rfl)
  · dsimp only at h
    split at h
    · cases h
    · split at h
      · exact .inl (Progress.finished.inj h ▸ rfl)
      · rw [verdict_look_of_no_limits htime hmemory] at h
        cases h

/-- **A search that detects revisits ends**, whatever function its keys are, and for every problem,
heuristic and order of expansion: from some number of turns on it has its result.  Without limits the
result is a plan or that there is none. -/
theorem exists_finished_of_hashedKey (hk : x.options.revisit = .hashedKey) (mon : Monitor)
    (h : Heuristic α) :
    ∃ turns done, (∀ fuel, turns ≤ fuel → x.run mon fuel (x.start h) = some done) ∧
      (x.options.timeLimit = none → x.options.memoryLimit = none →
        done.result.status = .goal ∨ done.result.status = .unsolvable) := by
  obtain ⟨turns, done, hdone⟩ := exists_finished hk mon (x.start h)
  obtain ⟨last, -, hstep⟩ := exists_last hdone
  exact ⟨turns, done, fun fuel hle => run_of_le hdone hle, fun htime hmemory =>
    status_of_step_of_no_limits htime hmemory hstep⟩

end Search

/-! ## A task that is done twice over

The task is done by a single operator, or by doing it twice: networks grow forever, and the goal fact is
never made true. -/

/-- The endless task as declared. -/
def Draft.endless : Draft where
  facts := #["unreachable"]
  operators := #[⟨"noop", 0, [], [], [], []⟩]
  compounds := #["loop"]
  methods := #[⟨"split", 0, [], [], [.compound 0, .compound 0]⟩, ⟨"stop", 0, [], [], [.operator 0]⟩]
  goal := [0]
  network := [.compound 0]

/-- The endless task as built. -/
def Model.endless : Model where
  facts := #[⟨0, "unreachable"⟩]
  operators := #[⟨1, "noop", 0, .ofList 1 [], .ofList 1 [], .ofList 1 [], .ofList 1 []⟩]
  compounds := #[⟨2, "loop", [0, 1]⟩]
  methods := #[⟨3, "split", 0, .ofList 1 [], .ofList 1 [], [.compound 0, .compound 0]⟩,
    ⟨4, "stop", 0, .ofList 1 [], .ofList 1 [], [.operator 0]⟩]
  init := .ofList 1 []
  goal := .ofList 1 [0]
  network := [.compound 0]

/-- No execution of the endless task makes a fact true. -/
theorem Execution.mem_of_endless {s t : IdSet} {network : List Task} {plan : List Nat}
    (h : Execution .endless s network plan t) {f : Nat} (hf : f ∈ t) : f ∈ s := by
  induction h with
  | done => exact hf
  | @operator s t i o rest plan known _ _ ih =>
    obtain ⟨hi, rfl⟩ := Array.getElem?_eq_some_iff.mp known
    obtain rfl : i = 0 := Nat.lt_one_iff.mp hi
    exact (Operator.mem_apply.mp (ih hf)).elim And.left fun h => absurd h.1 IdSet.not_mem_empty
  | compound _ _ _ _ _ _ inner outer => exact inner (outer hf)

namespace Search

/-- The endless task, newest node first; a key tells no more than how many tasks are open, modulo four. -/
def endless : Search where
  model := .endless
  options := { kind := .depthFirst, revisit := .hashedKey }
  key s := (s.network.length % 4).toUInt64

/-- No node of a search in the endless task is a goal. -/
theorem isGoal_eq_false_of_endless {mon : Monitor} {h : Heuristic Float} {s : Run Float} {i : Nat}
    {n : Node Float} (hr : endless.Reaches mon (endless.start h) s) (hn : s.nodes[i]? = some n) :
    n.situation.isGoal endless.model = false := by
  refine Bool.eq_false_iff.mpr fun hgoal => ?_
  obtain ⟨hexec, hfacts⟩ := (grown_of_reaches hr).arena.execution hn hgoal
  -- the goal fact would be true, and it never was
  exact absurd (Execution.mem_of_endless hexec (hfacts 0 (by decide))) IdSet.not_mem_empty

/-- The endless task is called unsolvable in the end. -/
theorem exists_finished_of_hashedKey_endless :
    Draft.endless.build = .ok endless.model ∧ endless.options.revisit = .hashedKey ∧
      ∃ turns, ∃ done : Finished Float,
        (∀ fuel, turns ≤ fuel →
          endless.run ⟨fun _ => 0, fun _ => none⟩ fuel (endless.start (.fresh .blind)) = some done) ∧
        done.result.status = .unsolvable := by
  obtain ⟨turns, done, hdone, hstatus⟩ := exists_finished_of_hashedKey (x := endless) rfl
    ⟨fun _ => 0, fun _ => none⟩ (.fresh .blind : Heuristic Float)
  refine ⟨rfl, rfl, turns, done, hdone, (hstatus rfl rfl).resolve_left fun hgoal => ?_⟩
  obtain ⟨last, hreach, hstep⟩ := exists_last (hdone turns le_rfl)
  rcases finished_of_step hstep with ⟨-, rfl⟩ | ⟨i, q, n, -, hn, ⟨hg, -⟩ | ⟨-, st, rd, hst, rfl⟩⟩
  · cases hgoal
  · exact absurd hg (Bool.eq_false_iff.mp (isGoal_eq_false_of_endless hreach hn))
  · rcases hst with rfl | rfl <;> cases hgoal

end Search

end HierPlan
