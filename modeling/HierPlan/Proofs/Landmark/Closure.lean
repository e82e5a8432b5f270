import HierPlan.Landmark.Gathering
import HierPlan.Proofs.Landmark.Range
import Mathlib.Data.List.Nodup
import Mathlib.Order.Bounds.Basic

/-!
# Proofs/Landmark/Closure — closing in both directions is a closure operator

    seed ──resize──▸ wide ──close──▸ least set with the entries of its members ──resize──▸ ids of components

A set is closed around a seed if it holds the seed and all that its members bring in (`LandmarkEngine.ClosedAround`).
Every round of closing but the last finds an id more, so the rounds come to rest (`LandmarkEngine.round_close`), and
**they come to rest in the least closed set** (`LandmarkEngine.isLeast_close`).  Recomposition nodes are members of
that set, and are masked off at the end; what they brought in is not, so **closing again changes nothing**.

A queue finds the same set, and takes every id of it exactly once (`Gathering.Gathers.accounted`).
-/

namespace HierPlan

namespace LandmarkEngine

variable {m : Model} {size fuel : Nat} {bu td : LandmarkTable} {seed acc : IdSet} {S : Set Nat}

/-- A set holds some ids, the bottom-up entries of its members among the first ids, and the top-down entries of all
its members, as far as the tables reach the members. -/
structure ClosedAround (size : Nat) (bu td : LandmarkTable) (seed : IdSet) (S : Set Nat) : Prop where
  seed : ∀ i ∈ seed, i ∈ S
  up : ∀ id ∈ S, id < size → bu.isReached id = true → ∀ i ∈ bu.entry id, i ∈ S
  down : ∀ id ∈ S, td.isReached id = true → ∀ i ∈ td.entry id, i ∈ S

/-- So it holds what its members bring in. -/
theorem closedAround_iff : ClosedAround size bu td seed S ↔
    (∀ i ∈ seed, i ∈ S) ∧ ∀ id ∈ S, ∀ i, Brings size bu td id i → i ∈ S := by
  constructor
  · rintro ⟨hseed, hup, hdown⟩
    refine ⟨hseed, fun id hid i hi => ?_⟩
    obtain ⟨⟨hlt, hreached⟩, hi⟩ | ⟨hreached, hi⟩ := hi
    · exact hup id hid hlt hreached i hi
    · exact hdown id hid hreached i hi
  · rintro ⟨hseed, hbrings⟩
    exact ⟨hseed, fun id hid hlt hreached i hi => hbrings id hid i (.inl ⟨⟨hlt, hreached⟩, hi⟩),
      fun id hid hreached i hi => hbrings id hid i (.inr ⟨hreached, hi⟩)⟩

/-- What is closed around some ids is closed around fewer. -/
theorem ClosedAround.of_subset (h : ClosedAround size bu td seed S) {fewer : IdSet} (hsub : ∀ i ∈ fewer, i ∈ S) :
    ClosedAround size bu td fewer S := ⟨hsub, h.up, h.down⟩

/-! ## Rounds -/

/-- **Closing comes to rest** once there were more rounds than ids to be found. -/
theorem round_close (hfuel : acc.width < acc.count + fuel) :
    round size bu td (close size bu td fuel acc).toList (close size bu td fuel acc) = close size bu td fuel acc := by
  induction fuel generalizing acc with
  | zero => exact absurd hfuel (Nat.not_lt.mpr acc.count_le_width)
  | succ fuel ih =>
    rw [close_succ]
    split
    · rename_i hsame
      exact hsame
    · rename_i hmore
      have hcount : acc.count < (round size bu td acc.toList acc).count :=
        IdSet.count_lt_of_subset width_round.symm (fun i hi => mem_round.mpr (.inl hi)) (Ne.symm hmore)
      refine ih ?_
      rw [width_round]
      omega

/-- Tables bring in nothing past a width. -/
def BringsBelow (size : Nat) (bu td : LandmarkTable) (width : Nat) : Prop :=
  ∀ id i, Brings size bu td id i → i < width

/-- **Closing finds the least closed set**, if it is wide enough for all that is brought in. -/
theorem isLeast_close (hbelow : BringsBelow size bu td acc.width) (hfuel : acc.width < acc.count + fuel) :
    IsLeast {S | ClosedAround size bu td acc S} {i | i ∈ close size bu td fuel acc} := by
  refine ⟨closedAround_iff.mpr ⟨fun i hi => mem_close hi, fun id hid i hi => ?_⟩, fun S hS i hi => ?_⟩
  · have hround : i ∈ round size bu td (close size bu td fuel acc).toList (close size bu td fuel acc) := by
      refine mem_round.mpr (.inr ⟨?_, id, IdSet.mem_toList.mpr hid, hi⟩)
      rw [width_close]
      exact hbelow id i hi
    rwa [round_close hfuel] at hround
  · obtain ⟨hgiven, hbrings⟩ := closedAround_iff.mp hS
    exact forall_mem_close hbrings hgiven i hi

end LandmarkEngine

/-! ## The queue -/

namespace Gathering

open LandmarkEngine

variable {size : Nat} {bu td : LandmarkTable} {seed found : IdSet} {log : List Nat} {w : Gathering}

theorem mem_news {id i : Nat} :
    i ∈ news size bu td found id ↔ (i < found.width ∧ Brings size bu td id i) ∧ i ∉ found := by
  rw [news, IdSet.mem_sdiff, mem_gain, IdSet.width_empty]
  simp

/-- What is found and waits after some turns; the log lists the ids taken, last taken first. -/
inductive Gathers (size : Nat) (bu td : LandmarkTable) (seed : IdSet) : List Nat → Gathering → Prop where
  | start : Gathers size bu td seed [] (.start seed)
  | take {log rest : List Nat} {found : IdSet} {id : Nat}
      (before : Gathers size bu td seed log ⟨found, id :: rest⟩) :
      Gathers size bu td seed (id :: log) (.take size bu td found id rest)

/-- **These are the turns of a run.** -/
theorem Gathers.run_eq (h : Gathers size bu td seed log w) (turns : Nat) :
    run size bu td (log.length + turns) (.start seed) = run size bu td turns w := by
  induction h generalizing turns with
  | start => rw [List.length_nil, Nat.zero_add]
  | take before ih =>
    rw [List.length_cons, Nat.add_right_comm, Nat.add_assoc, ih]
    rfl

/-- What is known after some turns: each id found was taken once or waits once, what was taken has brought in all it
does, and nothing is found that a closed set would not hold. -/
structure Accounted (size : Nat) (bu td : LandmarkTable) (seed : IdSet) (log : List Nat) (w : Gathering) : Prop where
  width : w.found.width = seed.width
  once : (log ++ w.queue).Nodup
  all : ∀ i, i ∈ w.found ↔ i ∈ log ++ w.queue
  given : ∀ i ∈ seed, i ∈ w.found
  brought : ∀ id ∈ log, ∀ i < seed.width, Brings size bu td id i → i ∈ w.found
  least : ∀ S, ClosedAround size bu td seed S → ∀ i ∈ w.found, i ∈ S

/-- **Every turn keeps the account.** -/
theorem Gathers.accounted (h : Gathers size bu td seed log w) : Accounted size bu td seed log w := by
  induction h with
  | start =>
    exact ⟨rfl, seed.nodup_toList, fun i => IdSet.mem_toList.symm, fun i hi => hi,
      fun id hid => absurd hid List.not_mem_nil, fun S hS => hS.seed⟩
  | @take log rest found id before ih =>
    have hids : ∀ {i}, i ∈ (news size bu td found id).toList ↔
        (i < found.width ∧ Brings size bu td id i) ∧ i ∉ found := IdSet.mem_toList.trans mem_news
    have hfound : ∀ {i}, i ∈ (Gathering.take size bu td found id rest).found ↔
        i ∈ found ∨ i ∈ (news size bu td found id).toList := by
      intro i
      rw [Gathering.take, IdSet.mem_foldl_insert, and_iff_left_of_imp fun hi => (hids.mp hi).1.1]
    have hperm : (id :: log ++ (rest ++ (news size bu td found id).toList)).Perm
        ((log ++ id :: rest) ++ (news size bu td found id).toList) := by
      rw [← List.append_assoc]
      exact (List.perm_middle.symm).append_right _
    refine ⟨?_, hperm.nodup_iff.mpr ?_, fun i => ?_, fun i hi => hfound.mpr (.inl (ih.given i hi)),
      fun k hk i hlt hi => ?_, fun S hS i hi => ?_⟩
    · exact (IdSet.width_foldl_insert ..).trans ih.width
    · refine List.nodup_append'.mpr ⟨ih.once, IdSet.nodup_toList _, fun i hi hnew => ?_⟩
      exact (hids.mp hnew).2 ((ih.all i).mpr hi)
    · rw [hfound, ih.all i]
      exact List.mem_append.symm.trans hperm.mem_iff.symm
    · obtain rfl | hk := List.mem_cons.mp hk
      · by_cases hin : i ∈ found
        · exact hfound.mpr (.inl hin)
        · exact hfound.mpr (.inr (hids.mpr ⟨⟨hlt.trans_eq ih.width.symm, hi⟩, hin⟩))
      · exact hfound.mpr (.inl (ih.brought k hk i hlt hi))
    · obtain hi | hi := hfound.mp hi
      · exact ih.least S hS i hi
      · refine (closedAround_iff.mp hS).2 id (ih.least S hS id ?_) i (hids.mp hi).1.2
        exact (ih.all id).mpr (List.mem_append_right _ List.mem_cons_self)

/-- The ids taken and waiting are those found. -/
theorem Accounted.perm (h : Accounted size bu td seed log w) : (log ++ w.queue).Perm w.found.toList := by
  refine (List.perm_ext_iff_of_nodup h.once w.found.nodup_toList).mpr fun i => ?_
  rw [← h.all, IdSet.mem_toList]

/-- There are no more turns than ids that could be found. -/
theorem Accounted.length_le (h : Accounted size bu td seed log w) : log.length + w.queue.length ≤ seed.width := by
  have hcount : w.found.count ≤ w.found.width := w.found.count_le_width
  rwa [IdSet.count, ← h.perm.length_eq, List.length_append, h.width] at hcount

/-- **A run comes to where nothing waits.** -/
theorem Gathers.exists_end (h : Gathers size bu td seed log w) :
    ∃ log' found, Gathers size bu td seed log' ⟨found, []⟩ := by
  generalize hleft : seed.width - log.length = left
  induction left using Nat.strong_induction_on generalizing log w with
  | _ left ih =>
    obtain ⟨found, queue⟩ := w
    match queue with
    | [] => exact ⟨log, found, h⟩
    | id :: rest =>
      have hlength := h.accounted.length_le
      rw [List.length_cons] at hlength
      refine ih _ ?_ h.take rfl
      rw [List.length_cons]
      omega

/-- **A run takes each id it finds once**, and with any turns that the width allows nothing waits at the end. -/
theorem exists_gathered (size : Nat) (bu td : LandmarkTable) (seed : IdSet) :
    ∃ log found, Gathers size bu td seed log ⟨found, []⟩ ∧ log.Perm found.toList ∧
      ∀ turns, seed.width ≤ turns → run size bu td turns (.start seed) = ⟨found, []⟩ := by
  obtain ⟨log, found, hgathers⟩ := (Gathers.start : Gathers size bu td seed [] _).exists_end
  have hperm := hgathers.accounted.perm
  have hlength := hgathers.accounted.length_le
  rw [List.append_nil] at hperm
  refine ⟨log, found, hgathers, hperm, fun turns hturns => ?_⟩
  obtain ⟨more, rfl⟩ := Nat.exists_eq_add_of_le (hlength.trans hturns)
  rw [List.length_nil, Nat.add_zero, hgathers.run_eq]
  cases more <;> rfl

/-- **Where nothing waits, the least closed set is found.** -/
theorem Gathers.isLeast (h : Gathers size bu td seed log ⟨found, []⟩) (hbelow : BringsBelow size bu td seed.width) :
    IsLeast {S | ClosedAround size bu td seed S} {i | i ∈ found} := by
  have ha := h.accounted
  refine ⟨closedAround_iff.mpr ⟨ha.given, fun id hid i hi => ha.brought id ?_ i (hbelow id i hi) hi⟩, ha.least⟩
  exact List.append_nil log ▸ (ha.all id).mp hid

end Gathering

namespace LandmarkEngine

variable {m : Model} {seed : IdSet}

/-! ## Engines -/

/-- The bottom-up table of an engine. -/
abbrev upTable (m : Model) : LandmarkTable := (View.bottomUp.graph m).propagate

/-- The top-down table of an engine for both directions. -/
abbrev downTable (m : Model) : LandmarkTable := (View.topDown.graph m).propagate

theorem width_downTable : (downTable m).width = m.size + m.operators.size := by
  rw [downTable, (View.topDown.mirrored m).descends.size, View.graph, AndOrGraph.size_ofArcs]
  rfl

/-- What the entries of a table hold stays in its graph. -/
theorem lt_width_of_mem_entry (v : View) {id i : Nat} (hi : i ∈ (v.graph m).propagate.entry id) :
    i < (v.graph m).propagate.width := by
  have hd := (v.mirrored m).descends
  rw [hd.size, ← hd.width id]
  exact IdSet.lt_width_of_mem hi

/-- The tables of a problem bring in only ids of the wider one. -/
theorem bringsBelow (m : Model) : BringsBelow m.size (upTable m) (downTable m) (downTable m).width := by
  rintro id i (⟨-, hi⟩ | ⟨-, hi⟩)
  · have hlt := lt_width_of_mem_entry _ hi
    rw [(View.bottomUp.mirrored m).descends.size, View.size_graph_bottomUp] at hlt
    rw [width_downTable]
    omega
  · exact lt_width_of_mem_entry _ hi

/-- Ids of components stay where the wider table is looked at. -/
theorem mem_resize_downTable (hseed : seed.width = m.size) {i : Nat} :
    i ∈ seed.resize (downTable m).width ↔ i ∈ seed := by
  rw [IdSet.mem_resize, width_downTable]
  refine and_iff_left_of_imp fun hi => ?_
  have hlt := IdSet.lt_width_of_mem hi
  omega

/-- What is closed around a seed is closed around it among the ids of the wider table. -/
theorem closedAround_resize (hseed : seed.width = m.size) {S : Set Nat} :
    ClosedAround m.size (upTable m) (downTable m) (seed.resize (downTable m).width) S ↔
      ClosedAround m.size (upTable m) (downTable m) seed S :=
  ⟨fun h => h.of_subset fun i hi => h.seed i ((mem_resize_downTable hseed).mpr hi),
    fun h => h.of_subset fun i hi => h.seed i ((mem_resize_downTable hseed).mp hi)⟩

/-- What rounds find among the ids of the wider table. -/
def wide (m : Model) (seed : IdSet) (fuel : Nat) : IdSet :=
  close m.size (upTable m) (downTable m) fuel (seed.resize (downTable m).width)

theorem width_wide {fuel : Nat} : (wide m seed fuel).width = (downTable m).width := width_close

/-- **Rounds find the least set around a seed**, as soon as there are enough of them. -/
theorem isLeast_wide (hseed : seed.width = m.size) {fuel : Nat} (hfuel : (downTable m).width < fuel) :
    IsLeast {S | ClosedAround m.size (upTable m) (downTable m) seed S} {i | i ∈ wide m seed fuel} := by
  have hleast : IsLeast {S | ClosedAround m.size (upTable m) (downTable m) (seed.resize (downTable m).width) S}
      {i | i ∈ wide m seed fuel} := isLeast_close (bringsBelow m) (hfuel.trans_le (Nat.le_add_left ..))
  simp only [closedAround_resize hseed] at hleast
  exact hleast

/-- Two least sets of one width are the same. -/
theorem eq_of_isLeast {s t : IdSet} {C : Set (Set Nat)} (hwidth : s.width = t.width) (hs : IsLeast C {i | i ∈ s})
    (ht : IsLeast C {i | i ∈ t}) : s = t :=
  IdSet.ext hwidth fun i => Set.ext_iff.mp (hs.unique ht) i

/-- What a fresh engine makes of a set are the components among what rounds find. -/
theorem closed_eq (m : Model) (seed : IdSet) :
    closed m seed = (wide m seed ((downTable m).width + 1)).resize m.size := rfl

/-- Closing loses none of a seed. -/
theorem subset_closed (hseed : seed.width = m.size) : ∀ i ∈ seed, i ∈ closed m seed := by
  intro i hi
  rw [closed_eq, IdSet.mem_resize]
  have hlt := IdSet.lt_width_of_mem hi
  exact ⟨(isLeast_wide hseed (Nat.lt_succ_self _)).1.seed i hi, hseed ▸ hlt⟩

/-- **A seed that another closed set holds closes within it**, whatever was masked off there. -/
theorem closed_subset {other : IdSet} (hseed : seed.width = m.size) (hother : other.width = m.size)
    (hsub : ∀ i ∈ seed, i ∈ closed m other) : ∀ i ∈ closed m seed, i ∈ closed m other := by
  have hleast := isLeast_wide hseed (Nat.lt_succ_self _)
  have haround := (isLeast_wide hother (Nat.lt_succ_self _)).1.of_subset fun i hi => (IdSet.mem_resize.mp (hsub i hi)).1
  intro i hi
  rw [closed_eq, IdSet.mem_resize] at hi ⊢
  exact ⟨hleast.2 haround hi.1, hi.2⟩

/-- **Closing again changes nothing.** -/
theorem closed_closed (hseed : seed.width = m.size) : closed m (closed m seed) = closed m seed := by
  have hwidth : (closed m seed).width = m.size := IdSet.width_resize ..
  have hwidth' : (closed m (closed m seed)).width = m.size := IdSet.width_resize ..
  refine IdSet.ext (hwidth'.trans hwidth.symm) fun i => ⟨fun hi => ?_, fun hi => subset_closed hwidth i hi⟩
  exact closed_subset hwidth hseed (fun i hi => hi) i hi

/-- A fresh engine for both directions closes any set. -/
theorem closure_eq (m : Model) (seed : IdSet) : (build m true).closure seed = .ok (closed m seed) := rfl

/-- How the closing of a seed under two tables ends: with `all` found, of which the components are the answer. -/
structure Closing (size : Nat) (up down : LandmarkTable) (seed all found : IdSet) : Prop where
  /-- Rounds come to rest, however many are left. -/
  rounds : ∀ fuel, down.width < fuel → close size up down fuel (seed.resize down.width) = all
  /-- So does a queue. -/
  turns : ∀ turns, down.width ≤ turns →
    Gathering.run size up down turns (.start (seed.resize down.width)) = ⟨all, []⟩
  /-- Every id that is found is taken off the queue once. -/
  once : ∃ log, Gathering.Gathers size up down (seed.resize down.width) log ⟨all, []⟩ ∧ log.Perm all.toList
  least : IsLeast {S | ClosedAround size up down seed S} {i | i ∈ all}
  width : found.width = size
  components : ∀ i, i ∈ found ↔ i ∈ all ∧ i < size

/-- **Closing ends with the least closed set**, in rounds and with a queue. -/
theorem closing_wide (hseed : seed.width = m.size) :
    Closing m.size (upTable m) (downTable m) seed (wide m seed ((downTable m).width + 1)) (closed m seed) := by
  have hleast := isLeast_wide hseed (Nat.lt_succ_self (downTable m).width)
  obtain ⟨log, all, hgathers, hperm, hturns⟩ :=
    Gathering.exists_gathered m.size (upTable m) (downTable m) (seed.resize (downTable m).width)
  have hqueue := hgathers.isLeast (bringsBelow m)
  simp only [closedAround_resize hseed] at hqueue
  obtain rfl : all = wide m seed ((downTable m).width + 1) :=
    eq_of_isLeast (hgathers.accounted.width.trans width_wide.symm) hqueue hleast
  refine ⟨fun fuel hfuel => ?_, hturns, ⟨log, hgathers, hperm⟩, hleast, IdSet.width_resize .., fun i => ?_⟩
  · exact eq_of_isLeast (width_wide.trans width_wide.symm) (isLeast_wide hseed hfuel) hleast
  · rw [closed_eq, IdSet.mem_resize]

/-- **Closing in both directions is a closure operator.**  It ends with the least set that holds the seed and the
entries of its members, and answers with the components of it.  So it loses nothing, closing again changes nothing,
and a larger seed has a larger closure. -/
theorem closure_isLeast (m : Model) (seed : IdSet) (hseed : seed.width = m.size) :
    ∃ up down all found, (build m true).bottomUp = .ok up ∧ (build m true).topDown = .ok down ∧
      (build m true).closure seed = .ok found ∧ Closing m.size up down seed all found ∧
      (∀ i ∈ seed, i ∈ found) ∧ (build m true).closure found = .ok found ∧
      ∀ larger found', larger.width = m.size → (∀ i ∈ seed, i ∈ larger) →
        (build m true).closure larger = .ok found' → ∀ i ∈ found, i ∈ found' := by
  refine ⟨upTable m, downTable m, _, closed m seed, rfl, rfl, closure_eq m seed, closing_wide hseed, subset_closed hseed,
    ?_, ?_⟩
  · rw [closure_eq, closed_closed hseed]
  · intro larger found' hlarger hsub hfound
    rw [closure_eq, Except.ok.injEq] at hfound
    subst hfound
    exact closed_subset hseed hlarger fun i hi => subset_closed hlarger i (hsub i hi)

/-- Striking a spark comes with the method that needs it, which is found through the recomposition node of the spark;
that node is masked off, and still nothing is missing. -/
theorem closure_isLeast_lamp :
    (IdSet.ofList 7 [2]).width = (Model.lamp [0]).size ∧
      (build (.lamp [0]) true).closure (.ofList 7 [2]) = .ok (.ofList 7 [2, 4, 5]) ∧
      (build (.lamp [0]) true).closure (.ofList 7 [2, 4, 5]) = .ok (.ofList 7 [2, 4, 5]) := by
  have hwidth : (IdSet.ofList 7 [2]).width = (Model.lamp [0]).size := by decide
  have hclosed : closed (.lamp [0]) (.ofList 7 [2]) = .ofList 7 [2, 4, 5] := by decide +kernel
  have hclosure : (build (.lamp [0]) true).closure (.ofList 7 [2]) = .ok (.ofList 7 [2, 4, 5]) := by
    rw [closure_eq, hclosed]
  obtain ⟨-, -, -, found, -, -, hfound, -, -, hagain, -⟩ := closure_isLeast (.lamp [0]) _ hwidth
  rw [hclosure, Except.ok.injEq] at hfound
  subst hfound
  exact ⟨hwidth, hclosure, hagain⟩

end LandmarkEngine

end HierPlan
