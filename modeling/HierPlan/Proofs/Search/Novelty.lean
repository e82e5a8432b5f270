import HierPlan.Proofs.Search.Account
import HierPlan.Proofs.Search.Lineage
import HierPlan.Proofs.Search.Range
import Mathlib.Data.Set.Card

/-!
# Proofs/Search/Novelty — how often something new is brought

    pairs met so far   (f₁, t)  (f₂, t)  (f₁, –)  …         at most  facts × (operators + tasks + 1)

A table of novelty notes every fact of a situation with its first task.  **A situation is new exactly if it has a fact
that none before it with the same first task had** (`Novelty.answers_eq_true_iff`), so each new situation uses up a
pair that no other does, and **there are no more of them than pairs** (`Novelty.encard_news_le`), however long a run
is.  In a blind search the nodes that are new wait apart, each line in the order of their age
(`Frontier.Tiered`): **only a node that is new is taken before its turn** (`Frontier.Tiered.novel_of_overtakes`).
-/

namespace HierPlan

/-! ## The table -/

namespace Novelty

/-- What a table answers about situations that it is shown one after another. -/
def answers (t : Novelty) : List Situation → List Bool
  | [] => []
  | s :: rest => t.isNew s :: (t.note s).answers rest

/-- The table with situations noted one after another. -/
def notes (t : Novelty) (ss : List Situation) : Novelty := ss.foldl note t

variable {t : Novelty} {s : Situation} {ss : List Situation} {p : Nat × Option Task}

theorem mem_pairs : p ∈ pairs s ↔ p.1 ∈ s.state ∧ p.2 = s.network.head? := by
  obtain ⟨f, first⟩ := p
  simp [pairs, eq_comm]

/-- All pairs of a situation are noted, and no others. -/
theorem mem_seen_note : p ∈ (t.note s).seen ↔ p ∈ t.seen ∨ p ∈ pairs s := by
  rw [note]
  generalize pairs s = ps
  obtain ⟨seen⟩ := t
  induction ps generalizing seen with
  | nil => simp
  | cons q ps ih =>
    rw [List.foldl_cons, ih (seen.insert q), Std.HashSet.mem_insert, beq_iff_eq, List.mem_cons, eq_comm]
    tauto

theorem mem_seen_notes : p ∈ (t.notes ss).seen ↔ p ∈ t.seen ∨ ∃ s ∈ ss, p ∈ pairs s := by
  induction ss generalizing t with
  | nil => simp [notes]
  | cons s ss ih =>
    change p ∈ ((t.note s).notes ss).seen ↔ _
    rw [ih, mem_seen_note, List.exists_mem_cons_iff, or_assoc]

theorem isNew_iff : t.isNew s = true ↔ ∃ p ∈ pairs s, p ∉ t.seen := by
  simp [isNew]

/-- **What is new to a table that has been shown some situations.** -/
theorem isNew_notes_iff : (notes {} ss).isNew s = true ↔
    ∃ f ∈ s.state, ∀ t ∈ ss, t.network.head? = s.network.head? → f ∉ t.state := by
  rw [isNew_iff]
  constructor
  · rintro ⟨⟨f, first⟩, hp, hnew⟩
    obtain ⟨hf, rfl⟩ := mem_pairs.mp hp
    exact ⟨f, hf, fun t ht hfirst hft => hnew (mem_seen_notes.mpr (.inr ⟨t, ht, mem_pairs.mpr ⟨hft, hfirst.symm⟩⟩))⟩
  · rintro ⟨f, hf, hnew⟩
    refine ⟨(f, s.network.head?), mem_pairs.mpr ⟨hf, rfl⟩, fun hseen => ?_⟩
    rcases mem_seen_notes.mp hseen with hempty | ⟨t, ht, hp⟩
    · exact absurd hempty Std.HashSet.not_mem_empty
    · obtain ⟨hft, hfirst⟩ := mem_pairs.mp hp
      exact hnew t ht hfirst.symm hft

/-- An answer is that of the table with the situations before noted. -/
theorem getElem?_answers (t : Novelty) (ss : List Situation) (k : Nat) :
    (t.answers ss)[k]? = (ss[k]?).map (t.notes (ss.take k)).isNew := by
  induction ss generalizing t k with
  | nil => rfl
  | cons s ss ih =>
    cases k with
    | zero => rfl
    | succ k => exact ih (t.note s) k

/-! ## Pairs are used up -/

/-- Of situations at places, the one at a place has a fact that none before it with its first task has. -/
def News (At : Nat → Situation → Prop) (k : Nat) : Prop :=
  ∃ s, At k s ∧ ∃ f ∈ s.state, ∀ j < k, ∀ t, At j t → t.network.head? = s.network.head? → f ∉ t.state

/-- **A situation is new exactly if it has a fact that none before it with the same first task had.** -/
theorem answers_eq_true_iff (ss : List Situation) (k : Nat) :
    (answers {} ss)[k]? = some true ↔ News (fun j t => ss[j]? = some t) k := by
  rw [getElem?_answers, Option.map_eq_some_iff]
  refine exists_congr fun s => and_congr_right fun _ => ?_
  rw [isNew_notes_iff]
  refine exists_congr fun f => and_congr_right fun _ => ?_
  simp only [List.mem_take_iff_getElem, forall_exists_index]
  constructor
  · intro h j hj t ht
    obtain ⟨hlt, rfl⟩ := List.getElem?_eq_some_iff.mp ht
    exact h _ j (by omega) rfl
  · rintro h t j hj rfl
    exact h j (by omega) _ (List.getElem?_eq_getElem _)

/-- The pairs of a problem: its facts with its tasks and with none. -/
def pairsOf (m : Model) : Finset (Nat × Option Task) :=
  Finset.range m.facts.size ×ˢ insert none
    ((Finset.range m.operators.size).image (some ∘ Task.operator) ∪
      (Finset.range m.compounds.size).image (some ∘ Task.compound))

theorem card_pairsOf_le (m : Model) :
    (pairsOf m).card ≤ m.facts.size * (m.operators.size + m.compounds.size + 1) := by
  rw [pairsOf, Finset.card_product, Finset.card_range]
  refine Nat.mul_le_mul_left _ ((Finset.card_insert_le _ _).trans (Nat.succ_le_succ ?_))
  refine (Finset.card_union_le _ _).trans (Nat.add_le_add ?_ ?_) <;>
    exact Finset.card_image_le.trans_eq (Finset.card_range _)

/-- The pairs of a situation of the problem are pairs of the problem. -/
theorem mem_pairsOf {m : Model} (hs : s.Known m) {f : Nat} (hf : f ∈ s.state) : (f, s.network.head?) ∈ pairsOf m := by
  have hwidth : f < m.facts.size := hs.width ▸ IdSet.lt_width_of_mem hf
  rw [pairsOf, Finset.mem_product, Finset.mem_range, Finset.mem_insert, Finset.mem_union, Finset.mem_image,
    Finset.mem_image]
  refine ⟨hwidth, ?_⟩
  cases hfirst : s.network.head? with
  | none => exact .inl rfl
  | some t =>
    have ht := hs.tasks t (List.mem_of_head? hfirst)
    cases t with
    | operator i => exact .inr (.inl ⟨i, Finset.mem_range.mpr ht, rfl⟩)
    | compound a => exact .inr (.inr ⟨a, Finset.mem_range.mpr ht, rfl⟩)

/-- **No more situations are new than a problem has pairs**: each uses up a pair that no other does. -/
theorem encard_news_le {m : Model} {At : Nat → Situation → Prop} (hknown : ∀ k s, At k s → s.Known m) :
    {k | News At k}.encard ≤ (m.facts.size * (m.operators.size + m.compounds.size + 1) : Nat) := by
  have hpair : ∀ k ∈ {k | News At k}, ∃ p ∈ pairsOf m, (∃ s, At k s ∧ p.2 = s.network.head? ∧ p.1 ∈ s.state) ∧
      ∀ j < k, ∀ t, At j t → t.network.head? = p.2 → p.1 ∉ t.state := by
    rintro k ⟨s, hs, f, hf, hnew⟩
    exact ⟨(f, s.network.head?), mem_pairsOf (hknown k s hs) hf, ⟨s, hs, rfl, hf⟩, hnew⟩
  choose! pair hmem hhas hnew using hpair
  have hlater : ∀ j k, News At j → News At k → j < k → pair j ≠ pair k := by
    intro j k hj hk hlt he
    obtain ⟨s, hs, hfirst, hf⟩ := hhas j hj
    exact hnew k hk j hlt s hs (he ▸ hfirst.symm) (he ▸ hf)
  have hinj : Set.InjOn pair {k | News At k} := by
    intro j hj k hk he
    rcases Nat.lt_trichotomy j k with hlt | rfl | hlt
    · exact absurd he (hlater j k hj hk hlt)
    · rfl
    · exact absurd he.symm (hlater k j hk hj hlt)
  calc {k | News At k}.encard
      ≤ ((pairsOf m : Finset (Nat × Option Task)) : Set (Nat × Option Task)).encard :=
        Set.encard_le_encard_of_injOn (fun k hk => Finset.mem_coe.mpr (hmem k hk)) hinj
    _ = ((pairsOf m).card : Nat) := Set.encard_coe_eq_coe_finsetCard _
    _ ≤ _ := Nat.cast_le.mpr (card_pairsOf_le m)

/-- Whether the situation at a place was new when it was shown to the table. -/
def NewAt (ss : List Situation) (k : Nat) : Prop := (answers {} ss)[k]? = some true

/-- Later situations change no answer. -/
theorem newAt_append {k : Nat} (hk : k < ss.length) : NewAt (ss ++ [s]) k ↔ NewAt ss k := by
  rw [NewAt, NewAt, getElem?_answers, getElem?_answers, List.getElem?_append_left hk,
    List.take_append_of_le_length hk.le]

/-- The last answer is that of the table as it is. -/
theorem newAt_length : NewAt (ss ++ [s]) ss.length ↔ (notes {} ss).isNew s = true := by
  rw [NewAt, getElem?_answers, List.getElem?_concat_length, List.take_left, Option.map_some, Option.some.injEq]

end Novelty

/-! ## First tasks by their ids -/

/-- The id of the first task; where nothing is left to do, the largest word stands for it. -/
def Situation.firstId (m : Model) (s : Situation) : Nat :=
  match s.network.head? with
  | some t => m.taskId t
  | none => maxWord

/-- Tasks of a problem are told apart by their ids. -/
theorem Model.taskId_inj {m : Model} {t u : Task} (ht : m.HasTask t) (hu : m.HasTask u) (h : m.taskId t = m.taskId u) :
    t = u := by
  have hid : m.idOf t.component = m.idOf u.component := by cases t <;> cases u <;> exact h
  have hfound := componentAt?_idOf ht
  rw [hid, componentAt?_idOf hu] at hfound
  cases t <;> cases u <;> cases Option.some.inj hfound <;> rfl

/-- **Having nothing left to do is taken for no task**, as long as ids are words. -/
theorem Situation.Known.firstId_eq_iff {m : Model} {s t : Situation} (hs : s.Known m) (ht : t.Known m)
    (hsize : m.size ≤ maxWord) : s.firstId m = t.firstId m ↔ s.network.head? = t.network.head? := by
  have hlt : ∀ {s : Situation} {u : Task}, s.Known m → s.network.head? = some u → m.taskId u < maxWord := fun hs hu =>
    (Model.taskId_lt_size (hs.tasks _ (List.mem_of_head? hu))).trans_le hsize
  unfold firstId
  cases hu : s.network.head? with
  | none =>
    cases hv : t.network.head? with
    | none => exact iff_of_true rfl rfl
    | some v => exact iff_of_false (hlt ht hv).ne' nofun
  | some u =>
    cases hv : t.network.head? with
    | none => exact iff_of_false (hlt hs hu).ne nofun
    | some v =>
      refine ⟨fun h => congrArg some ?_, fun h => congrArg m.taskId (Option.some.inj h)⟩
      exact Model.taskId_inj (hs.tasks u (List.mem_of_head? hu)) (ht.tasks v (List.mem_of_head? hv)) h

/-! ## Lines -/

section Lines

variable {α : Type} [Scale α]

/-- Whether a node that is taken leaves one behind that is older, or newer where the newest are served first. -/
def Frontier.Overtakes (kind : SearchKind) (q : Frontier α) (i : Nat) : Prop :=
  ∃ next, q.pop? = some (i, next) ∧ ∃ j ∈ next.toList, match kind with
    | .depthFirst => i < j
    | _ => j < i

/-- Nodes that wait in the order of their age, and were all new or all not. -/
structure Frontier.Tier (ss : List Situation) (new : Bool) (l : List Nat) : Prop where
  bound : ∀ k ∈ l, k < ss.length
  sorted : l.Pairwise (· < ·)
  rated : ∀ k ∈ l, Novelty.NewAt ss k ↔ new = true

/-- Nodes that were new wait apart from the others. -/
inductive Frontier.Tiered (kind : SearchKind) (ss : List Situation) : Frontier α → Prop where
  | lines {service : Service} {fresh rest : Line Nat} (rule : (Frontier.empty kind : Frontier α) = .lines service {} {})
      (novel : Frontier.Tier ss true fresh.toList) (others : Frontier.Tier ss false rest.toList) :
      Tiered kind ss (.lines service fresh rest)

/-- What was served waits no more, and the others do as before. -/
theorem Service.sublist_of_pop? {service : Service} {l rest : Line Nat} {i : Nat}
    (h : service.pop? l = some (i, rest)) : rest.toList.Sublist l.toList := by
  cases service with
  | oldest => exact Line.toList_of_popOldest? h ▸ List.sublist_cons_self i _
  | newest => exact Line.toList_of_popNewest? h ▸ List.sublist_append_left _ [i]

namespace Frontier.Tier

variable {ss : List Situation} {new : Bool} {l l' : List Nat}

theorem nil (ss : List Situation) (new : Bool) : Tier ss new [] := ⟨nofun, .nil, nofun⟩

/-- One more node changes nothing for those that wait. -/
theorem snoc (h : Tier ss new l) (s : Situation) : Tier (ss ++ [s]) new l where
  bound k hk := (h.bound k hk).trans_le (List.length_append ▸ Nat.le_add_right _ _)
  sorted := h.sorted
  rated k hk := (Novelty.newAt_append (h.bound k hk)).trans (h.rated k hk)

/-- The next node joins at the end of the line for which it is rated. -/
theorem push (h : Tier ss new l) {s : Situation} (hnew : (Novelty.notes {} ss).isNew s = new) :
    Tier (ss ++ [s]) new (l ++ [ss.length]) where
  bound := List.forall_mem_append.mpr ⟨(h.snoc s).bound, List.forall_mem_singleton.mpr (by simp)⟩
  sorted := List.pairwise_append.mpr ⟨h.sorted, List.pairwise_singleton _ _, fun k hk j hj =>
    List.mem_singleton.mp hj ▸ h.bound k hk⟩
  rated := List.forall_mem_append.mpr ⟨(h.snoc s).rated, List.forall_mem_singleton.mpr (by rw [Novelty.newAt_length, hnew])⟩

theorem sublist (h : Tier ss new l) (hsub : l'.Sublist l) : Tier ss new l' where
  bound k hk := h.bound k (hsub.subset hk)
  sorted := h.sorted.sublist hsub
  rated k hk := h.rated k (hsub.subset hk)

end Frontier.Tier

namespace Frontier.Tiered

variable {kind : SearchKind} {ss : List Situation} {q next : Frontier α} {i : Nat}

omit [Scale α] in
/-- A blind search begins with two lines. -/
theorem empty (hblind : kind.isBlind = true) : Tiered kind [] (Frontier.empty kind : Frontier α) := by
  cases kind with
  | aStar | greedyBestFirst => cases hblind
  | breadthFirst | depthFirst => exact .lines rfl (.nil [] true) (.nil [] false)

/-- **A node joins the line it belongs to.** -/
theorem push (h : Tiered kind ss q) (n : Node α) (s : Situation) :
    Tiered kind (ss ++ [s]) (q.push ss.length n ((Novelty.notes {} ss).isNew s)) := by
  cases h with
  | @lines service fresh rest rule novel others =>
    unfold Frontier.push
    cases hnew : (Novelty.notes {} ss).isNew s with
    | true => exact .lines rule (Line.toList_push .. ▸ novel.push hnew) (others.snoc s)
    | false => exact .lines rule (novel.snoc s) (Line.toList_push .. ▸ others.push hnew)

/-- A node that is taken leaves the lines as they are. -/
theorem of_pop? (h : Tiered kind ss q) (hpop : q.pop? = some (i, next)) : Tiered kind ss next := by
  cases h with
  | @lines service fresh rest rule novel others =>
    simp only [pop?] at hpop
    split at hpop
    · rename_i j fresh' hserve
      cases hpop
      exact .lines rule (novel.sublist (Service.sublist_of_pop? hserve)) others
    · obtain ⟨⟨j, rest'⟩, hserve, he⟩ := Option.map_eq_some_iff.mp hpop
      cases he
      exact .lines rule novel (others.sublist (Service.sublist_of_pop? hserve))

/-- **Only a node that was new is taken before its turn**: the others wait until no new one does, and are served in
order. -/
theorem novel_of_overtakes (h : Tiered kind ss q) (hover : q.Overtakes kind i) : Novelty.NewAt ss i := by
  obtain ⟨next, hpop, j, hj, hage⟩ := hover
  cases h with
  | @lines service fresh rest rule novel others =>
    simp only [pop?] at hpop
    split at hpop
    · rename_i i' fresh' hserve
      cases hpop
      exact (novel.rated i ((Frontier.perm_of_serve hserve).mem_iff.mpr List.mem_cons_self)).mpr rfl
    · rename_i hnone
      obtain ⟨⟨i', rest'⟩, hserve, he⟩ := Option.map_eq_some_iff.mp hpop
      cases he
      rw [toList, serve_eq_none.mp hnone, List.nil_append] at hj
      have hsorted := others.sorted
      cases kind with
      | aStar | greedyBestFirst => cases rule
      | breadthFirst =>
        cases rule
        rw [Line.toList_of_popOldest? hserve, List.pairwise_cons] at hsorted
        exact absurd (hsorted.1 j hj) (Nat.lt_asymm hage)
      | depthFirst =>
        cases rule
        rw [Line.toList_of_popNewest? hserve, List.pairwise_append] at hsorted
        exact absurd (hsorted.2.2 j hj _ (List.mem_singleton_self _)) (Nat.lt_asymm hage)

end Frontier.Tiered

/-! ## Runs -/

/-- The situations of the nodes, in order. -/
def Run.situations (s : Run α) : List Situation := s.nodes.toList.map (·.situation)

namespace Run

omit [Scale α] in
theorem situations_of_push {s s' : Run α} {c : Node α} (h : s'.nodes = s.nodes.push c) :
    s'.situations = s.situations ++ [c.situation] := by
  rw [situations, h, Array.toList_push, List.map_append]
  rfl

omit [Scale α] in
theorem length_situations (s : Run α) : s.situations.length = s.nodes.size := by
  rw [situations, List.length_map, Array.length_toList]

omit [Scale α] in
theorem getElem?_situations (s : Run α) (k : Nat) : s.situations[k]? = (s.nodes[k]?).map (·.situation) := by
  rw [situations, List.getElem?_map, Array.getElem?_toList]

/-- The table is that of the nodes, and in a blind search those that were new wait apart. -/
structure Sifted (x : Search) (s : Run α) : Prop where
  table : s.novelty = Novelty.notes {} s.situations
  lines : x.options.kind.isBlind = true → s.frontier.Tiered x.options.kind s.situations

variable {x : Search} {s s' : Run α}

/-- A node is sifted when it joins. -/
theorem Sifted.push (h : s.Sifted x) {c : Node α} (hnodes : s'.nodes = s.nodes.push c)
    (hfrontier : s'.frontier = s.frontier.push s.nodes.size c (s.novelty.isNew c.situation))
    (hnovelty : s'.novelty = s.novelty.note c.situation) : s'.Sifted x := by
  have hsituations := situations_of_push hnodes
  refine ⟨?_, fun hblind => ?_⟩
  · rw [hnovelty, h.table, hsituations, Novelty.notes, Novelty.notes, List.foldl_append]
    rfl
  · rw [hfrontier, hsituations, ← length_situations, h.table]
    exact (h.lines hblind).push c c.situation

/-- A move keeps the nodes sifted. -/
theorem Sifted.offer (hnovelty : x.options.novelty = true) (h : s.Sifted x) (i : Nat) (n : Node α) (v : Move) :
    (s.offer x i n v).Sifted x := by
  obtain hsame | ⟨c, hjoins⟩ := s.offer_joins x i n v
  · have hsituations : (s.offer x i n v).situations = s.situations := by rw [situations, hsame.nodes, situations]
    refine ⟨?_, fun hblind => ?_⟩
    · rw [hsame.novelty, hsituations, h.table]
    · rw [hsame.frontier, hsituations]
      exact h.lines hblind
  · have hfrontier := hjoins.frontier
    have htable := hjoins.novelty
    rw [hnovelty, Bool.true_and] at hfrontier
    rw [if_pos hnovelty] at htable
    exact h.push hjoins.nodes hfrontier htable

omit [Scale α] in
/-- Marks are not looked at. -/
theorem Sifted.forgetMarks (h : s.Sifted x) (i : Nat) :
    ({ s with nodes := forgetMarks s.nodes i } : Run α).Sifted x := by
  have hsituations : ({ s with nodes := HierPlan.forgetMarks s.nodes i } : Run α).situations = s.situations := by
    refine List.ext_getElem? fun k => ?_
    rw [getElem?_situations, getElem?_situations, getElem?_forgetMarks, Option.map_map]
    congr 1
    funext n
    simp only [Function.comp_apply]
    split <;> rfl
  exact ⟨hsituations ▸ h.table, fun hblind => hsituations ▸ h.lines hblind⟩

end Run

namespace Search

variable {x : Search} {mon : Monitor} {h : Heuristic α} {s r r' s' : Run α} {k : Nat}

theorem sifted_start (hnovelty : x.options.novelty = true) (h : Heuristic α) : (x.start h).Sifted x := by
  have hblank : ((x.blank h).remember (x.key? x.model.start) 0).Sifted x := by
    refine ⟨?_, fun hblind => ?_⟩
    · rw [Run.novelty_remember, Run.situations, Run.nodes_remember]
      rfl
    · rw [Run.frontier_remember, Run.situations, Run.nodes_remember]
      exact .empty hblind
  cases hf : Scale.isFinite (h.atRoot x.model x.model.start).1.value with
  | false =>
    rw [start_of_infinite hf]
    exact ⟨rfl, fun hblind => .empty hblind⟩
  | true =>
    rw [start_of_finite hf]
    refine hblank.push (Run.nodes_keep ..) ?_ ?_
    · rw [Run.keep_eq, hnovelty, Bool.true_and]
    · rw [Run.keep_eq, Run.note, if_pos hnovelty]

/-- **Every step keeps the nodes sifted.** -/
theorem sifted_step (hnovelty : x.options.novelty = true) (hs : s.Sifted x) (hstep : x.step mon s = .running s') :
    s'.Sifted x := by
  obtain ⟨i, q, hpop, hcases⟩ := running_of_step hstep
  have htaken : ∀ readings, ({ s with frontier := q, readings } : Run α).Sifted x := fun readings =>
    ⟨hs.table, fun hblind => (hs.lines hblind).of_pop? hpop⟩
  obtain ⟨-, rfl⟩ | ⟨n, readings, -, -, rfl⟩ := hcases
  · exact htaken s.readings
  · have hopened : (({ s with frontier := q, readings } : Run α).opened n).Sifted x :=
      ⟨(htaken readings).table, (htaken readings).lines⟩
    rw [Run.expand_eq]
    exact (List.foldlRecOn (motive := Run.Sifted x) _ _ hopened fun r hr v _ => hr.offer hnovelty i n v).forgetMarks i

theorem sifted_of_reaches (hnovelty : x.options.novelty = true) (hr : x.Reaches mon (x.start h) r) : r.Sifted x :=
  hr.keeps (fun _ _ => sifted_step hnovelty) (sifted_start hnovelty h)

/-- Where a search goes on at all it goes on through its next turn. -/
theorem Reaches.eq_or_exists (h : x.Reaches mon s r) : r = s ∨ ∃ s', x.step mon s = .running s' ∧ x.Reaches mon s' r := by
  induction h with
  | here => exact .inl rfl
  | step _ next ih =>
    obtain rfl | ⟨s', hstep, hreach⟩ := ih
    · exact .inr ⟨_, next, .here⟩
    · exact .inr ⟨s', hstep, hreach.step next⟩

/-- **A search passes through its runs one after another.** -/
theorem Reaches.total (h : x.Reaches mon s r) (h' : x.Reaches mon s r') : x.Reaches mon r r' ∨ x.Reaches mon r' r := by
  induction h with
  | here => exact .inl h'
  | step _ next ih =>
    obtain hahead | hbehind := ih
    · obtain rfl | ⟨s', hstep, hreach⟩ := hahead.eq_or_exists
      · exact .inr (.step .here next)
      · rw [next] at hstep
        cases hstep
        exact .inl hreach
    · exact .inr (hbehind.step next)

/-- All runs agree on the situation of a node. -/
theorem situation_unique {t u : Situation} (hr : x.Reaches mon s r) (hr' : x.Reaches mon s r')
    (ht : r.situations[k]? = some t) (hu : r'.situations[k]? = some u) : t = u := by
  have hlater : ∀ {r r' : Run α} {t u : Situation}, x.Reaches mon r r' → r.situations[k]? = some t →
      r'.situations[k]? = some u → t = u := by
    intro r r' t u hreach ht hu
    rw [Run.getElem?_situations, Option.map_eq_some_iff] at ht hu
    obtain ⟨n, hn, rfl⟩ := ht
    obtain ⟨n', hn', rfl⟩ := hu
    obtain ⟨marks, hkept⟩ := extends_of_reaches hreach k n hn
    rw [Option.some.inj (hn'.symm.trans hkept)]
  obtain hreach | hreach := hr.total hr'
  · exact hlater hreach ht hu
  · exact (hlater hreach hu ht).symm

/-- The nodes that are new at some time. -/
def novel (x : Search) (mon : Monitor) (s : Run α) : Set Nat :=
  {k | ∃ r, x.Reaches mon s r ∧ Novelty.NewAt r.situations k}

/-- The nodes that are taken before their turn at some time. -/
def overtaking (x : Search) (mon : Monitor) (s : Run α) : Set Nat :=
  {i | ∃ r, x.Reaches mon s r ∧ r.frontier.Overtakes x.options.kind i}

/-- **No more nodes are new than the problem has pairs**, however long the search goes on. -/
theorem encard_novel_le (hw : x.model.WellFormed) (mon : Monitor) (h : Heuristic α) :
    (x.novel mon (x.start h)).encard ≤
      (x.model.facts.size * (x.model.operators.size + x.model.compounds.size + 1) : Nat) := by
  let At (k : Nat) (t : Situation) : Prop := ∃ r, x.Reaches mon (x.start h) r ∧ r.situations[k]? = some t
  have hsub : x.novel mon (x.start h) ⊆ {k | Novelty.News At k} := by
    rintro k ⟨r, hr, hnew⟩
    obtain ⟨s, hs, f, hf, hfirst⟩ := (Novelty.answers_eq_true_iff _ _).mp hnew
    refine ⟨s, ⟨r, hr, hs⟩, f, hf, ?_⟩
    rintro j hj t ⟨r', hr', ht⟩
    have hlt := hj.trans (List.getElem?_eq_some_iff.mp hs).1
    have heq := situation_unique hr' hr ht (List.getElem?_eq_getElem hlt)
    exact hfirst j hj t (heq ▸ List.getElem?_eq_getElem hlt)
  refine (Set.encard_le_encard hsub).trans (Novelty.encard_news_le ?_)
  rintro k t ⟨r, hr, ht⟩
  rw [Run.getElem?_situations, Option.map_eq_some_iff] at ht
  obtain ⟨n, hn, rfl⟩ := ht
  exact (grown_of_reaches hr).arena.known hw hn

end Search

/-- **What novelty says, and how often.**  In a built problem a table that is shown situations of it one after another
says of one that it is new exactly if some fact of it held in none before it with the same first task, and having
nothing left to do is one more first task, which is taken for no other as long as ids are words.  So no more are new
than facts times operators, tasks and one; nor are in a search with novelty, whose table is that of its nodes, however
long it is.  A blind search keeps those that are new apart, and so no more nodes are ever taken before their turn. -/
theorem Search.novelty_bounded {d : Draft} {m : Model} (hbuild : d.build = .ok m) :
    (∀ ss : List Situation, (∀ s ∈ ss, ∃ moves, Path m m.start moves s) →
      (∀ k s, ss[k]? = some s → (Novelty.NewAt ss k ↔
        ∃ f ∈ s.state, ∀ j < k, ∀ t, ss[j]? = some t → t.network.head? = s.network.head? → f ∉ t.state)) ∧
      (∀ s ∈ ss, ∀ t ∈ ss, m.size ≤ maxWord → (s.firstId m = t.firstId m ↔ s.network.head? = t.network.head?)) ∧
      {k | Novelty.NewAt ss k}.encard ≤ (m.facts.size * (m.operators.size + m.compounds.size + 1) : Nat)) ∧
    ∀ (x : Search) (mon : Monitor) (h : Heuristic α), x.model = m → x.options.novelty = true →
      (∀ r, x.Reaches mon (x.start h) r → r.novelty = Novelty.notes {} r.situations) ∧
      (x.novel mon (x.start h)).encard ≤ (m.facts.size * (m.operators.size + m.compounds.size + 1) : Nat) ∧
      (x.options.kind.isBlind = true →
        (∀ r, x.Reaches mon (x.start h) r → ∃ service fresh rest, r.frontier = .lines service fresh rest ∧
          (∀ k ∈ fresh.toList, Novelty.NewAt r.situations k) ∧ ∀ k ∈ rest.toList, ¬ Novelty.NewAt r.situations k) ∧
        x.overtaking mon (x.start h) ⊆ x.novel mon (x.start h) ∧
        (x.overtaking mon (x.start h)).encard ≤
          (m.facts.size * (m.operators.size + m.compounds.size + 1) : Nat)) := by
  have hw := Draft.wellFormed_of_build hbuild
  refine ⟨fun ss hss => ?_, fun x mon h hx hnovelty => ?_⟩
  · have hknown : ∀ s ∈ ss, s.Known m := fun s hs =>
      let ⟨_, hpath⟩ := hss s hs
      hpath.known hw hw.known_start
    refine ⟨fun k s hs => ?_, fun s hs t ht hsize => (hknown s hs).firstId_eq_iff (hknown t ht) hsize, ?_⟩
    · refine (Novelty.answers_eq_true_iff ss k).trans ⟨?_, fun hnew => ⟨s, hs, hnew⟩⟩
      rintro ⟨s', hs', hnew⟩
      obtain rfl := Option.some.inj (hs.symm.trans hs')
      exact hnew
    · have hsub : {k | Novelty.NewAt ss k} ⊆ {k | Novelty.News (fun j t => ss[j]? = some t) k} := fun k hk =>
        (Novelty.answers_eq_true_iff ss k).mp hk
      exact (Set.encard_le_encard hsub).trans
        (Novelty.encard_news_le fun k s hs => hknown s (List.mem_of_getElem? hs))
  · subst hx
    have hbound := encard_novel_le hw mon h
    refine ⟨fun r hr => (sifted_of_reaches hnovelty hr).table, hbound, fun hblind => ?_⟩
    have hover : x.overtaking mon (x.start h) ⊆ x.novel mon (x.start h) := by
      rintro i ⟨r, hr, htaken⟩
      exact ⟨r, hr, ((sifted_of_reaches hnovelty hr).lines hblind).novel_of_overtakes htaken⟩
    refine ⟨fun r hr => ?_, hover, (Set.encard_le_encard hover).trans hbound⟩
    have hlines := (sifted_of_reaches hnovelty hr).lines hblind
    generalize r.frontier = q at hlines ⊢
    cases hlines with
    | lines _ novel others =>
      exact ⟨_, _, _, rfl, fun k hk => (novel.rated k hk).mpr rfl, fun k hk => by simp [others.rated k hk]⟩

/-- The lamp, newest node first among those that bring something new. -/
def Search.lampByNovelty (goal : List Nat) : Search where
  model := .lamp goal
  options := { kind := .depthFirst, novelty := true }

/-- Two facts, two operators and a task: the light is new once, and no more than eight nodes are new, or taken before
their turn. -/
theorem Search.novelty_bounded_lamp :
    let x := lampByNovelty [0]
    let s : Run Float := x.start (.fresh .blind)
    let lit : Situation := ⟨.ofList 2 [0], []⟩
    Novelty.NewAt [(Model.lamp [0]).start, lit, lit] 1 ∧ ¬ Novelty.NewAt [(Model.lamp [0]).start, lit, lit] 2 ∧
      (x.novel ⟨fun _ => 0, fun _ => none⟩ s).encard ≤ (8 : Nat) ∧
      x.overtaking ⟨fun _ => 0, fun _ => none⟩ s ⊆ x.novel ⟨fun _ => 0, fun _ => none⟩ s ∧
      (x.overtaking ⟨fun _ => 0, fun _ => none⟩ s).encard ≤ (8 : Nat) := by
  intro x s lit
  obtain ⟨htable, hruns⟩ := novelty_bounded (d := .lamp [0]) (m := .lamp [0]) (α := Float) rfl
  have hlit : Path (.lamp [0]) (Model.lamp [0]).start
      [⟨.method 1, ⟨.ofList 2 [], [.operator 1]⟩, 0⟩, ⟨.operator 1, lit, 3⟩] lit :=
    .step (.tail _ (.head _)) (.step (.head _) .stay)
  obtain ⟨hnew, -, -⟩ := htable [(Model.lamp [0]).start, lit, lit] (by simpa using ⟨⟨_, .stay⟩, _, hlit⟩)
  have hlight : 0 ∈ lit.state := by decide
  refine ⟨(hnew 1 lit rfl).mpr ⟨0, hlight, fun j hj t ht hfirst => ?_⟩, fun h => ?_, ?_⟩
  · -- the start has another first task
    obtain rfl : j = 0 := Nat.lt_one_iff.mp hj
    cases ht
    cases hfirst
  · obtain ⟨f, hf, hbefore⟩ := (hnew 2 lit rfl).mp h
    exact hbefore 1 (by decide) lit rfl rfl hf
  · obtain ⟨-, hnovel, hblind⟩ := hruns x ⟨fun _ => 0, fun _ => none⟩ (.fresh .blind) rfl rfl
    obtain ⟨-, hsub, hover⟩ := hblind rfl
    exact ⟨hnovel, hsub, hover⟩

end Lines

end HierPlan
