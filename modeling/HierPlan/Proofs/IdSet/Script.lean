import HierPlan.IdSet.Script

/-!
# Proofs/IdSet/Script — one kind of set stands for another

    sets  ──step──▸ sets
     │f              │f        and the same is told
    sets' ──step──▸ sets'

If whatever is done to the image of a set is the image of what is done to the set, **a script does to the images what
it does to the sets**, and the same is told of it (`SetKind.Hom.run`).
-/

namespace HierPlan.SetKind

variable {σ τ : Type} {A : SetKind σ} {B : SetKind τ} {f : σ → τ}

/-- What is done to images of sets is the image of what is done to the sets. -/
structure Hom (A : SetKind σ) (B : SetKind τ) (f : σ → τ) : Prop where
  width : ∀ s, B.width (f s) = A.width s
  empty : ∀ width, B.empty width = f (A.empty width)
  full : ∀ width, B.full width = f (A.full width)
  ofList : ∀ width ids, B.ofList width ids = f (A.ofList width ids)
  resize : ∀ s width, B.resize (f s) width = f (A.resize s width)
  insert : ∀ s i, B.insert (f s) i = Prod.map f id (A.insert s i)
  erase : ∀ s i, B.erase (f s) i = Prod.map f id (A.erase s i)
  clear : ∀ s, B.clear (f s) = f (A.clear s)
  union : ∀ s t, A.width s = A.width t → B.union (f s) (f t) = Prod.map f id (A.union s t)
  inter : ∀ s t, A.width s = A.width t → B.inter (f s) (f t) = f (A.inter s t)
  sdiff : ∀ s t, A.width s = A.width t → B.sdiff (f s) (f t) = f (A.sdiff s t)

/-- What is left of sets and what is told, with the images of the sets. -/
def image (f : σ → τ) : Option (List σ × List Bool) → Option (List τ × List Bool) :=
  Option.map (Prod.map (List.map f) id)

theorem derive_map {g : σ → σ} {g' : τ → τ} (hg : ∀ s, g' (f s) = f (g s)) (sets : List σ) (i : Nat) :
    derive (sets.map f) i g' = image f (derive sets i g) := by
  rw [derive, derive, List.getElem?_map]
  cases sets[i]? with
  | none => rfl
  | some s => simp [image, hg]

theorem change_map {g : σ → σ × List Bool} {g' : τ → τ × List Bool} (hg : ∀ s, g' (f s) = Prod.map f id (g s))
    (sets : List σ) (i : Nat) : change (sets.map f) i g' = image f (change sets i g) := by
  rw [change, change, List.getElem?_map]
  cases sets[i]? with
  | none => rfl
  | some s => simp [image, hg, List.map_set]

theorem combine_map (hwidth : ∀ s, B.width (f s) = A.width s) {g : σ → σ → σ × List Bool}
    {g' : τ → τ → τ × List Bool} (hg : ∀ s t, A.width s = A.width t → g' (f s) (f t) = Prod.map f id (g s t))
    (sets : List σ) (i j : Nat) : B.combine (sets.map f) i j g' = image f (A.combine sets i j g) := by
  rw [combine, combine, List.getElem?_map, List.getElem?_map]
  cases sets[i]? with
  | none => rfl
  | some s =>
    cases sets[j]? with
    | none => rfl
    | some t =>
      dsimp only [Option.map_some, Option.bind_some]
      rw [hwidth, hwidth]
      by_cases hst : A.width s = A.width t
      · simp [image, hst, hg, List.map_set]
      · simp [image, hst]

namespace Hom

/-- **One thing done to images is the image of it.** -/
theorem step (h : Hom A B f) (sets : List σ) (op : SetOp) : B.step (sets.map f) op = image f (A.step sets op) := by
  cases op with
  | empty width => simp [SetKind.step, image, h.empty]
  | full width => simp [SetKind.step, image, h.full]
  | ofList width ids => simp [SetKind.step, image, h.ofList]
  | clone i => exact derive_map (f := f) (fun _ => rfl) sets i
  | resize i width => exact derive_map (fun s => h.resize s width) sets i
  | insert i id => exact change_map (fun s => congrArg told (h.insert s id)) sets i
  | erase i id => exact change_map (fun s => congrArg told (h.erase s id)) sets i
  | clear i => exact change_map (fun s => congrArg (·, []) (h.clear s)) sets i
  | union i j => exact combine_map h.width (fun s t hst => congrArg told (h.union s t hst)) sets i j
  | inter i j => exact combine_map h.width (fun s t hst => congrArg (·, []) (h.inter s t hst)) sets i j
  | sdiff i j => exact combine_map h.width (fun s t hst => congrArg (·, []) (h.sdiff s t hst)) sets i j

/-- **A script does to images what it does to the sets.** -/
theorem run (h : Hom A B f) (ops : List SetOp) (sets : List σ) :
    B.run ops (sets.map f) = image f (A.run ops sets) := by
  induction ops generalizing sets with
  | nil => rfl
  | cons op rest ih =>
    rw [SetKind.run, SetKind.run, h.step]
    cases A.step sets op with
    | none => rfl
    | some next =>
      obtain ⟨sets, flags⟩ := next
      dsimp only [image, Option.map_some, Option.bind_some, Prod.map]
      rw [ih]
      cases A.run rest sets with
      | none => rfl
      | some last => rfl

end Hom

end HierPlan.SetKind
