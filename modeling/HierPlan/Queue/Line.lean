/-!
# Queue/Line — a line that can be served from either end

A `Line α` keeps its values in the order they came (`Line.toList`).  It is two lists end to end, so
a value joins in one step, and leaves in one step but for an occasional turn of the whole line.
**Serving the oldest takes the head of `toList`, serving the newest takes its last**
(`toList_of_popOldest?`, `toList_of_popNewest?`).
-/

namespace HierPlan

universe u

/-- Values in the order they came. -/
structure Line (α : Type u) where
  /-- The older values, oldest first. -/
  front : List α := []
  /-- The newer values, newest first. -/
  back : List α := []

namespace Line

variable {α : Type u}

/-- The values, oldest first. -/
def toList (l : Line α) : List α := l.front ++ l.back.reverse

/-- How many values wait. -/
def size (l : Line α) : Nat := l.front.length + l.back.length

/-- The line with a value at its end. -/
def push (l : Line α) (x : α) : Line α := { l with back := x :: l.back }

/-- The oldest value and the line without it. -/
def popOldest? (l : Line α) : Option (α × Line α) :=
  match l.front with
  | x :: front => some (x, { l with front })
  | [] =>
    match l.back.reverse with
    | x :: front => some (x, ⟨front, []⟩)
    | [] => none

/-- The newest value and the line without it. -/
def popNewest? (l : Line α) : Option (α × Line α) :=
  match l.back with
  | x :: back => some (x, { l with back })
  | [] =>
    match l.front.reverse with
    | x :: back => some (x, ⟨[], back⟩)
    | [] => none

@[simp] theorem toList_empty : toList ({} : Line α) = [] := rfl

@[simp] theorem toList_push (l : Line α) (x : α) : (l.push x).toList = l.toList ++ [x] := by
  simp [toList, push]

theorem length_toList (l : Line α) : l.toList.length = l.size := by
  simp [toList, size]

/-- **The oldest value is the head of the line.** -/
theorem toList_of_popOldest? {l rest : Line α} {x : α} (hp : l.popOldest? = some (x, rest)) :
    l.toList = x :: rest.toList := by
  obtain ⟨front, back⟩ := l
  unfold popOldest? at hp
  split at hp
  · rename_i y front' hf
    cases hp
    simp_all [toList]
  · rename_i hf
    split at hp
    · cases hp
      simp_all [toList]
    · cases hp

/-- **The newest value is the last of the line.** -/
theorem toList_of_popNewest? {l rest : Line α} {x : α} (hp : l.popNewest? = some (x, rest)) :
    l.toList = rest.toList ++ [x] := by
  obtain ⟨front, back⟩ := l
  unfold popNewest? at hp
  split at hp
  · rename_i y back' hb
    cases hp
    simp_all [toList]
  · rename_i hb
    split at hp
    · rename_i y back' hf
      cases hp
      have : front = back'.reverse ++ [x] := by
        rw [← List.reverse_reverse front, hf, List.reverse_cons]
      simp_all [toList]
    · cases hp

theorem popOldest?_eq_none {l : Line α} : l.popOldest? = none ↔ l.toList = [] := by
  obtain ⟨front, back⟩ := l
  cases front with
  | cons x front => simp [popOldest?, toList]
  | nil =>
    cases h : back.reverse with
    | nil => simp [popOldest?, toList, h]
    | cons x rest => simp [popOldest?, toList, h]

theorem popNewest?_eq_none {l : Line α} : l.popNewest? = none ↔ l.toList = [] := by
  obtain ⟨front, back⟩ := l
  cases back with
  | cons x back => simp [popNewest?, toList]
  | nil =>
    cases h : front.reverse with
    | nil => simp_all [popNewest?, toList]
    | cons x rest =>
      have : front ≠ [] := fun e => by simp [e] at h
      simp [popNewest?, toList, h, this]

end Line

end HierPlan
