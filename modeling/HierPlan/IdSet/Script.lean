import HierPlan.IdSet.Words

/-!
# IdSet/Script — sets of ids by what can be done to them

    script      empty 70 · insert 0 ⟨69⟩ · clone 0 · resize 1 ⟨64⟩ · union 0 2 · …
    sets        s₀            s₀            s₀ s₁     s₀ s₁ s₂       …
    flags                     true                                 …

Sets are made, copied and changed one after another; each keeps the place at which it was made.  A `SetKind` says how
this is done for sets of some kind, and `SetKind.run` runs a whole script of it.  Sets are combined with sets of the
same width only: a script that asks for anything else has no result.
-/

namespace HierPlan

/-- One thing done to sets; a set is named by its place. -/
inductive SetOp where
  | empty (width : Nat)
  | full (width : Nat)
  | ofList (width : Nat) (ids : List Nat)
  | clone (i : Nat)
  | resize (i width : Nat)
  | insert (i id : Nat)
  | erase (i id : Nat)
  | clear (i : Nat)
  | union (i j : Nat)
  | inter (i j : Nat)
  | sdiff (i j : Nat)
  deriving DecidableEq, Repr

/-- What can be done to sets of a kind.  What changes a set may tell whether it did. -/
structure SetKind (σ : Type) where
  width : σ → Nat
  empty : Nat → σ
  full : Nat → σ
  ofList : Nat → List Nat → σ
  resize : σ → Nat → σ
  insert : σ → Nat → σ × Bool
  erase : σ → Nat → σ × Bool
  clear : σ → σ
  union : σ → σ → σ × Bool
  inter : σ → σ → σ
  sdiff : σ → σ → σ

/-- Sets as numbers. -/
def idSets : SetKind IdSet where
  width := IdSet.width
  empty := .empty
  full := .full
  ofList := .ofList
  resize := .resize
  insert s id := (s.insert id, s.canInsert id)
  erase s id := (s.erase id, s.contains id)
  clear s := .empty s.width
  union s t := (s.union t, s.canGrow t)
  inter := .inter
  sdiff := .sdiff

/-- Sets as words. -/
def wordSets : SetKind WordSet where
  width := WordSet.width
  empty := .empty
  full := .full
  ofList := .ofList
  resize := .resize
  insert := WordSet.insert
  erase := WordSet.erase
  clear := .clear
  union := WordSet.union
  inter := .inter
  sdiff := .sdiff

namespace SetKind

variable {σ : Type} (k : SetKind σ)

/-- One more set, made of the one at a place. -/
def derive (sets : List σ) (i : Nat) (f : σ → σ) : Option (List σ × List Bool) :=
  (sets[i]?).map fun s => (sets ++ [f s], [])

/-- The set at a place, changed. -/
def change (sets : List σ) (i : Nat) (f : σ → σ × List Bool) : Option (List σ × List Bool) :=
  (sets[i]?).map fun s => (sets.set i (f s).1, (f s).2)

/-- The set at a place, combined with one of its width. -/
def combine (sets : List σ) (i j : Nat) (f : σ → σ → σ × List Bool) : Option (List σ × List Bool) :=
  (sets[i]?).bind fun s => (sets[j]?).bind fun t =>
    if k.width s = k.width t then some (sets.set i (f s t).1, (f s t).2) else none

/-- A set, and what is told of it. -/
def told (p : σ × Bool) : σ × List Bool := (p.1, [p.2])

/-- What becomes of sets when one thing is done, and what is told of it. -/
def step (sets : List σ) : SetOp → Option (List σ × List Bool)
  | .empty width => some (sets ++ [k.empty width], [])
  | .full width => some (sets ++ [k.full width], [])
  | .ofList width ids => some (sets ++ [k.ofList width ids], [])
  | .clone i => derive sets i fun s => s
  | .resize i width => derive sets i fun s => k.resize s width
  | .insert i id => change sets i fun s => told (k.insert s id)
  | .erase i id => change sets i fun s => told (k.erase s id)
  | .clear i => change sets i fun s => (k.clear s, [])
  | .union i j => k.combine sets i j fun s t => told (k.union s t)
  | .inter i j => k.combine sets i j fun s t => (k.inter s t, [])
  | .sdiff i j => k.combine sets i j fun s t => (k.sdiff s t, [])

/-- What becomes of sets in a whole script, and what is told on the way. -/
def run : List SetOp → List σ → Option (List σ × List Bool)
  | [], sets => some (sets, [])
  | op :: rest, sets =>
    (k.step sets op).bind fun (sets, flags) => (run rest sets).map fun (sets, more) => (sets, flags ++ more)

end SetKind

end HierPlan
