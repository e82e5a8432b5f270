import HierPlan.Landmark.Engine

/-!
# Landmark/Gathering — closing a set one id at a time

    queue ──front──▸ id ──entries of id, less what is found──▸ found, and queue at the back

The set that `LandmarkEngine.close` comes to in rounds is also had from a queue.  At first every id of the set waits;
the one in front is taken off, and what it brings in that was not found yet is found now and goes to the back.
`Gathering.run` takes ids off the front until none is left.
-/

namespace HierPlan

/-- What is found so far, and the ids of it that were not taken yet. -/
structure Gathering where
  found : IdSet
  /-- The ids that wait, longest waiting first. -/
  queue : List Nat
  deriving DecidableEq

namespace Gathering

/-- Every id of a set waits. -/
def start (seed : IdSet) : Gathering := ⟨seed, seed.toList⟩

/-- What an id brings in that was not found yet. -/
def news (size : Nat) (bottomUp topDown : LandmarkTable) (found : IdSet) (id : Nat) : IdSet :=
  (LandmarkEngine.gain size bottomUp topDown id (.empty found.width)).sdiff found

/-- An id is taken off the front, where `rest` waits behind it. -/
def take (size : Nat) (bottomUp topDown : LandmarkTable) (found : IdSet) (id : Nat) (rest : List Nat) : Gathering :=
  let ids := (news size bottomUp topDown found id).toList
  ⟨ids.foldl .insert found, rest ++ ids⟩

/-- Takes ids off the front until none waits, but at most `turns` of them. -/
def run (size : Nat) (bottomUp topDown : LandmarkTable) : (turns : Nat) → Gathering → Gathering
  | 0, w => w
  | turns + 1, w =>
    match w.queue with
    | [] => w
    | id :: rest => run size bottomUp topDown turns (take size bottomUp topDown w.found id rest)

end Gathering

end HierPlan
