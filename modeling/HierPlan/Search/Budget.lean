import HierPlan.Config

/-!
# Search/Budget — time and memory limits

A search looks at its limits between expansions, every few of them.  What the clock and the system
report comes from outside as a `Monitor`; **the limits decide nothing but when a search is cut off**.
Time is looked at first, and memory is read only if it is limited.
-/

namespace HierPlan

/-- How a search ended. -/
inductive Status where
  /-- A plan was found. -/
  | goal
  /-- There is nothing left to look at. -/
  | unsolvable
  /-- The time limit was exceeded. -/
  | timeout
  /-- The memory limit was exceeded. -/
  | outOfMemory
  deriving DecidableEq, Repr

/-- What the clock and the system report. -/
structure Monitor where
  /-- Nanoseconds since the search began, after that many expansions. -/
  elapsed : Nat → Nat
  /-- Bytes in use at each reading, counted from the start of the search; unknown if the system does
  not tell. -/
  resident : Nat → Option Nat

/-- The monitor as it reports once `k` readings are over. -/
def Monitor.drop (mon : Monitor) (k : Nat) : Monitor :=
  { mon with resident := fun i => mon.resident (k + i) }

/-- What a look at the limits says: how to stop, if at all, and how often memory was read by then. -/
structure Look where
  verdict : Option Status
  readings : Nat

namespace SearchOptions

/-- Whether the limits are looked at after that many expansions. -/
def isDue (o : SearchOptions) (expanded : Nat) : Bool :=
  expanded != 0 && expanded % max o.checkInterval 1 == 0

/-- Whether so many nanoseconds are too many. -/
def isLate (o : SearchOptions) (elapsed : Nat) : Bool := o.timeLimit.any (· < elapsed)

/-- A look at the limits after that many expansions and readings. -/
def look (o : SearchOptions) (mon : Monitor) (expanded readings : Nat) : Look :=
  if o.isDue expanded then
    if o.isLate (mon.elapsed expanded) then ⟨some .timeout, readings⟩
    else
      match o.memoryLimit with
      | none => ⟨none, readings⟩
      | some limit =>
        if (mon.resident readings).any (limit < ·) then ⟨some .outOfMemory, readings + 1⟩
        else ⟨none, readings + 1⟩
  else ⟨none, readings⟩

end SearchOptions

end HierPlan
