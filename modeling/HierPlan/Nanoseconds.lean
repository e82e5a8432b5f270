import HierPlan.Double.Parts
import HierPlan.Word

/-!
# Nanoseconds — spans of time

A span is a natural number of nanoseconds whose whole seconds fit 64 bits.  Seconds given as a
double are rounded to the nearest nanosecond, on the exact value, a tie to the even one.
-/

namespace HierPlan

/-- How many nanoseconds a second has. -/
def nanosPerSecond : Nat := 1000000000

/-- The span of so many seconds; negative, undefined and overlong ones have none. -/
def nanosOfSeconds? (seconds : Float) : Option Nat :=
  if seconds.isNaN || seconds < 0 || seconds.isInf then none
  else
    let p := Parts.ofDouble seconds
    if wordBound * p.denominator ≤ p.numerator then none
    else some (roundDiv (p.numerator * nanosPerSecond) p.denominator)

/-- A span in seconds, whole seconds and the rest converted apart. -/
def secondsOfNanos (nanos : Nat) : Float :=
  Float.ofNat (nanos / nanosPerSecond) + Float.ofNat (nanos % nanosPerSecond) / 1e9

end HierPlan
