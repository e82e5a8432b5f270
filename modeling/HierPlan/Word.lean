/-!
# Word — bounds of machine words

Numbers that come from outside or go there fit words of 64 or 32 bits.
-/

namespace HierPlan

/-- The largest 64-bit word. -/
def maxWord : Nat := 0xffffffffffffffff

/-- One more than the largest 64-bit word. -/
def wordBound : Nat := maxWord + 1

/-- One more than the largest 32-bit word. -/
def halfWordBound : Nat := 0x100000000

end HierPlan
