import HierPlan.Text.Blank
import HierPlan.Word

/-!
# Search/Resident — the memory a status report tells of

A status report has one quantity to a line, the resident memory among them in kilobytes:

    VmRSS:     2500 kB
-/

namespace HierPlan

/-- What follows a label at the start of a line. -/
def afterLabel? (label : List Char) (line : List Char) : Option (List Char) :=
  if label.isPrefixOf line then some (line.drop label.length) else none

/-- The bytes of a quantity in kilobytes. -/
def kilobytes? (quantity : List Char) : Option Nat :=
  let (digits, rest) := (quantity.dropWhile isBlank).span Char.isDigit
  let (gap, unit) := rest.span isBlank
  let unit := unit.takeWhile fun c => !isBlank c
  if digits.isEmpty || gap.isEmpty || unit != ['k', 'B'] then none
  else
    let bytes := 1024 * digits.foldl (fun n c => 10 * n + (c.toNat - '0'.toNat)) 0
    if bytes < wordBound then some bytes else none

/-- The resident memory in bytes, if the report tells of it. -/
def residentBytes? (report : String) : Option Nat := do
  let quantity ← (report.splitOn "\n").findSome? fun line => afterLabel? "VmRSS:".toList line.toList
  kilobytes? quantity

end HierPlan
