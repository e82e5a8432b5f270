import HierPlan.CommandLine.Pattern
import HierPlan.Double.Text

/-!
# CommandLine/LogFilter — which log lines are wanted

A filter names a level, or a target, or a target with its level; between them may stand a span in
brackets, and in the span fields in braces, with a pattern for their values:

    debug      planner      planner=debug      planner[search{kind=a.*}]=trace

Nothing may stand after a comma that ends the filter.  The program only checks that a filter is well
formed.

White space around a filter is passed over while it is taken apart, but **its parts are cut out of the
whole text at the places they have without it**.  After white space in front every part is therefore
cut too early, and a cut may fall inside a character.
-/

namespace HierPlan

/-- Why a filter is not one. -/
inductive FilterError where
  /-- Its parts do not fit together. -/
  | malformed
  /-- The level is none. -/
  | unknownLevel
  /-- The value of a field is no pattern. -/
  | badPattern
  /-- A part begins or ends inside a character. -/
  | splitCharacter
  deriving DecidableEq, Repr

/-- The cause in words. -/
def FilterError.message : FilterError → String
  | .malformed => "invalid filter directive"
  | .unknownLevel =>
    "error parsing level filter: expected one of \"off\", \"error\", \"warn\", \"info\", " ++
      "\"debug\", \"trace\", or a number 0-5"
  | .badPattern => "invalid field filter"
  | .splitCharacter => "the filter is cut inside a character"

namespace LogFilter

/-! ## Cutting by bytes -/

/-- The characters after so many bytes, if they end with a character. -/
def dropBytes? : Nat → List Char → Option (List Char)
  | 0, cs => some cs
  | _ + 1, [] => none
  | n + 1, c :: cs => if c.utf8Size ≤ n + 1 then dropBytes? (n + 1 - c.utf8Size) cs else none

/-- The characters of the first so many bytes, if they end with a character. -/
def takeBytes? : Nat → List Char → Option (List Char)
  | 0, _ => some []
  | _ + 1, [] => none
  | n + 1, c :: cs =>
    if c.utf8Size ≤ n + 1 then (takeBytes? (n + 1 - c.utf8Size) cs).map (c :: ·) else none

/-- The part of a text from one byte to another. -/
def cut (text : List Char) (first last : Nat) : Except FilterError (List Char) :=
  match (dropBytes? first text).bind (takeBytes? (last - first)) with
  | some part => .ok part
  | none => .error .splitCharacter

/-! ## Parts -/

/-- The names of the levels. -/
def levels : List String := ["off", "error", "warn", "info", "debug", "trace"]

/-- Whether some characters name a level, in any case of letters, or number one; no characters at
all stand for a default level. -/
def isLevel (cs : List Char) : Bool :=
  let digits :=
    match cs with
    | '+' :: r => r
    | r => r
  cs.isEmpty || levels.contains (String.ofList (cs.map Char.toLower)) ||
    (!digits.isEmpty && digits.all Char.isDigit && decide (digitCharsValue digits ≤ 5))

/-- What a field is to be equal to: what stands between the first two equality signs. -/
def fieldValue? (cs : List Char) : Option (List Char) :=
  match cs.dropWhile (· != '=') with
  | [] => none
  | _ :: rest => some (rest.takeWhile (· != '='))

/-- Whether some characters are a value to compare with: a number or a pattern. -/
def isValue (cs : List Char) : Bool :=
  (readDouble? (String.ofList cs)).isSome || Pattern.isWellFormed cs

/-- Fails unless some characters are a level. -/
def checkLevel (cs : List Char) : Except FilterError Unit :=
  if isLevel cs then .ok () else .error .unknownLevel

/-- Fails unless some characters are a field. -/
def checkField (cs : List Char) : Except FilterError Unit :=
  if cs.isEmpty then .error .malformed
  else if (fieldValue? cs).all isValue then .ok ()
  else .error .badPattern

/-- The part of a filter the last characters belong to, and the byte it begins at. -/
inductive Part where
  /-- Nothing was read yet. -/
  | start
  /-- A level or a target. -/
  | name
  | span (first : Nat)
  /-- A field of a span. -/
  | field (first : Nat)
  /-- Right after the fields of a span. -/
  | fields
  /-- Right after a span. -/
  | target
  /-- The level after a target. -/
  | level (first : Nat)
  /-- After a comma that ends the filter. -/
  | complete

/-- Whether a target may start with `c`. -/
def canStart (c : Char) : Bool := isAlphanumeric c || c == '-' || c == ':' || c == '_'

/-- Takes the character at byte `i` of a filter whose parts are cut out of `text`. -/
def advance (text : List Char) (p : Part) (i : Nat) (c : Char) : Except FilterError Part :=
  match p, c with
  | .start, '[' => .ok (.span (i + 1))
  | .start, c => if canStart c then .ok .name else .error .malformed
  | .name, '=' => do
    let _ ← cut text 0 i
    return .level (i + 1)
  | .name, '[' => do
    let _ ← cut text 0 i
    return .span (i + 1)
  | .name, ',' => .ok .complete
  | .name, _ => .ok .name
  | .target, '=' => .ok (.level (i + 1))
  | .span first, ']' => do
    let _ ← cut text first i
    return .target
  | .span first, '\x7b' => do
    let _ ← cut text first i
    return .field (i + 1)
  | .span first, _ => .ok (.span first)
  | .field first, '\x7d' => do
    checkField (← cut text first i)
    return .fields
  | .field first, ',' => do
    checkField (← cut text first i)
    return .field (i + 1)
  | .field first, _ => .ok (.field first)
  | .fields, ']' => .ok .target
  | .level first, ',' => do
    checkLevel (← cut text first i)
    return .complete
  | .level first, _ => .ok (.level first)
  | _, _ => .error .malformed

/-- Takes characters from byte `i` on. -/
def advanceAll (text : List Char) : Part → (i : Nat) → List Char → Except FilterError Part
  | p, _, [] => .ok p
  | p, i, c :: cs => do
    let p ← advance text p i c
    advanceAll text p (i + c.utf8Size) cs

/-- How many bytes a text has. -/
def byteCount (cs : List Char) : Nat := cs.foldl (fun n c => n + c.utf8Size) 0

/-- Fails unless a filter may end here. -/
def settle (text : List Char) : Part → Except FilterError Unit
  | .name | .target | .complete => .ok ()
  | .level first => do checkLevel (← cut text first (byteCount text))
  | _ => .error .malformed

/-- Fails unless a text is a filter. -/
def check (text : String) : Except FilterError Unit := do
  let cs := text.toList
  let p ← advanceAll cs .start 0 (trimBlanks cs)
  settle cs p

end LogFilter

end HierPlan
