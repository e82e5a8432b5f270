import HierPlan.Json.Value

/-!
# Json/Writer — writing JSON text

Two layouts: `Json.compact` on one line without blanks, and `Json.pretty` with two blanks of
indentation, one scalar or bracket to a line.
-/

namespace HierPlan

namespace Json

/-- Two lower-case hexadecimal digits. -/
def hexPair (n : Nat) : String :=
  String.ofList [Nat.digitChar (n / 16), Nat.digitChar (n % 16)]

/-- A character inside a string. -/
def escapeChar (c : Char) : String :=
  match c with
  | '"' => "\\\""
  | '\\' => "\\\\"
  | '\x08' => "\\b"
  | '\x0c' => "\\f"
  | '\n' => "\\n"
  | '\r' => "\\r"
  | '\t' => "\\t"
  | c => if c < ' ' then "\\u00" ++ hexPair c.toNat else c.toString

/-- A string in quotes. -/
def quote (s : String) : String :=
  "\"" ++ s.toList.foldl (fun out c => out ++ escapeChar c) "" ++ "\""

mutual

/-- The value on one line, appended to `out`. -/
def compactOnto (out : String) : Json → String
  | .null => out ++ "null"
  | .bool b => out ++ (if b then "true" else "false")
  | .number x => out ++ x.text
  | .text s => out ++ quote (s.getD "")
  | .array items => compactItems (out ++ "[") true items ++ "]"
  | .object fields => compactFields (out ++ "\x7b") true fields ++ "\x7d"

/-- The items of an array, commas between them. -/
def compactItems (out : String) (first : Bool) : List Json → String
  | [] => out
  | v :: rest => compactItems (compactOnto (if first then out else out ++ ",") v) false rest

/-- The fields of an object, commas between them. -/
def compactFields (out : String) (first : Bool) : List (Option String × Json) → String
  | [] => out
  | (name, v) :: rest =>
    compactFields
      (compactOnto ((if first then out else out ++ ",") ++ quote (name.getD "") ++ ":") v)
      false rest

end

/-- The value on one line. -/
def compact (v : Json) : String := compactOnto "" v

/-- A new line at a depth. -/
def newLine (depth : Nat) : String := "\n" ++ String.ofList (List.replicate (2 * depth) ' ')

mutual

/-- The value over several lines, appended to `out`. -/
def prettyOnto (out : String) (depth : Nat) : Json → String
  | .array [] => out ++ "[]"
  | .array (v :: rest) =>
    prettyItems (out ++ "[") (depth + 1) true (v :: rest) ++ newLine depth ++ "]"
  | .object [] => out ++ "\x7b\x7d"
  | .object (f :: rest) =>
    prettyFields (out ++ "\x7b") (depth + 1) true (f :: rest) ++ newLine depth ++ "\x7d"
  | v => compactOnto out v

/-- The items of an array, each on lines of its own. -/
def prettyItems (out : String) (depth : Nat) (first : Bool) : List Json → String
  | [] => out
  | v :: rest =>
    prettyItems
      (prettyOnto ((if first then out else out ++ ",") ++ newLine depth) depth v)
      depth false rest

/-- The fields of an object, each on lines of its own. -/
def prettyFields (out : String) (depth : Nat) (first : Bool) :
    List (Option String × Json) → String
  | [] => out
  | (name, v) :: rest =>
    prettyFields
      (prettyOnto
        ((if first then out else out ++ ",") ++ newLine depth ++ quote (name.getD "") ++ ": ")
        depth v)
      depth false rest

end

/-- The value over several lines. -/
def pretty (v : Json) : String := prettyOnto "" 0 v

end Json

end HierPlan
