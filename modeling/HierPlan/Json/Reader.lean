import HierPlan.Json.Value

/-!
# Json/Reader — reading JSON text

Text is read strictly: four blank characters, no comments, no trailing commas, no control characters
in strings, nothing after the value.  Two machines run side by side over the characters: a `Scan`
cuts tokens and a `Parse` keeps the containers that are still open in a list, so **nesting is
limited by nothing but the length of the text**.  `Json.parse?` is one fold, structural in the text.
-/

namespace HierPlan

namespace Json

/-! ## Containers still open -/

/-- A container part way through, latest entry first. -/
inductive Frame where
  /-- An array with these items so far. -/
  | array (items : List Json)
  /-- An object with these fields so far. -/
  | object (fields : List (Option String × Json))
  /-- An object with these fields so far, and a field still without its value. -/
  | field (fields : List (Option String × Json)) (name : Option String)

/-- What may come next. -/
inductive Phase where
  /-- A value. -/
  | value
  /-- A value, or the end of the array that has just begun. -/
  | firstItem
  /-- A field name. -/
  | name
  /-- A field name, or the end of the object that has just begun. -/
  | firstName
  /-- The colon after a field name. -/
  | colon
  /-- A comma or the end of the container. -/
  | next
  /-- Nothing: the text is complete. -/
  | done (value : Json)

/-- What is open, innermost first, and what may come next. -/
structure Parse where
  frames : List Frame := []
  phase : Phase := .value

/-- A token that is no value by itself. -/
inductive Mark where
  | openArray
  | closeArray
  | openObject
  | closeObject
  | comma
  | colon

namespace Parse

/-- Puts a finished value where it belongs. -/
def give (v : Json) : List Frame → Option Parse
  | [] => some ⟨[], .done v⟩
  | .array items :: rest => some ⟨.array (v :: items) :: rest, .next⟩
  | .field fields name :: rest => some ⟨.object ((name, v) :: fields) :: rest, .next⟩
  | .object _ :: _ => none

/-- Takes a number, a truth value or `null`. -/
def scalar (p : Parse) (v : Json) : Option Parse :=
  match p.phase with
  | .value | .firstItem => give v p.frames
  | _ => none

/-- Takes a string: a value or a field name. -/
def quoted (p : Parse) (s : Option String) : Option Parse :=
  match p.phase, p.frames with
  | .value, frames | .firstItem, frames => give (.text s) frames
  | .name, .object fields :: rest | .firstName, .object fields :: rest =>
    some ⟨.field fields s :: rest, .colon⟩
  | _, _ => none

/-- Takes a mark. -/
def mark (p : Parse) (t : Mark) : Option Parse :=
  match t, p.phase, p.frames with
  | .openArray, .value, frames | .openArray, .firstItem, frames =>
    some ⟨.array [] :: frames, .firstItem⟩
  | .openObject, .value, frames | .openObject, .firstItem, frames =>
    some ⟨.object [] :: frames, .firstName⟩
  | .closeArray, .firstItem, .array items :: rest | .closeArray, .next, .array items :: rest =>
    give (.array items.reverse) rest
  | .closeObject, .firstName, .object fields :: rest
  | .closeObject, .next, .object fields :: rest => give (.object fields.reverse) rest
  | .comma, .next, .array items :: rest => some ⟨.array items :: rest, .value⟩
  | .comma, .next, .object fields :: rest => some ⟨.object fields :: rest, .name⟩
  | .colon, .colon, frames => some ⟨frames, .value⟩
  | _, _, _ => none

end Parse

/-! ## Strings -/

/-- A piece of a string: a character, or one half of a surrogate pair by its code. -/
inductive Piece where
  | char (c : Char)
  | half (code : Nat)

/-- The text of a list of pieces, latest piece first, put before `tail`; a half without its partner
makes it fail. -/
def joinPieces (tail : List Char) : List Piece → Option (List Char)
  | [] => some tail
  | .char c :: rest => joinPieces (c :: tail) rest
  | .half low :: .half high :: rest =>
    if high < 0xDC00 ∧ 0xDC00 ≤ low then
      joinPieces (Char.ofNat (0x10000 + 0x400 * (high - 0xD800) + (low - 0xDC00)) :: tail) rest
    else none
  | .half _ :: _ => none

/-- The piece an escaped 16-bit code stands for. -/
def pieceOfCode (code : Nat) : Piece :=
  if 0xD800 ≤ code ∧ code < 0xE000 then .half code else .char (Char.ofNat code)

/-- The character a one-letter escape stands for. -/
def escaped? : Char → Option Char
  | '"' => some '"'
  | '\\' => some '\\'
  | '/' => some '/'
  | 'b' => some '\x08'
  | 'f' => some '\x0c'
  | 'n' => some '\n'
  | 'r' => some '\r'
  | 't' => some '\t'
  | _ => none

/-- The value of a hexadecimal digit. -/
def hexDigit? (c : Char) : Option Nat :=
  if '0' ≤ c ∧ c ≤ '9' then some (c.toNat - '0'.toNat)
  else if 'a' ≤ c ∧ c ≤ 'f' then some (c.toNat - 'a'.toNat + 10)
  else if 'A' ≤ c ∧ c ≤ 'F' then some (c.toNat - 'A'.toNat + 10)
  else none

/-! ## Numbers -/

/-- Whether `c` is a decimal digit. -/
def isDigit (c : Char) : Bool := decide ('0' ≤ c) && decide (c ≤ '9')

/-- Whether `c` can stand in a number. -/
def inNumber (c : Char) : Bool :=
  isDigit c || c == '-' || c == '+' || c == '.' || c == 'e' || c == 'E'

/-- Whether `c` can stand in a word. -/
def inWord (c : Char) : Bool := decide ('a' ≤ c) && decide (c ≤ 'z')

/-- A run of digits and what follows it. -/
def takeDigits (cs : List Char) : List Nat × List Char :=
  let (digits, rest) := cs.span isDigit
  (digits.map fun c => c.toNat - '0'.toNat, rest)

/-- The exponent, which has to end the number. -/
def readExponent : List Char → Option (Option (Bool × List Nat))
  | [] => some none
  | e :: rest =>
    if e == 'e' || e == 'E' then
      let (negative, rest) :=
        match rest with
        | '-' :: r => (true, r)
        | '+' :: r => (false, r)
        | r => (false, r)
      match takeDigits rest with
      | (d :: ds, []) => some (some (negative, d :: ds))
      | _ => none
    else none

/-- The fraction, if there is one: a point and at least one digit. -/
def readFraction : List Char → Option (Option (List Nat) × List Char)
  | '.' :: rest =>
    match takeDigits rest with
    | ([], _) => none
    | (ds, rest) => some (some ds, rest)
  | rest => some (none, rest)

/-- The number some characters spell; no digit may follow a leading zero. -/
def readNumeral (cs : List Char) : Option Numeral := do
  let (negative, cs) :=
    match cs with
    | '-' :: r => (true, r)
    | r => (false, r)
  let (whole, rest) := takeDigits cs
  let plain :=
    match whole with
    | [] => false
    | [_] => true
    | d :: _ => d != 0
  if plain then
    let (fraction, rest) ← readFraction rest
    let exponent ← readExponent rest
    some ⟨negative, whole, fraction, exponent⟩
  else none

/-- The value a word stands for. -/
def readWord (letters : List Char) : Option Json :=
  if letters == "true".toList then some (.bool true)
  else if letters == "false".toList then some (.bool false)
  else if letters == "null".toList then some .null
  else none

/-! ## The text -/

/-- The token the last characters belong to; lists hold the latest part first. -/
inductive Scan where
  /-- Between tokens. -/
  | idle
  /-- Inside a string. -/
  | string (pieces : List Piece)
  /-- Inside a string, right after a backslash. -/
  | escape (pieces : List Piece)
  /-- Inside a string and an escaped code, with this many digits missing. -/
  | code (pieces : List Piece) (missing value : Nat)
  /-- Inside a number. -/
  | number (chars : List Char)
  /-- Inside a word. -/
  | word (letters : List Char)

/-- Takes a character that belongs to no token yet. -/
def fresh (p : Parse) (c : Char) : Option (Scan × Parse) :=
  let mark := fun t => (p.mark t).map fun p => (Scan.idle, p)
  match c with
  | ' ' | '\t' | '\n' | '\r' => some (.idle, p)
  | '[' => mark .openArray
  | ']' => mark .closeArray
  | '\x7b' => mark .openObject
  | '\x7d' => mark .closeObject
  | ',' => mark .comma
  | ':' => mark .colon
  | '"' => some (.string [], p)
  | c =>
    if isDigit c || c == '-' then some (.number [c], p)
    else if inWord c then some (.word [c], p)
    else none

/-- Ends a number or a word, if the last characters are one. -/
def settle : Scan → Parse → Option Parse
  | .idle, p => some p
  | .number cs, p => do
    let x ← readNumeral cs.reverse
    p.scalar (.number x)
  | .word cs, p => do
    let v ← readWord cs.reverse
    p.scalar v
  | _, _ => none

/-- Takes the next character. -/
def advance (s : Scan) (p : Parse) (c : Char) : Option (Scan × Parse) :=
  match s with
  | .idle => fresh p c
  | .string ps =>
    if c == '"' then
      (p.quoted ((joinPieces [] ps).map String.ofList)).map fun p => (.idle, p)
    else if c == '\\' then some (.escape ps, p)
    else if c < ' ' then none
    else some (.string (.char c :: ps), p)
  | .escape ps =>
    if c == 'u' then some (.code ps 4 0, p)
    else (escaped? c).map fun c => (.string (.char c :: ps), p)
  | .code ps missing value =>
    (hexDigit? c).map fun d =>
      let value := 16 * value + d
      if missing ≤ 1 then (.string (pieceOfCode value :: ps), p)
      else (.code ps (missing - 1) value, p)
  | .number cs =>
    if inNumber c then some (.number (c :: cs), p)
    else (settle (.number cs) p).bind fun p => fresh p c
  | .word cs =>
    if inWord c then some (.word (c :: cs), p)
    else (settle (.word cs) p).bind fun p => fresh p c

/-- Takes all characters. -/
def advanceAll : List Char → Scan → Parse → Option Parse
  | [], s, p => settle s p
  | c :: cs, s, p =>
    match advance s p c with
    | some (s, p) => advanceAll cs s p
    | none => none

/-- The value a text spells. -/
def parse? (text : String) : Option Json :=
  match advanceAll text.toList .idle {} with
  | some ⟨_, .done v⟩ => some v
  | _ => none

end Json

end HierPlan
