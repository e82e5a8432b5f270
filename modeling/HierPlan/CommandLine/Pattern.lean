import HierPlan.Text.Blank

/-!
# CommandLine/Pattern — which search patterns are well formed

A field of a log filter may carry a pattern in the usual notation: alternatives, groups, repetition,
sets in brackets, escapes, and letters that change how the rest is read.  `Pattern.isWellFormed` says
whether it is one; nothing is ever searched for.

Patterns are read without tables of characters.  So letter case cannot be ignored, classes such as
`\d` and edges of words are there for single bytes only, and properties of characters are not there at
all; and a pattern of bytes must not match anything but whole characters.  Braces are not there
either, because they end a field.
-/

namespace HierPlan

namespace Pattern

/-! ## How a pattern is read -/

/-- What letters in a pattern have set. -/
structure Mode where
  /-- `i`: letter case is ignored. -/
  anyCase : Bool := false
  /-- Not `u`: a pattern matches bytes. -/
  bytes : Bool := false
  /-- `x`: white space and comments are skipped. -/
  spaced : Bool := false
  deriving DecidableEq

/-- The mode with a letter set or taken back. -/
def Mode.set (m : Mode) (letter : Char) (value : Bool) : Mode :=
  match letter with
  | 'i' => { m with anyCase := value }
  | 'u' => { m with bytes := !value }
  | 'x' => { m with spaced := value }
  | _ => m

/-- The letters that change how a pattern is read. -/
def modeLetters : List Char := ['i', 'm', 's', 'U', 'u', 'R', 'x']

/-- Skips white space, and comments from a number sign to the end of the line. -/
def skipSpaced (inComment : Bool) : List Char → List Char
  | [] => []
  | c :: rest =>
    if inComment then skipSpaced (c != '\n') rest
    else if isBlank c then skipSpaced false rest
    else if c == '#' then skipSpaced true rest
    else c :: rest

/-- Skips what the mode says to skip. -/
def Mode.skip (m : Mode) (cs : List Char) : List Char :=
  if m.spaced then skipSpaced false cs else cs

/-- The next character that is not white space.  The number sign of a comment is passed over, its text
is not. -/
def peekSpaced (inComment : Bool) : List Char → Option Char
  | [] => none
  | c :: rest =>
    if isBlank c then peekSpaced inComment rest
    else if !inComment && c == '#' then peekSpaced true rest
    else some c

/-- The next character that counts, after some that was not looked at. -/
def Mode.peek (m : Mode) (cs : List Char) : Option Char :=
  if m.spaced then (peekSpaced false cs).or cs.head? else cs.head?

/-! ## Escapes -/

/-- What one character of a pattern, or an escape, stands for. -/
inductive Piece where
  /-- A character; whether it was spelt as a single byte. -/
  | literal (c : Char) (byte : Bool)
  /-- A class of bytes. -/
  | shorthand
  /-- A place between characters. -/
  | edge

/-- The characters with a meaning of their own. -/
def metaChars : List Char := "\\.+*?()|[]\x7b\x7d^$#&-~".toList

/-- Whether a backslash makes a character stand for itself. -/
def isEscapable (c : Char) : Bool :=
  metaChars.contains c || (decide (c.toNat < 128) && !c.isAlphanum && c != '<' && c != '>')

/-- The value of a hexadecimal digit. -/
def hexValue? (c : Char) : Option Nat :=
  if c.isDigit then some (c.toNat - '0'.toNat)
  else if 'a' ≤ c ∧ c ≤ 'f' then some (c.toNat - 'a'.toNat + 10)
  else if 'A' ≤ c ∧ c ≤ 'F' then some (c.toNat - 'A'.toNat + 10)
  else none

/-- Reads so many hexadecimal digits after those that spell `value`. -/
def readHex (m : Mode) : (missing value : Nat) → List Char → Option (Nat × List Char)
  | 0, value, cs => some (value, cs)
  | missing + 1, value, cs =>
    match m.skip cs with
    | [] => none
    | c :: rest => (hexValue? c).bind fun d => readHex m missing (16 * value + d) rest

/-- Reads a character by its code, in so many digits. -/
def readCode (m : Mode) (digits : Nat) (cs : List Char) : Option (Piece × List Char) := do
  let (code, rest) ← readHex m digits 0 cs
  if code.isValidChar then some (.literal (Char.ofNat code) (digits == 2), m.skip rest) else none

/-- The characters that have a letter. -/
def lettered : List (Char × Char) :=
  [('a', '\x07'), ('f', '\x0c'), ('t', '\t'), ('n', '\n'), ('r', '\r'), ('v', '\x0b')]

/-- Reads what follows a backslash. -/
def readEscape (m : Mode) : List Char → Option (Piece × List Char)
  | [] => none
  | 'x' :: rest => readCode m 2 rest
  | 'u' :: rest => readCode m 4 rest
  | 'U' :: rest => readCode m 8 rest
  | c :: rest =>
    if ['d', 's', 'w', 'b', 'B', '<', '>'].contains c then
      if m.bytes then some (if ['d', 's', 'w'].contains c then .shorthand else .edge, rest) else none
    else if c == 'A' || c == 'z' then some (.edge, rest)
    else if isEscapable c then some (.literal c false, rest)
    else (lettered.lookup c).map fun x => (.literal x false, rest)

/-! ## Sets -/

/-- What is known of a set. -/
structure SetShape where
  /-- How deep it is nested. -/
  height : Nat := 0
  /-- Whether anything is listed in it. -/
  inhabited : Bool := false
  /-- Whether it holds the bytes that are no characters. -/
  high : Bool := false

/-- A set that is listed and holds nothing but characters. -/
def SetShape.plain : SetShape := { inhabited := true }

/-- What joins two sets. -/
inductive SetJoin where
  | intersection
  | difference
  | symmetric

/-- The characters that, twice in a row, join two sets. -/
def setJoin? : Char → Option SetJoin
  | '&' => some .intersection
  | '-' => some .difference
  | '~' => some .symmetric
  | _ => none

/-- Two sets joined. -/
def SetJoin.apply (j : SetJoin) (a b : SetShape) : SetShape where
  height := max a.height b.height + 1
  inhabited := a.inhabited || b.inhabited
  high :=
    match j with
    | .intersection => a.high && b.high
    | .difference => a.high && !b.high
    | .symmetric => a.high != b.high

/-- A bracket that is still open. -/
structure OpenSet where
  inverted : Bool
  /-- What stands before the last join. -/
  left : Option (SetJoin × SetShape) := none
  /-- How many items stand after it, and what they are together. -/
  count : Nat := 0
  items : SetShape := {}

namespace OpenSet

/-- The bracket with an item put in. -/
def add (s : OpenSet) (x : SetShape) : OpenSet :=
  { s with
    count := s.count + 1
    items := {
      height := max s.items.height x.height
      inhabited := s.items.inhabited || x.inhabited
      high := s.items.high || x.high } }

/-- Everything in the bracket so far. -/
def shape (s : OpenSet) : SetShape :=
  let last := if s.count ≤ 1 then s.items else { s.items with height := s.items.height + 1 }
  match s.left with
  | none => last
  | some (j, left) => j.apply left last

/-- The bracket before a join. -/
def join (s : OpenSet) (j : SetJoin) : OpenSet :=
  { inverted := s.inverted, left := some (j, s.shape) }

/-- The set the bracket stands for.  Letter case would have to be told apart in it, or it would hold
bytes that are no characters: then it stands for none. -/
def close (m : Mode) (s : OpenSet) : Option SetShape :=
  let x := s.shape
  if m.bytes then
    if x.high != s.inverted then none else some { x with height := x.height + 1, high := false }
  else if m.anyCase && x.inhabited then none
  else some { x with height := x.height + 1 }

end OpenSet

/-- Takes the dashes that stand first in a bracket, at most so many. -/
def takeDashes (m : Mode) : (limit : Nat) → OpenSet → List Char → OpenSet × List Char
  | limit + 1, s, '-' :: rest => takeDashes m limit (s.add .plain) (m.skip rest)
  | _, s, cs => (s, cs)

/-- Reads the beginning of a set, right after its bracket: a caret inverts it, and then dashes, or a
closing bracket, stand for themselves. -/
def beginSet (m : Mode) (cs : List Char) : OpenSet × List Char :=
  let cs := m.skip cs
  let (inverted, cs) :=
    match cs with
    | '^' :: rest => (true, m.skip rest)
    | cs => (false, cs)
  let (s, cs) := takeDashes m cs.length { inverted } cs
  match cs with
  | ']' :: rest => if s.count = 0 then (s.add .plain, m.skip rest) else (s, cs)
  | cs => (s, cs)

/-- The named classes of ASCII characters. -/
def classNames : List String :=
  ["alnum", "alpha", "ascii", "blank", "cntrl", "digit", "graph", "lower", "print", "punct",
    "space", "upper", "word", "xdigit"]

/-- Reads a named class between colons, right after its bracket. -/
def readNamed? : List Char → Option (SetShape × List Char)
  | ':' :: cs =>
    let (inverted, cs) :=
      match cs with
      | '^' :: rest => (true, rest)
      | cs => (false, cs)
    let (name, cs) := cs.span (· != ':')
    match cs with
    | ':' :: ']' :: rest =>
      if classNames.contains (String.ofList name) then
        some ({ inhabited := true, high := inverted }, rest)
      else none
    | _ => none
  | _ => none

/-- Reads one end of a range. -/
def readMember (m : Mode) : List Char → Option (Piece × List Char)
  | [] => none
  | '\\' :: rest => readEscape m rest
  | c :: rest => some (.literal c false, rest)

/-- Whether a character can stand in a set. -/
def canList (m : Mode) (c : Char) : Bool := !m.bytes || decide (c.toNat < 128)

/-- Reads a character, a class or a range of characters in a set. -/
def readRange (m : Mode) (cs : List Char) : Option (List Char) := do
  let (a, rest) ← readMember m cs
  let single : Option Unit :=
    match a with
    | .literal c _ => if canList m c then some () else none
    | .shorthand => some ()
    | .edge => none
  match m.skip rest with
  | [] => none
  | '-' :: after =>
    let next := m.peek after
    if next == some ']' || next == some '-' then single.map fun _ => '-' :: after
    else
      let (b, after) ← readMember m (m.skip after)
      match a, b with
      | .literal c _, .literal d _ =>
        if canList m c && canList m d && decide (c ≤ d) then some after else none
      | _, _ => none
  | rest => single.map fun _ => rest

/-- Reads the rest of the open sets, innermost first, in at most so many steps. -/
def readSet (m : Mode) :
    (limit : Nat) → OpenSet → List OpenSet → List Char → Option (SetShape × List Char)
  | 0, _, _, _ => none
  | limit + 1, s, outer, cs =>
    match m.skip cs with
    | [] => none
    | '[' :: rest =>
      match readNamed? rest with
      | some (x, rest) => readSet m limit (s.add x) outer rest
      | none =>
        let (t, rest) := beginSet m rest
        readSet m limit t (s :: outer) rest
    | ']' :: rest => do
      let x ← s.close m
      match outer with
      | [] => some (x, rest)
      | t :: outer => readSet m limit (t.add x) outer rest
    | c :: rest =>
      match setJoin? c, rest with
      | some j, d :: after =>
        if d == c then readSet m limit (s.join j) outer after
        else (readRange m (c :: rest)).bind fun rest => readSet m limit (s.add .plain) outer rest
      | _, _ => (readRange m (c :: rest)).bind fun rest => readSet m limit (s.add .plain) outer rest

/-! ## Groups -/

/-- The items of a sequence so far. -/
structure Sequence where
  count : Nat := 0
  /-- How deep the deepest of them is nested. -/
  height : Nat := 0
  /-- How deep the last one is nested, if it may be repeated. -/
  last : Option Nat := none

/-- The sequence with an item that may be repeated. -/
def Sequence.add (s : Sequence) (height : Nat) : Sequence :=
  ⟨s.count + 1, max s.height height, some height⟩

/-- The sequence with its last item repeated. -/
def Sequence.repeat? (s : Sequence) : Option Sequence :=
  s.last.map fun h => { s with height := max s.height (h + 1), last := some (h + 1) }

/-- How deep the sequence is nested. -/
def Sequence.depth (s : Sequence) : Nat := if s.count ≤ 1 then s.height else s.height + 1

/-- A sequence after the alternatives before it. -/
structure Choice where
  /-- How deep the deepest alternative is nested, if there is one. -/
  before : Option Nat := none
  current : Sequence := {}

/-- The choice before its next alternative. -/
def Choice.next (c : Choice) : Choice := ⟨some (max (c.before.getD 0) c.current.depth), {}⟩

/-- How deep the choice is nested. -/
def Choice.depth (c : Choice) : Nat :=
  match c.before with
  | none => c.current.depth
  | some h => max h c.current.depth + 1

/-- A pattern part way through. -/
structure Reading where
  mode : Mode := {}
  choice : Choice := {}
  /-- What stands around the current group, innermost first. -/
  outer : List (Mode × Choice) := []
  /-- The names given to groups so far. -/
  names : List (List Char) := []

namespace Reading

/-- The reading with an item put in. -/
def add (r : Reading) (height : Nat) : Reading :=
  { r with choice := { r.choice with current := r.choice.current.add height } }

/-- The reading with a group open. -/
def openGroup (r : Reading) (m : Mode) : Reading :=
  { r with mode := m, choice := {}, outer := (r.mode, r.choice) :: r.outer }

/-- The reading with its last item repeated. -/
def repeat? (r : Reading) : Option Reading :=
  r.choice.current.repeat?.map fun s => { r with choice := { r.choice with current := s } }

/-- The reading with the current group closed. -/
def closeGroup? (r : Reading) : Option Reading :=
  match r.outer with
  | [] => none
  | (m, choice) :: outer =>
    some (({ r with mode := m, choice, outer } : Reading).add (r.choice.depth + 1))

/-- The reading in another mode; what set it cannot be repeated. -/
def change (r : Reading) (m : Mode) : Reading :=
  let s := r.choice.current
  { r with mode := m, choice := { r.choice with current := { s with count := s.count + 1, last := none } } }

/-- How deep the pattern is nested, if every group is closed. -/
def finish? (r : Reading) : Option Nat := if r.outer.isEmpty then some r.choice.depth else none

end Reading

/-- Reads letters that change the mode, those after a dash taken back.  They end with a colon, before
a group, or with a parenthesis. -/
def readLetters (seen : List Char) (value dangling : Bool) (m : Mode) :
    List Char → Option (Mode × Bool × List Char)
  | [] => none
  | c :: rest =>
    if c == ':' || c == ')' then
      if dangling || (c == ')' && seen.isEmpty) then none else some (m, c == ':', rest)
    else if c == '-' then if value then readLetters seen false true m rest else none
    else if modeLetters.contains c && !seen.contains c then
      readLetters (c :: seen) value false (m.set c value) rest
    else none

/-- Whether some characters are the name of a group. -/
def isName : List Char → Bool
  | [] => false
  | c :: rest =>
    (c == '_' || isAlphabetic c) &&
      rest.all fun c => ['_', '.', '[', ']'].contains c || isAlphanumeric c

/-- Reads the name of a group. -/
def readName (r : Reading) (cs : List Char) : Option (Reading × List Char) :=
  let (name, rest) := cs.span (· != '>')
  match rest with
  | _ :: rest =>
    if isName name && !r.names.contains name then
      some ({ r.openGroup r.mode with names := name :: r.names }, rest)
    else none
  | [] => none

/-- Reads the beginning of a group, right after its parenthesis.  There is no looking ahead and no
looking behind. -/
def readGroup (r : Reading) (cs : List Char) : Option (Reading × List Char) :=
  match r.mode.skip cs with
  | '?' :: '=' :: _ | '?' :: '!' :: _ | '?' :: '<' :: '=' :: _ | '?' :: '<' :: '!' :: _ => none
  | '?' :: 'P' :: '<' :: rest | '?' :: '<' :: rest => readName r rest
  | '?' :: rest =>
    (readLetters [] true false r.mode rest).map fun (m, isGroup, rest) =>
      (if isGroup then r.openGroup m else r.change m, rest)
  | rest => some (r.openGroup r.mode, rest)

/-! ## Patterns -/

/-- Whether a piece can stand outside of sets. -/
def canStand (m : Mode) : Piece → Bool
  | .literal c byte => if m.bytes then !(byte && decide (128 ≤ c.toNat)) else !m.anyCase
  | .shorthand | .edge => true

/-- Passes over the mark of a repetition that takes as little as it can. -/
def dropLazy : List Char → List Char
  | '?' :: rest => rest
  | rest => rest

/-- Reads the rest of a pattern in at most so many steps; says how deep it is nested. -/
def readAll : (limit : Nat) → Reading → List Char → Option Nat
  | 0, _, _ => none
  | limit + 1, r, cs =>
    match r.mode.skip cs with
    | [] => r.finish?
    | '(' :: rest => (readGroup r rest).bind fun (r, rest) => readAll limit r rest
    | ')' :: rest => r.closeGroup?.bind fun r => readAll limit r rest
    | '|' :: rest => readAll limit { r with choice := r.choice.next } rest
    | '?' :: rest | '*' :: rest | '+' :: rest =>
      r.repeat?.bind fun r => readAll limit r (dropLazy rest)
    | '\x7b' :: _ => none
    | '[' :: rest =>
      let (s, rest) := beginSet r.mode rest
      (readSet r.mode limit s [] rest).bind fun (x, rest) => readAll limit (r.add x.height) rest
    | '.' :: rest => if r.mode.bytes then none else readAll limit (r.add 0) rest
    | '^' :: rest | '$' :: rest => readAll limit (r.add 0) rest
    | cs =>
      (readMember r.mode cs).bind fun (piece, rest) =>
        if canStand r.mode piece then readAll limit (r.add 0) rest else none

/-- How deep a pattern may be nested. -/
def maxDepth : Nat := 250

/-- Whether some characters are a pattern. -/
def isWellFormed (cs : List Char) : Bool := (readAll (cs.length + 1) {} cs).any (· ≤ maxDepth)

end Pattern

end HierPlan
