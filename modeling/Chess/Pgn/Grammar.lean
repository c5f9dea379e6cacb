import Chess.Json.Value

namespace Chess

/-! The syntax of PGN files, read as a parsing expression grammar:

```
pgn        = SOI game* EOI
game       = tag_pair* element* result
tag_pair   = "[" identifier string "]"
identifier = (ASCII_ALPHANUMERIC | "_")+                          (atomic)
string     = "\"" ("\\\\" | "\\\"" | !"\"" ANY)* "\""              (atomic)
element    = move_number | san_move | nag | variation             (silent)
move_number = !result ASCII_DIGIT+ "."*                            (atomic)
san_move   = ASCII_ALPHA (ASCII_ALPHANUMERIC | "=" | "+" | "#" | "-" | "!" | "?")*   (atomic)
nag        = "$" ASCII_DIGIT+                                      (atomic)
variation  = "(" element* ")"
result     = "1-0" | "0-1" | "1/2-1/2" | "*"
```

Between the parts of a sequence and the rounds of a repetition in a non-atomic rule, blanks
(space, tab, carriage return, newline) and comments are skipped: `{` to the next `}`, or `;`
or `%` to the end of the line.

A failed parse is reported at the furthest position where a named rule was tried and failed,
with the rules expected there. The list follows the attempts at that position: a rule that
fails where it started replaces the attempts its own parts made there, unless they made
exactly one, which then stands for it. -/

/-- The named rules of the grammar, in their order of declaration after end of input. -/
inductive PgnRule where
  | eoi
  | whitespace
  | comment
  | pgn
  | game
  | tagPair
  | identifier
  | string
  | element
  | moveNumber
  | sanMove
  | nag
  | variation
  | result
  deriving DecidableEq, Repr, Inhabited

namespace PgnRule

def rank : PgnRule → Nat
  | eoi => 0
  | whitespace => 1
  | comment => 2
  | pgn => 3
  | game => 4
  | tagPair => 5
  | identifier => 6
  | string => 7
  | element => 8
  | moveNumber => 9
  | sanMove => 10
  | nag => 11
  | variation => 12
  | result => 13

def name : PgnRule → String
  | eoi => "EOI"
  | whitespace => "WHITESPACE"
  | comment => "COMMENT"
  | pgn => "pgn"
  | game => "game"
  | tagPair => "tag_pair"
  | identifier => "identifier"
  | string => "string"
  | element => "element"
  | moveNumber => "move_number"
  | sanMove => "san_move"
  | nag => "nag"
  | variation => "variation"
  | result => "result"

end PgnRule

/-- A movetext item that matters for the game: a move, or a variation with its items. Move
numbers and annotation glyphs are read and dropped. -/
inductive PgnItem where
  | move (text : String)
  | variation (items : List PgnItem)
  deriving Repr, Inhabited

/-- A game as written: tag names with their quoted values, movetext items and the result
token. -/
structure PgnText where
  tags : List (String × String)
  items : List PgnItem
  result : String
  deriving Repr, Inhabited

/-- Where and why a PGN text does not parse: a character position and the rules expected
there, in declaration order. -/
structure PgnParseError where
  position : Nat
  expected : List PgnRule
  deriving Repr, Inhabited

namespace Pgn

/-- A place in the text: the characters left and how many came before. -/
structure Cursor where
  rest : List Char
  pos : Nat
  deriving Inhabited

def Cursor.advance (c : Cursor) (n : Nat) : Cursor := ⟨c.rest.drop n, c.pos + n⟩

/-- What failed rules have left: the furthest position of a failure and the rules tried
there. -/
structure Attempts where
  pos : Nat := 0
  rules : Array PgnRule := #[]
  deriving Inhabited

abbrev Scan := StateM Attempts

def isAlpha (c : Char) : Bool := ('a' ≤ c ∧ c ≤ 'z') ∨ ('A' ≤ c ∧ c ≤ 'Z')

def isDigit (c : Char) : Bool := '0' ≤ c ∧ c ≤ '9'

def isAlnum (c : Char) : Bool := isAlpha c ∨ isDigit c

def isBlank (c : Char) : Bool := c = ' ' ∨ c = '\t' ∨ c = '\r' ∨ c = '\n'

/-- The length of a comment at the front of the text, if one starts there: braces must
close; a line comment runs to the next line break. -/
def commentLength : List Char → Option Nat
  | '\x7b' :: rest =>
    let body := rest.takeWhile (· ≠ '\x7d')
    if body.length < rest.length then some (body.length + 2) else none
  | ';' :: rest => some ((rest.takeWhile fun c => c ≠ '\n' ∧ c ≠ '\r').length + 1)
  | '%' :: rest => some ((rest.takeWhile fun c => c ≠ '\n' ∧ c ≠ '\r').length + 1)
  | _ => none

def skip (c : Cursor) : Cursor :=
  go (c.rest.length + 1) c
where
  /-- Skips at most `fuel` blanks and comments. -/
  go : Nat → Cursor → Cursor
    | 0, c => c
    | fuel + 1, c =>
      match c.rest with
      | ch :: _ =>
        if isBlank ch then go fuel (c.advance 1)
        else
          match commentLength c.rest with
          | some n => go fuel (c.advance n)
          | none => c
      | [] => c

def resultLength (cs : List Char) : Option Nat :=
  if "1-0".toList.isPrefixOf cs then some 3
  else if "0-1".toList.isPrefixOf cs then some 3
  else if "1/2-1/2".toList.isPrefixOf cs then some 7
  else if "*".toList.isPrefixOf cs then some 1
  else none

def identifierAt (c : Cursor) : Option (String × Cursor) :=
  let name := c.rest.takeWhile fun ch => isAlnum ch ∨ ch = '_'
  if name.isEmpty then none else some (String.ofList name, c.advance name.length)

/-- The characters of a quoted string after its opening quote, up to the closing quote:
how many there are, or none if the quote never closes. -/
def stringBody : List Char → Nat → Option Nat
  | '\\' :: '\\' :: rest, n => stringBody rest (n + 2)
  | '\\' :: '"' :: rest, n => stringBody rest (n + 2)
  | '"' :: _, n => some n
  | _ :: rest, n => stringBody rest (n + 1)
  | [], _ => none

def stringAt (c : Cursor) : Option (String × Cursor) :=
  match c.rest with
  | '"' :: rest =>
    match stringBody rest 0 with
    | some n => some (String.ofList (c.rest.take (n + 2)), c.advance (n + 2))
    | none => none
  | _ => none

/-- A move number at the cursor: digits and dots, unless a result starts there. -/
def moveNumberAt (c : Cursor) : Option (Unit × Cursor) :=
  if (resultLength c.rest).isSome then none
  else
    let digits := (c.rest.takeWhile isDigit).length
    if digits = 0 then none
    else
      let dots := ((c.rest.drop digits).takeWhile (· = '.')).length
      some ((), c.advance (digits + dots))

/-- A move at the cursor: a letter, then letters, digits and the marks `= + # - ! ?`. -/
def sanMoveAt (c : Cursor) : Option (String × Cursor) :=
  match c.rest with
  | ch :: rest =>
    if isAlpha ch then
      let more := rest.takeWhile fun d => isAlnum d ∨ "=+#-!?".toList.contains d
      some (String.ofList (ch :: more), c.advance (more.length + 1))
    else none
  | [] => none

def nagAt (c : Cursor) : Option (Unit × Cursor) :=
  match c.rest with
  | '$' :: rest =>
    let digits := (rest.takeWhile isDigit).length
    if digits = 0 then none else some ((), c.advance (digits + 1))
  | _ => none

def resultAt (c : Cursor) : Option (String × Cursor) :=
  (resultLength c.rest).map fun n => (String.ofList (c.rest.take n), c.advance n)

def charAt (ch : Char) (c : Cursor) : Option Cursor :=
  match c.rest with
  | d :: _ => if d = ch then some (c.advance 1) else none
  | [] => none

def Attempts.at (a : Attempts) (pos : Nat) : Nat := if a.pos = pos then a.rules.size else 0

/-- Records the failure of a rule that started at `pos`: `entry` is the number of attempts
at `pos` when the rule started (zero if the furthest position was another) and `before`
the attempts standing at `pos` then. -/
def Attempts.fail (a : Attempts) (r : PgnRule) (pos entry before : Nat) : Attempts :=
  let now := a.at pos
  if now > before ∧ now - before = 1 then a
  else
    let a := if pos = a.pos then { a with rules := a.rules.extract 0 entry } else a
    let a := if pos > a.pos then { pos, rules := #[] } else a
    if pos = a.pos then { a with rules := a.rules.push r } else a

def tracked {α : Type} (r : PgnRule) (c : Cursor) (body : Scan (Option (α × Cursor))) :
    Scan (Option (α × Cursor)) := do
  let a ← get
  let entry := if c.pos = a.pos then a.rules.size else 0
  let before := a.at c.pos
  let out ← body
  if out.isNone then modify fun a => a.fail r c.pos entry before
  pure out

mutual
/-- One movetext element at the cursor; move numbers and glyphs give no item. -/
def element : Nat → Cursor → Scan (Option (Option PgnItem × Cursor))
  | 0, _ => pure none
  | fuel + 1, c => do
    if let some (_, c') ← tracked .moveNumber c (pure (moveNumberAt c)) then
      return some (none, c')
    if let some (text, c') ← tracked .sanMove c (pure (sanMoveAt c)) then
      return some (some (.move text), c')
    if let some (_, c') ← tracked .nag c (pure (nagAt c)) then
      return some (none, c')
    match ← variation fuel c with
    | some (items, c') => return some (some (.variation items), c')
    | none => return none

/-- Elements one after another, blanks and comments between them; stops before the first
place where no element follows. -/
def elements : Nat → Cursor → Scan (List PgnItem × Cursor)
  | 0, c => pure ([], c)
  | fuel + 1, c => do
    match ← element fuel c with
    | some (item, c') =>
      let (more, c'') ← elements fuel (skip c')
      let c'' := if more.isEmpty ∧ c''.pos = (skip c').pos then c' else c''
      pure (item.toList ++ more, c'')
    | none => pure ([], c)

def variation : Nat → Cursor → Scan (Option (List PgnItem × Cursor))
  | 0, _ => pure none
  | fuel + 1, c =>
    tracked .variation c do
      match charAt '(' c with
      | none => pure none
      | some c1 =>
        let (items, c2) ← elements fuel (skip c1)
        match charAt ')' (skip c2) with
        | some c3 => pure (some (items, c3))
        | none => pure none
end

def tagPair (c : Cursor) : Scan (Option ((String × String) × Cursor)) :=
  tracked .tagPair c do
    let some c1 := charAt '[' c | pure none
    let some (name, c2) ← tracked .identifier (skip c1) (pure (identifierAt (skip c1)))
      | pure none
    let some (value, c3) ← tracked .string (skip c2) (pure (stringAt (skip c2)))
      | pure none
    let some c4 := charAt ']' (skip c3) | pure none
    pure (some ((name, value), c4))

def tagPairs : Nat → Cursor → Scan (List (String × String) × Cursor)
  | 0, c => pure ([], c)
  | fuel + 1, c => do
    match ← tagPair c with
    | some (tag, c') =>
      match ← tagPairs fuel (skip c') with
      | ([], _) => pure ([tag], c')
      | (more, c'') => pure (tag :: more, c'')
    | none => pure ([], c)

def game (fuel : Nat) (c : Cursor) : Scan (Option (PgnText × Cursor)) :=
  tracked .game c do
    let (tags, c1) ← tagPairs fuel c
    let (items, c2) ← elements fuel (skip c1)
    match ← tracked .result (skip c2) (pure (resultAt (skip c2))) with
    | some (result, c3) => pure (some ({ tags, items, result }, c3))
    | none => pure none

def games (fuel : Nat) : Nat → Cursor → Scan (List PgnText × Cursor)
  | 0, c => pure ([], c)
  | n + 1, c => do
    match ← game fuel c with
    | some (g, c') =>
      match ← games fuel n (skip c') with
      | ([], _) => pure ([g], c')
      | (more, c'') => pure (g :: more, c'')
    | none => pure ([], c)

def file (fuel : Nat) (c : Cursor) : Scan (Option (List PgnText × Cursor)) :=
  tracked .pgn c do
    let (gs, c1) ← games fuel fuel (skip c)
    let c2 := skip c1
    match ← tracked .eoi c2 (pure (if c2.rest.isEmpty then some ((), c2) else none)) with
    | some _ => pure (some (gs, c2))
    | none => pure none

def parse (text : String) : Except PgnParseError (List PgnText) :=
  let cs := text.toList
  let fuel := 3 * cs.length + 4
  match (file fuel ⟨cs, 0⟩).run {} with
  | (some (gs, _), _) => .ok gs
  | (none, a) =>
    let sorted := a.rules.toList.mergeSort fun x y => x.rank ≤ y.rank
    .error { position := a.pos, expected := sorted.eraseDups }

end Pgn

namespace PgnParseError

/-- The line and column of a character position: lines are counted by line feeds, a
carriage return and line feed counting once; columns count characters from 1. -/
def lineCol (text : String) (pos : Nat) : Nat × Nat :=
  go (text.toList.take pos) 1 1
where
  /-- Counts lines and columns over the characters before the position. -/
  go : List Char → Nat → Nat → Nat × Nat
    | '\r' :: '\n' :: rest, line, _ => go rest (line + 1) 1
    | '\n' :: rest, line, _ => go rest (line + 1) 1
    | _ :: rest, line, col => go rest line (col + 1)
    | [], line, col => (line, col)

def enumerate : List String → String
  | [] => ""
  | [a] => a
  | [a, b] => a ++ " or " ++ b
  | names => ", ".intercalate names.dropLast ++ ", or " ++ names.getLast!

def message (e : PgnParseError) : String :=
  if e.expected.isEmpty then "unknown parsing error"
  else "expected " ++ enumerate (e.expected.map PgnRule.name)

/-- The line of the text that holds the position, as shown under the error: from the line's
start to its line feed, or to the end of the text when the position is on its last byte.
Line breaks are dropped, or drawn as `␍` and `␊` when the position is on one. -/
def shownLine (text : String) (pos : Nat) : String :=
  let cs := text.toList
  let before := cs.take pos
  let start := before.length - (before.reverse.takeWhile (· ≠ '\n')).length
  let atLastByte : Bool := pos + 1 == cs.length && (cs.getLast?.map (·.utf8Size == 1)).getD false
  let stop :=
    if cs.isEmpty then 0
    else if atLastByte then cs.length
    else
      let after := cs.drop pos
      let upto := after.takeWhile (· ≠ '\n')
      if upto.length < after.length then pos + upto.length + 1 else cs.length
  let line := (cs.drop start).take (stop - start)
  let onBreak : Bool := match cs.drop pos with
    | c :: _ => c == '\n' || c == '\r'
    | [] => false
  if onBreak then
    String.join (line.map fun c => if c = '\r' then "␍" else if c = '\n' then "␊" else String.singleton c)
  else String.ofList (line.filter fun c => c ≠ '\r' ∧ c ≠ '\n')

/-- The error drawn over its line: the position, the line with a caret under the column,
and the message. -/
def render (e : PgnParseError) (text : String) : String :=
  let (line, col) := lineCol text e.position
  let shown := shownLine text e.position
  let pad := String.ofList (List.replicate (toString line).length ' ')
  let underline := String.ofList ((shown.toList.take (col - 1)).map fun c => if c = '\t' then '\t' else ' ')
    ++ "^---"
  pad ++ "--> " ++ toString line ++ ":" ++ toString col ++ "\n"
    ++ pad ++ " |\n"
    ++ toString line ++ " | " ++ shown ++ "\n"
    ++ pad ++ " | " ++ underline ++ "\n"
    ++ pad ++ " |\n"
    ++ pad ++ " = " ++ e.message

end PgnParseError

end Chess
