import Chess.History.Play

namespace Chess

/-! PGN games and their text. A game is its tag pairs in order, its move tree and its
result. Written out, the tags come one per line with `\` and `"` escaped in the values, then
a blank line, then the movetext: move numbers before White's moves and before a Black move
that opens a line or follows a variation, each main-line move followed by the variations of
its siblings in parentheses, and the result, `*` when the game is unfinished. Tokens are
separated by one space, none after `(` or before `)`, and a token that would reach past
column 79 starts a new line. -/

/-- A game read from or written as PGN. -/
structure PgnGame where
  tags : Array (String × String) := #[]
  history : History
  result : Option GameResult := none
  deriving Inhabited

namespace PgnGame

def tag? (g : PgnGame) (name : String) : Option String :=
  (g.tags.find? fun (k, _) => k = name).map (·.2)

/-- Sets a tag: the first of that name changes its value, or a new tag comes last. -/
def setTag (g : PgnGame) (name value : String) : PgnGame :=
  match g.tags.findIdx? fun (k, _) => k = name with
  | some i => { g with tags := g.tags.modify i fun (k, _) => (k, value) }
  | none => { g with tags := g.tags.push (name, value) }

end PgnGame

namespace Pgn

def escape (value : String) : String :=
  String.join (value.toList.map fun c =>
    if c = '\\' then "\\\\" else if c = '"' then "\\\"" else String.singleton c)

/-- Replaces each occurrence of the two characters `a b`, from the left and without overlap,
by `rep`. -/
def replacePair (a b : Char) (rep : List Char) : List Char → List Char
  | [] => []
  | [x] => [x]
  | x :: y :: rest =>
    if x = a ∧ y = b then rep ++ replacePair a b rep rest else x :: replacePair a b rep (y :: rest)

/-- A quoted tag value without its quotes, `\"` read as `"` and then `\\` as `\`. -/
def unescape (quoted : String) : String :=
  let inner := (quoted.toList.drop 1).dropLast
  String.ofList (replacePair '\\' '\\' ['\\'] (replacePair '\\' '"' ['"'] inner))

end Pgn

namespace History

/-- The movetext tokens of the line from a node along first continuations. A move number
comes before each White move, and before a Black move when `numbered` (at the start of a
line or after variations); after a move that is the first of its siblings come the other
siblings' lines in parentheses. At most `fuel` nodes deep. -/
def lineTokens (h : History) : Nat → Option NodeId → Bool → List String
  | 0, _, _ => []
  | _, none, _ => []
  | fuel + 1, some id, numbered =>
    match h.get? id with
    | none => []
    | some m =>
      let parent := h.parent? id
      let (number, side) := h.moveNumber parent
      let label := match side with
        | .white => [toString number ++ "."]
        | .black => if numbered then [toString number ++ "..."] else []
      let siblings := (h.continuations? parent).getD #[]
      let others := if siblings[0]? = some id then siblings.toList.drop 1 else []
      let variations := others.flatMap fun v => "(" :: h.lineTokens fuel (some v) true ++ [")"]
      let next := (h.continuations? (some id)).bind (·[0]?)
      label ++ [m.san] ++ variations ++ h.lineTokens fuel next (!others.isEmpty)

def movetextTokens (h : History) : List String :=
  h.lineTokens (h.nodes.size + 1) h.root[0]? true

end History

namespace Pgn

/-- One token of a layout: the text so far, the length of its last line and whether the last
token was `(`. The token is glued after `(` and before `)`; otherwise a space comes first, or a
new line when the token would not fit in 79 columns. -/
def layoutStep (acc : String × Nat × Bool) (token : String) : String × Nat × Bool :=
  let (out, lineLen, glue) := acc
  let attach := glue || token = ")"
  let (out, lineLen) :=
    if !attach && lineLen > 0 then
      if lineLen + token.utf8ByteSize + 1 > 79 then (out.push '\n', 0)
      else (out.push ' ', lineLen + 1)
    else (out, lineLen)
  (out ++ token, lineLen + token.utf8ByteSize, token = "(")

/-- Lays tokens out on lines of at most 79 columns: a space between tokens, none after `(`
or before `)`, and a new line instead of the space when the token would not fit. -/
def layout (tokens : List String) : String :=
  (tokens.foldl layoutStep ("", 0, false)).1 ++ "\n"

end Pgn

namespace Pgn

def tagLine (tag : String × String) : String := "[" ++ tag.1 ++ " \"" ++ escape tag.2 ++ "\"]\n"

/-- The token that closes a game's movetext: its result, or `*` while it is unfinished. -/
def resultToken : Option GameResult → String
  | some r => r.score
  | none => "*"

end Pgn

namespace PgnGame

def write (g : PgnGame) : String :=
  let tags := String.join (g.tags.toList.map Pgn.tagLine)
  let blank := if g.tags.isEmpty then "" else "\n"
  tags ++ blank ++ Pgn.layout (g.history.movetextTokens ++ [Pgn.resultToken g.result])

end PgnGame

end Chess
