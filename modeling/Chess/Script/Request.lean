import Chess.Json.View
import Chess.Json.Number

namespace Chess

/-! Reading the fields of a scripted request. A request is a JSON object; each reader takes
one field and either gives its value in the library's types or the reason the request cannot
be carried out. Squares are names such as `e4`, colours `w` and `b` or `white` and `black`,
piece kinds letters, castle sides `K` and `Q` or `kingside` and `queenside`, counts unsigned
32-bit integers. An optional field holding a value of another type counts as absent. -/

namespace Script

abbrev Field := Except String

def text (req : Json) (key : String) : Field String :=
  match req.field? key with
  | some (.str s) => pure s
  | _ => throw ("missing string field '" ++ key ++ "'")

/-- An optional string field: its text when it holds a string; any other value counts as
absent. -/
def text? (req : Json) (key : String) : Option String :=
  match req.field? key with
  | some (.str s) => some s
  | _ => none

def present (req : Json) (key : String) : Bool := (req.field? key).isSome

def count (req : Json) (key : String) : Field UInt32 :=
  match req.field? key with
  | some (.int n) =>
    if 0 ≤ n ∧ n < 4294967296 then pure n.toNat.toUInt32
    else throw ("missing u32 field '" ++ key ++ "'")
  | _ => throw ("missing u32 field '" ++ key ++ "'")

def index (req : Json) (key : String) : Field Nat := do
  pure (← count req key).toNat

def flag (req : Json) (key : String) (default : Bool) : Bool :=
  match req.field? key with
  | some (.bool b) => b
  | _ => default

def squareOf (s : String) : Field Square :=
  match Square.ofName? s with
  | some sq => pure sq
  | none => throw ("bad square '" ++ s ++ "'")

def square (req : Json) (key : String) : Field Square := do
  squareOf (← text req key)

/-- A control character as a `\u{...}` escape with lowercase hexadecimal digits. -/
def unicodeEscape (c : Char) : String :=
  let digits := Nat.toDigits 16 c.toNat
  "\\u" ++ "\x7b" ++ String.ofList digits ++ "\x7d"

/-- A character escaped for a quoted listing: tab, carriage return, newline, backslash and
the quote in use by their short escapes, the null character as `\0`, other control
characters by their code. -/
def escapeListed (quote : Char) (c : Char) : String :=
  if c = '\t' then "\\t"
  else if c = '\r' then "\\r"
  else if c = '\n' then "\\n"
  else if c = '\\' then "\\\\"
  else if c = quote then "\\" ++ String.singleton c
  else if c.toNat = 0 then "\\0"
  else if c.toNat < 0x20 ∨ (0x7f ≤ c.toNat ∧ c.toNat < 0xa0) then unicodeEscape c
  else String.singleton c

def listedText (s : String) : String :=
  "\"" ++ String.join (s.toList.map (escapeListed '"')) ++ "\""

def listedChar (c : Char) : String :=
  "'" ++ escapeListed '\'' c ++ "'"

/-- Reads a one-character field with a reader of characters; the refusal shows the
character, or the whole text when it is not one character. -/
def oneChar {α : Type} (what : String) (read : Char → Option α) (s : String) : Field α :=
  match s.toList with
  | [c] =>
    match read c with
    | some a => pure a
    | none => throw ("bad " ++ what ++ " " ++ listedChar c)
  | _ => throw ("bad " ++ what ++ " " ++ listedText s)

def colorOf (s : String) : Field Color :=
  match s with
  | "w" | "white" => pure .white
  | "b" | "black" => pure .black
  | _ => throw ("bad color '" ++ s ++ "'")

def color (req : Json) (key : String) : Field Color := do
  colorOf (← text req key)

def kindOf (s : String) : Field PieceKind :=
  oneChar "piece kind" (fun c => PieceKind.ofUpper? c.toUpper) s

def kind (req : Json) (key : String) : Field PieceKind := do
  kindOf (← text req key)

/-- The promotion piece a request names: none when `promo` is absent or `null`; otherwise the
field must hold a piece letter. -/
def promotion (req : Json) : Field (Option PieceKind) := do
  match req.field? "promo" with
  | none | some .null => pure none
  | some _ => some <$> kindOf (← text req "promo")

def sideOf (s : String) : Field CastleSide :=
  match s with
  | "K" | "kingside" => pure .kingside
  | "Q" | "queenside" => pure .queenside
  | _ => throw ("bad castle side '" ++ s ++ "'")

def fileOf (s : String) : Field File := oneChar "file" File.ofChar? s

def rankOf (s : String) : Field Rank := oneChar "rank" Rank.ofChar? s

/-- An optional one-character field: none when absent or `null`, read from a string, and
refused for any other value, which the refusal shows as the request holds it. -/
def charField {α : Type} (what : String) (read : String → Field α) (req : Json) (key : String) :
    Field (Option α) :=
  match req.field? key with
  | none | some .null => pure none
  | some (.str s) => some <$> read s
  | some v => throw ("bad " ++ what ++ " " ++ (Json.asRead 128 v).compact)

def items (req : Json) (key : String) : Field (List Json) :=
  match req.field? key with
  | some (.arr xs) => pure xs
  | _ => throw ("missing array field '" ++ key ++ "'")

/-- Where a request's board comes from: the empty board, a FEN, or the standard start. -/
inductive BoardSource where
  | empty
  | fen (text : String)
  | standard
  deriving DecidableEq, Repr

/-- The board source a request names: `"empty": true`, else a `"fen"` string, else the
standard start when `fen` is absent or null. -/
def boardSource (req : Json) : Field BoardSource :=
  if flag req "empty" false then pure .empty
  else
    match req.field? "fen" with
    | some (.str s) => pure (.fen s)
    | some .null | none => pure .standard
    | some _ => throw "fen must be a string"

def BoardSource.build : BoardSource → Noted (Except FenError Board)
  | .empty => pure (.ok Board.empty)
  | .fen s => Board.ofFenNoted s
  | .standard => do pure (.ok (← Board.standardNoted))

/-- How a request describes a move: in coordinate or algebraic notation, as a castle, or by
its squares, checked by a trial run or only prepared. -/
inductive MoveSpec where
  | uci (text : String)
  | san (text : String)
  | castle (side : CastleSide)
  | squares (origin target : Square) (promotion : Option PieceKind) (prepared : Bool)
  deriving DecidableEq, Repr

/-- The move description of a request: a `uci` string, else a `san` string, else a castle
when the field `castle` is present at all, else `from`, `to`, a `promo` unless absent or
`null`, and
`"how": "prepare"` for a move that is only prepared. -/
def moveSpec (req : Json) : Field MoveSpec := do
  if let some s := text? req "uci" then return .uci s
  if let some s := text? req "san" then return .san s
  if present req "castle" then return .castle (← sideOf (← text req "castle"))
  let origin ← square req "from"
  let target ← square req "to"
  pure (.squares origin target (← promotion req) (text? req "how" = some "prepare"))

/-- Builds the move a description names on a board, journaling any trial run. -/
def MoveSpec.build (spec : MoveSpec) (b : Board) : Noted (Except MoveError Move) :=
  match spec with
  | .uci s => Uci.parseNoted b s
  | .san s => San.parseNoted b s
  | .castle side => Move.castleOnNoted b side
  | .squares origin target promotion prepared =>
    if prepared then pure (Move.prepare b origin target promotion)
    else Move.newNoted b origin target promotion

def recordLines (entries : Array Entry) : Json :=
  .arr (entries.toList.filterMap fun
    | .record level text => some (.str (level.name ++ " " ++ text))
    | .event _ => none)

def eventNames (entries : Array Entry) : Json :=
  .arr (entries.toList.filterMap fun
    | .event e => some (.str e.name)
    | .record _ _ => none)

end Script

end Chess
