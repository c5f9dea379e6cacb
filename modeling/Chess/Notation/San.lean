import Chess.Journal
import Chess.Notation.Fen

namespace Chess

/-! Reading moves from text. Standard algebraic notation is matched against the pattern

  `(O-O-O | 0-0-0) | (O-O | 0-0) | [NBRQK]? [a-h]? [1-8]? x? [a-h][1-8] (=? [NBRQ])?`

followed by an optional `+` or `#` and any number of `!` and `?`, over the whole text. The
optional parts are tried present before absent, left to right, and the first way that
matches the whole text decides what each part holds. Coordinate notation is four or five
ASCII characters: two squares and an optional promotion letter. -/

/-- What the pattern found in a text: a castle, or the parts of a piece move. -/
inductive SanForm where
  | castle (side : CastleSide)
  | piece (letter : Option Char) (file : Option Char) (rank : Option Char) (capture : Bool)
      (target : Char × Char) (promotion : Option Char)
  deriving DecidableEq, Repr

namespace San

/-- Whether the rest of a text is a check mark at most, then only `!` and `?`. -/
def isSuffix : List Char → Bool
  | c :: rest => if c = '+' ∨ c = '#' then rest.all (fun d => d = '!' ∨ d = '?')
      else (c :: rest).all (fun d => d = '!' ∨ d = '?')
  | [] => true

/-- The ways an optional single character from a class may be read at the front of a text,
present before absent. -/
def optionalChar (ok : Char → Bool) : List Char → List (Option Char × List Char)
  | c :: rest => if ok c then [(some c, rest), (none, c :: rest)] else [(none, c :: rest)]
  | [] => [(none, [])]

/-- The ways the promotion part may be read, with `=` before without, and present before
absent. -/
def promotionPart : List Char → List (Option Char × List Char)
  | '=' :: c :: rest =>
    let withMark := if "NBRQ".toList.contains c then [(some c, rest)] else []
    withMark ++ [(none, '=' :: c :: rest)]
  | c :: rest => if "NBRQ".toList.contains c then [(some c, rest), (none, c :: rest)]
      else [(none, c :: rest)]
  | [] => [(none, [])]

/-- The piece-move reading of a text, the first in priority order that matches it whole. -/
def pieceForm? (cs : List Char) : Option SanForm := Id.run do
  for (letter, r1) in optionalChar (fun c => "NBRQK".toList.contains c) cs do
    for (file, r2) in optionalChar (fun c => 'a' ≤ c ∧ c ≤ 'h') r1 do
      for (rank, r3) in optionalChar (fun c => '1' ≤ c ∧ c ≤ '8') r2 do
        for (x, r4) in optionalChar (· = 'x') r3 do
          match r4 with
          | f :: r :: r5 =>
            if 'a' ≤ f ∧ f ≤ 'h' ∧ '1' ≤ r ∧ r ≤ '8' then
              for (promotion, r6) in promotionPart r5 do
                if isSuffix r6 then
                  return some (.piece letter file rank x.isSome (f, r) promotion)
          | _ => pure ()
  return none

def form? (text : String) : Option SanForm :=
  let cs := text.toList
  let castle (spellings : List String) : Option Unit :=
    if spellings.any fun s => s.toList.isPrefixOf cs ∧ isSuffix (cs.drop s.length) then some ()
    else none
  match castle ["O-O-O", "0-0-0"] with
  | some () => some (.castle .queenside)
  | none =>
    match castle ["O-O", "0-0"] with
    | some () => some (.castle .kingside)
    | none => pieceForm? cs

def unreadable (text : String) : MoveError := .illegalMove ("can't read move '" ++ text ++ "'")

/-- What a piece-move reading asks for: the kind, origin file and rank if given, the
destination and the promotion. -/
def pieceRequest (letter file rank : Option Char) (target : Char × Char)
    (promotion : Option Char) :
    Option (PieceKind × Option File × Option Rank × Square × Option PieceKind) := do
  let kind ← match letter with
    | some c => PieceKind.ofUpper? c
    | none => some .pawn
  let file ← match file with
    | some c => (File.ofChar? c).map some
    | none => some none
  let rank ← match rank with
    | some c => (Rank.ofChar? c).map some
    | none => some none
  let dest ← Square.ofName? (String.ofList [target.1, target.2])
  let promo ← match promotion with
    | some c => (PieceKind.ofUpper? c).map some
    | none => some none
  pure (kind, file, rank, dest, promo)

/-- Reads a move in standard algebraic notation, with the journal of its trial. -/
def parseNoted (b : Board) (raw : String) : Noted (Except MoveError Move) :=
  let text := Text.trimBlank raw
  match form? text with
  | none => pure (.error (unreadable text))
  | some (.castle side) => Move.castleOnNoted b side
  | some (.piece letter file rank _ target promotion) =>
    match pieceRequest letter file rank target promotion with
    | none => pure (.error (unreadable text))
    | some (kind, file, rank, dest, promo) =>
      match b.getOrigin kind file rank dest with
      | .error e => pure (.error e)
      | .ok id =>
        match (b.piece id).square with
        | some origin => Move.newNoted b origin dest promo
        | none => pure (.error (unreadable text))

def parse (b : Board) (text : String) : Except MoveError Move :=
  (parseNoted b text).quiet

end San

namespace Uci

def parseNoted (b : Board) (raw : String) : Noted (Except MoveError Move) :=
  let text := Text.trimBlank raw
  let cs := text.toList
  if text.utf8ByteSize < 4 ∨ text.utf8ByteSize > 5 ∨ !cs.all (·.toNat < 128) then
    pure (.error (San.unreadable text))
  else
    let square (part : List Char) := Square.ofName? (String.ofList part)
    match square (cs.take 2), square ((cs.drop 2).take 2) with
    | some origin, some target =>
      match cs.drop 4 with
      | [] => Move.newNoted b origin target none
      | c :: _ =>
        match PieceKind.ofUpper? c.toUpper with
        | some k => Move.newNoted b origin target (some k)
        | none => pure (.error (San.unreadable text))
    | _, _ => pure (.error (San.unreadable text))

def parse (b : Board) (text : String) : Except MoveError Move :=
  (parseNoted b text).quiet

end Uci

namespace Board

def ofFenNoted (text : String) : Noted (Except FenError Board) := do
  match Fen.parse text with
  | .error e => pure (.error e)
  | .ok st =>
    match ← ofSetupNoted st with
    | .ok b => pure (.ok b)
    | .error e => pure (.error (.invalidPosition e))

end Board

end Chess
