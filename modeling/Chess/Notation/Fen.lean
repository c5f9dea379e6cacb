import Chess.Board.Query
import Chess.Text.Blank

namespace Chess

/-! Forsyth–Edwards Notation. Reading takes the text with surrounding blanks removed and goes
field by field: placement (rank 8 first), side, castling (standard `KQkq` letters or file
letters naming the rook), en-passant square, half-move clock and full-move number, each
field after a single space. Everything after the full-move number's digits is ignored.
Writing gives the standard form, castling as `KQkq` letters. -/

/-- Why a FEN text is refused. -/
inductive FenError where
  | unexpectedChar (c : Char)
  | unexpectedEnd
  | invalidDigit
  | fileDoesNotSumToEight
  | unknownPiece
  | invalidSideToMove
  | invalidCastle
  | invalidEnPassant
  | emptyHalfmove
  | invalidHalfmove
  | emptyFullmove
  | invalidFullmove
  | invalidPosition (cause : MoveError)
  deriving DecidableEq, Repr, Inhabited

namespace FenError

def message : FenError → String
  | unexpectedChar c => "unexpected character '" ++ String.singleton c ++ "'"
  | unexpectedEnd => "unexpected end of input"
  | invalidDigit => "invalid digit in piece placement"
  | fileDoesNotSumToEight => "rank does not sum to eight files"
  | unknownPiece => "unknown piece"
  | invalidSideToMove => "invalid side to move"
  | invalidCastle => "invalid castling field"
  | invalidEnPassant => "invalid en-passant square"
  | emptyHalfmove => "empty halfmove clock"
  | invalidHalfmove => "invalid halfmove clock"
  | emptyFullmove => "empty fullmove number"
  | invalidFullmove => "invalid fullmove number"
  | invalidPosition cause => "invalid position: " ++ cause.message

def kindName : FenError → String
  | unexpectedChar _ => "UnexpectedChar"
  | unexpectedEnd => "UnexpectedEnd"
  | invalidDigit => "InvalidDigit"
  | fileDoesNotSumToEight => "FileDoesNotSumToEight"
  | unknownPiece => "UnknownPiece"
  | invalidSideToMove => "InvalidSideToMove"
  | invalidCastle => "InvalidCastle"
  | invalidEnPassant => "InvalidEnPassant"
  | emptyHalfmove => "EmptyHalfmove"
  | invalidHalfmove => "InvalidHalfmove"
  | emptyFullmove => "EmptyFullmove"
  | invalidFullmove => "InvalidFullmove"
  | invalidPosition _ => "InvalidPosition"

end FenError

namespace Fen

abbrev Reader := StateT (List Char) (Except FenError)

def peek : Reader Char := do
  match (← get) with
  | c :: _ => pure c
  | [] => throw .unexpectedEnd

def advance : Reader Unit := modify List.tail

def expect (c : Char) : Reader Unit := do
  match (← get) with
  | d :: rest => if d = c then set rest else throw (.unexpectedChar d)
  | [] => throw .unexpectedEnd

def clockValue? (digits : List Char) : Option UInt32 :=
  let n := digits.foldl (fun n d => n * 10 + (d.toNat - '0'.toNat)) 0
  if n < 4294967296 then some n.toUInt32 else none

/-- Reads one rank of the placement from file `file` on, setting letters into `st`. Each
step consumes a character, which bounds the recursion by the input. -/
def readRank (rank : Fin 8) : Nat → List Char → Setup → Except FenError (List Char × Setup)
  | file, cs, st =>
    if file > 7 then .ok (cs, st)
    else
      match cs with
      | [] => .error .unexpectedEnd
      | c :: rest =>
        if c.isDigit then
          if c < '1' ∨ c > '8' then .error .invalidDigit
          else
            let file := file + (c.toNat - '0'.toNat)
            if file > 8 then .error .fileDoesNotSumToEight
            else readRank rank file rest st
        else if (pieceOfLetter? c).isNone then .error .unknownPiece
        else
          let f : Fin 8 := ⟨file % 8, Nat.mod_lt _ (by decide)⟩
          let st := { st with placement := st.placement.set f ((st.placement.get f).set rank c) }
          readRank rank (file + 1) rest st
termination_by _ cs => cs.length

def readPlacement : Reader Setup := do
  let mut st : Setup := {}
  for r in [7, 6, 5, 4, 3, 2, 1, 0] do
    let rank : Fin 8 := ⟨r % 8, Nat.mod_lt _ (by decide)⟩
    match readRank rank 0 (← get) st with
    | .ok (rest, next) =>
      set rest
      st := next
    | .error e => throw e
    if r ≠ 0 then expect '/'
  pure st

/-- The wing of a rook on `file` for a colour: the side of the first king of that colour on
its back rank in the placement. -/
def castleSideForFile (st : Setup) (c : Color) (file : File) : Except FenError CastleSide := do
  let back := (Rank.back c).index
  let king := pieceLetter .king c
  let some kf := (List.finRange 8).find? fun f => st.letterAt f back = king
    | throw .invalidCastle
  if file.index > kf then pure .kingside
  else if file.index < kf then pure .queenside
  else throw .invalidCastle

/-- Reads the castling field: `-`, or up to four letters, stopping at a space. -/
def readCastling (st : Setup) : Reader CastleRights := do
  if (← peek) = '-' then
    advance
    return {}
  let mut rights : CastleRights := {}
  for _ in [0, 1, 2, 3] do
    let c ← peek
    if c = ' ' then break
    let (color, side) ←
      match c with
      | 'K' => pure (Color.white, CastleSide.kingside)
      | 'k' => pure (.black, .kingside)
      | 'Q' => pure (.white, .queenside)
      | 'q' => pure (.black, .queenside)
      | _ =>
        let color := if c.isUpper then Color.white else Color.black
        let some file := File.ofChar? c.toLower | throw .invalidCastle
        match castleSideForFile st color file with
        | .ok side => pure (color, side)
        | .error e => throw e
    rights := rights.set color side true
    advance
  pure rights

/-- Reads the en-passant field: `-`, or a file and the rank the side to move would capture
onto. -/
def readEnPassant (side : Color) : Reader (Option File) := do
  let c ← peek
  if c = '-' then
    advance
    return none
  let some file := File.ofChar? c | throw .invalidEnPassant
  advance
  let some rank := Rank.ofChar? (← peek) | throw .invalidEnPassant
  advance
  if rank ≠ Rank.enPassantTarget side then throw .invalidEnPassant
  pure (some file)

/-- Reads the half-move clock: digits up to the next character, which must exist. -/
def readHalfmove : Reader UInt32 := do
  let mut digits : Array Char := #[]
  for _ in List.range ((← get).length + 1) do
    let c ← peek
    if !c.isDigit then break
    digits := digits.push c
    advance
  if digits.isEmpty then throw .emptyHalfmove
  match clockValue? digits.toList with
  | some n => pure n
  | none => throw .invalidHalfmove

/-- Reads the full-move number: the digits up to the first other character or the end. -/
def readFullmove : Reader UInt32 := do
  let cs ← get
  let digits := cs.takeWhile Char.isDigit
  set (cs.drop (digits.length + 1))
  if digits.isEmpty then throw .emptyFullmove
  match clockValue? digits with
  | some n => pure n
  | none => throw .invalidFullmove

def parse (text : String) : Except FenError Setup := do
  let read : Reader Setup := do
    let st ← readPlacement
    expect ' '
    let c ← peek
    let side ← match c with
      | 'w' => pure Color.white
      | 'b' => pure Color.black
      | _ => throw .invalidSideToMove
    advance
    expect ' '
    let castling ← readCastling st
    expect ' '
    let enPassant ← readEnPassant side
    expect ' '
    let halfmove ← readHalfmove
    expect ' '
    let fullmove ← readFullmove
    pure { st with side, castling, enPassant, halfmove, fullmove }
  let (st, _) ← read.run (Text.trimBlank text).toList
  pure st

def standard : String := "rnbqkbnr/pppppppp/8/8/8/8/PPPPPPPP/RNBQKBNR w KQkq - 0 1"

end Fen

namespace Board

def ofFen (text : String) : Except FenError Board := do
  let st ← Fen.parse text
  match ofSetup st with
  | .ok b => pure b
  | .error e => throw (.invalidPosition e)

/-- One rank of the placement in FEN: letters, and digits for runs of empty squares. -/
def fenRank (b : Board) (r : Fin 8) : String :=
  let (out, run) := (List.finRange 8).foldl (fun (out, run) f =>
    match b.pieceAt? (Square.make ⟨f⟩ ⟨r⟩) with
    | some p =>
      ((if run ≠ 0 then out ++ toString run else out).push p.letter, 0)
    | none => (out, run + 1)) ("", 0)
  if run ≠ 0 then out ++ toString run else out

/-- The position in FEN: placement, side, castling rights as `KQkq` letters, the en-passant
square on rank 6 when White moves and rank 3 when Black moves, and the clocks. -/
def fen (b : Board) : String :=
  let placement := "/".intercalate ((List.finRange 8).reverse.map b.fenRank)
  let ep := match b.enPassant with
    | some f => (Square.make f (Rank.enPassantTarget b.side)).name
    | none => "-"
  placement ++ " " ++ String.singleton b.side.letter ++ " " ++ b.castleRights.letters ++ " "
    ++ ep ++ " " ++ toString b.halfmove ++ " " ++ toString b.fullmove

end Board

end Chess
