import Chess.Geometry
import Chess.Error

namespace Chess

/-! The board: a grid of piece ids over an arena of pieces, a roster per colour in setup
order, the king of each colour, the side to move, the en-passant file, the clocks and the
moves played, with a cached status of the side to move. This module holds the data and the
primitive edits; the rules that fill the status come later. -/

/-- A castle the side to move may make: which king and rook, from where and to where. -/
structure CastlePlan where
  side : CastleSide
  king : PieceId
  kingFrom : Square
  kingTo : Square
  rook : PieceId
  rookFrom : Square
  rookTo : Square
  deriving DecidableEq, Repr, Inhabited

/-- What regeneration found for the side to move: whether its king stands on the board, the
squares of the pieces giving check, the number of legal moves and the castles open now. -/
structure Status where
  hasKing : Bool := false
  checkers : SquareSet := SquareSet.empty
  legalCount : Nat := 0
  kingside : Option CastlePlan := none
  queenside : Option CastlePlan := none
  deriving Repr, Inhabited

def Status.castle (st : Status) : CastleSide → Option CastlePlan
  | .kingside => st.kingside
  | .queenside => st.queenside

/-- A position with its pieces and its history of squares played.

`lineage` tells boards apart: copies share it, and a move remembers the lineage of the board
it was made for. -/
structure Board where
  lineage : Nat := 0
  grid : Vector (Option PieceId) 64 := Vector.replicate 64 none
  pieces : Array Piece := #[]
  whiteRoster : Array PieceId := #[]
  blackRoster : Array PieceId := #[]
  whiteKing : Option PieceId := none
  blackKing : Option PieceId := none
  side : Color := .white
  enPassant : Option File := none
  halfmove : UInt32 := 0
  fullmove : UInt32 := 1
  played : Array (Square × Square) := #[]
  started : Bool := false
  status : Status := {}
  deriving Inhabited

namespace Board

def piece? (b : Board) (id : PieceId) : Option Piece := b.pieces[id.index]?

/-- The piece with an id; ids handed out by the board are always in its arena. -/
def piece (b : Board) (id : PieceId) : Piece := (b.piece? id).getD default

def occupant (b : Board) (s : Square) : Option PieceId := b.grid.get s.index

def pieceAt? (b : Board) (s : Square) : Option Piece := (b.occupant s).map b.piece

/-- A colour's roster: its pieces in setup order, promoted pieces in their pawn's place. -/
def roster (b : Board) : Color → Array PieceId
  | .white => b.whiteRoster
  | .black => b.blackRoster

def king (b : Board) : Color → Option PieceId
  | .white => b.whiteKing
  | .black => b.blackKing

def kingSquare (b : Board) (c : Color) : Option Square :=
  (b.king c).bind fun k => (b.piece k).square

def occupancy (b : Board) : SquareSet :=
  SquareSet.ofList (Square.all.filter fun s => (b.occupant s).isSome)

def lastMove? (b : Board) : Option (Square × Square) := b.played.back?

def plyCount (b : Board) : Nat := b.played.size

/-- The FEN letter on each square, a space where it is empty, indexed by file then rank. -/
def placement (b : Board) : Vector (Vector Char 8) 8 :=
  Vector.ofFn fun f => Vector.ofFn fun r =>
    match b.pieceAt? (Square.make ⟨f⟩ ⟨r⟩) with
    | some p => p.letter
    | none => ' '

def capturedPieces (b : Board) (c : Color) : List PieceId :=
  (b.roster c).toList.filter fun id => (b.piece id).captured

def uncapturedPieces (b : Board) (c : Color) : List PieceId :=
  (b.roster c).toList.filter fun id => !(b.piece id).captured

def material (b : Board) (c : Color) : Nat :=
  (b.uncapturedPieces c).foldl (fun n id => n + (b.piece id).kind.value) 0

/-- The fifty-move rule: a hundred half-moves without a capture or pawn move. -/
def isFiftyMoveDraw (b : Board) : Bool := b.halfmove > 99

def modifyPiece (b : Board) (id : PieceId) (f : Piece → Piece) : Board :=
  { b with pieces := b.pieces.modify id.index f }

def setCell (b : Board) (s : Square) (v : Option PieceId) : Board :=
  { b with grid := b.grid.set s.index v }

def modifyRoster (b : Board) (c : Color) (f : Array PieceId → Array PieceId) : Board :=
  match c with
  | .white => { b with whiteRoster := f b.whiteRoster }
  | .black => { b with blackRoster := f b.blackRoster }

def setKing (b : Board) (c : Color) (k : Option PieceId) : Board :=
  match c with
  | .white => { b with whiteKing := k }
  | .black => { b with blackKing := k }

def createPiece (b : Board) (kind : PieceKind) (color : Color) : Board × PieceId :=
  ({ b with pieces := b.pieces.push { kind, color } }, ⟨b.pieces.size⟩)

/-- Takes a piece off its square; the square is cleared only if it held that piece. -/
def lift (b : Board) (id : PieceId) : Board :=
  match (b.piece id).square with
  | some s =>
    let b := b.modifyPiece id fun p => { p with square := none }
    if b.occupant s = some id then b.setCell s none else b
  | none => b

def put (b : Board) (id : PieceId) (s : Square) : Board :=
  (b.setCell s (some id)).modifyPiece id fun p => { p with square := some s }

def capture (b : Board) (id : PieceId) : Board :=
  (b.lift id).modifyPiece id fun p => { p with captured := true }

def uncapture (b : Board) (id : PieceId) (s : Square) : Board :=
  (b.modifyPiece id fun p => { p with captured := false }).put id s

/-- Puts `new` in the roster slots that held `old`, in the roster of `old`'s colour. -/
def replaceInRoster (b : Board) (old new : PieceId) : Board :=
  b.modifyRoster (b.piece old).color fun r => r.map fun x => if x = old then new else x

/-- Creates a piece, appends it to its roster, records it as king if it is one, and stands
it on a square. -/
def spawn (b : Board) (kind : PieceKind) (color : Color) (s : Square) : Board × PieceId :=
  let (b, id) := b.createPiece kind color
  let b := b.modifyRoster color (·.push id)
  let b := if kind = .king then b.setKing color (some id) else b
  (b.put id s, id)

end Board

end Chess
