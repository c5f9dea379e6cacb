import Chess.SquareSet

namespace Chess

/-! Pieces and their ids. A board keeps every piece it ever made in an arena, and a piece's
id is its place there, so ids are stable for the board's life. Besides kind, colour and
square, a piece carries the sets of squares it was last found to reach. -/

/-- A piece's place in its board's arena. -/
structure PieceId where
  index : Nat
  deriving DecidableEq, Repr, Inhabited

def PieceId.label (id : PieceId) : String := "#" ++ toString id.index

/-- A piece with its place on the board and the squares it reaches.

`targets` are the squares it may move to now (for the side not to move: the squares it
would reach, attacks included); `quiet` are the targets it reaches without capturing (pawn
pushes); `guards` are squares of its own side it defends; `castleTargets` are the king's
squares reached by castling. `moveCount` counts the piece's moves in 32 bits, wrapping
around: taking back a move of a piece promoted with count one brings it to zero, and one more
to the top of the range. -/
structure Piece where
  kind : PieceKind
  color : Color
  captured : Bool := false
  moveCount : UInt32 := 0
  square : Option Square := none
  targets : SquareSet := SquareSet.empty
  guards : SquareSet := SquareSet.empty
  quiet : SquareSet := SquareSet.empty
  castleTargets : SquareSet := SquareSet.empty
  deriving Repr, Inhabited

namespace Piece

def destinations (p : Piece) : SquareSet := p.targets ∪ p.castleTargets

/-- The targets the piece captures on or threatens: pushes and castling left out. -/
def attacks (p : Piece) : SquareSet := p.targets \ p.quiet

def letter (p : Piece) : Char := pieceLetter p.kind p.color

def onBoard (p : Piece) : Bool := p.square.isSome

/-- The piece as letter and square (`Ke1`), letter and `x` when captured, or letter and `-`
when off the board otherwise. -/
def label (p : Piece) : String :=
  match p.square with
  | some s => String.singleton p.letter ++ s.name
  | none => String.singleton p.letter ++ (if p.captured then "x" else "-")

end Piece

end Chess
