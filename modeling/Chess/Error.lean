import Chess.Piece

namespace Chess

/-! Why a move or a change of position is refused. -/

/-- A refused move or position change. `illegalMove` and `illegalState` carry the reason in
words; `ambiguous` lists the pieces that fit, in roster order. -/
inductive MoveError where
  | illegalMove (reason : String)
  | outOfTurn (color : Color)
  | ambiguous (candidates : List PieceId)
  | unverified
  | illegalState (reason : String)
  deriving DecidableEq, Repr, Inhabited

namespace MoveError

def message : MoveError → String
  | illegalMove reason => "illegal move: " ++ reason
  | outOfTurn color => color.name ++ " moved out of turn"
  | ambiguous candidates => "ambiguous move: " ++ toString candidates.length ++ " pieces fit"
  | unverified => "move has not been verified by execution"
  | illegalState reason => "illegal state: " ++ reason

def kindName : MoveError → String
  | illegalMove _ => "IllegalMove"
  | outOfTurn _ => "OutOfTurn"
  | ambiguous _ => "Ambiguous"
  | unverified => "Unverified"
  | illegalState _ => "IllegalState"

end MoveError

end Chess
