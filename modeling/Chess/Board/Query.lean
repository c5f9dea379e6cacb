import Chess.Board.Setup

namespace Chess

/-! Questions about a position: which piece can reach a square, how to tell rival pieces
apart in move text, lines of sight, equality of positions, and the board drawn as text. -/

namespace Board

/-- Whether the square is among the piece's destinations, castling included. -/
def isLegalDestination (b : Board) (id : PieceId) (s : Square) : Bool :=
  (b.piece id).destinations.contains s

def isLegalAttack (b : Board) (id : PieceId) (s : Square) : Bool :=
  (b.piece id).attacks.contains s

/-- The line from a sliding piece toward a square, if the square lies in one of its
directions. -/
def lineOfSight (b : Board) (id : PieceId) (target : Square) (inclusive : Bool) :
    Option (List Square) :=
  let p := b.piece id
  if !p.kind.slides then none
  else p.square.bind fun s => s.lineTo? target p.kind.directions inclusive

/-- Whether the origin file and the origin rank each tell a piece apart from its rivals for a
destination: the other uncaptured pieces of its kind and colour on the board that reach the
destination. A rival on the same file clears the file, one on the same rank clears the rank;
a rival on neither clears the rank. -/
def disambiguation (b : Board) (id : PieceId) (target : Square) : Bool × Bool :=
  let p := b.piece id
  match p.square with
  | none => (true, true)
  | some origin =>
    (b.roster p.color).foldl (fun (fileUnique, rankUnique) other =>
      let rival := b.piece other
      if other = id ∨ rival.kind ≠ p.kind ∨ rival.captured then (fileUnique, rankUnique)
      else
        match rival.square with
        | some rs =>
          if rival.targets.contains target then
            let fileUnique := fileUnique && rs.file ≠ origin.file
            let rankUnique := rankUnique && rs.rank ≠ origin.rank
            if fileUnique && rankUnique then (fileUnique, false) else (fileUnique, rankUnique)
          else (fileUnique, rankUnique)
        | none => (fileUnique, rankUnique)) (true, true)

/-- The piece of the side to move, of a kind and optionally on a file and rank, that can
reach a square; refused when none or several fit. -/
def getOrigin (b : Board) (kind : PieceKind) (file : Option File) (rank : Option Rank)
    (target : Square) : Except MoveError PieceId :=
  let candidates := (b.roster b.side).toList.filter fun id =>
    let p := b.piece id
    match p.square with
    | some s =>
      p.kind = kind && p.destinations.contains target
        && (file.all fun f => s.file = f) && (rank.all fun r => s.rank = r)
    | none => false
  match candidates with
  | [] => .error (.illegalMove ("no " ++ kind.name ++ " of " ++ b.side.name ++ " can reach "
      ++ target.name))
  | [id] => .ok id
  | many => .error (.ambiguous many)

/-- Two positions are the same when side to move, en-passant file, placement and castling
rights agree. -/
def samePosition (b c : Board) : Bool :=
  b.side = c.side && b.enPassant = c.enPassant && b.placement = c.placement
    && b.castleRights = c.castleRights

/-- Whether the position is the standard start with White to move, all rights and no
en-passant file. -/
def isStandardStart (b : Board) : Bool :=
  b.placement = Setup.standard.placement && b.side = .white
    && b.castleRights = CastleRights.full && b.enPassant.isNone

/-- The board drawn as text, rank 8 at the top: each square as its piece letter or `.`
between spaces, each rank closed by `| rank`, then a rule and the file letters. -/
def diagram (b : Board) : String :=
  let row (r : Fin 8) : String :=
    let cells := (List.finRange 8).map fun f =>
      match b.pieceAt? (Square.make ⟨f⟩ ⟨r⟩) with
      | some p => " " ++ String.singleton p.letter ++ " "
      | none => " . "
    String.join cells ++ "| " ++ String.singleton (Rank.digit ⟨r⟩) ++ "\n"
  String.join ((List.finRange 8).reverse.map row) ++ "------------------------\n"
    ++ " a  b  c  d  e  f  g  h \n"

/-- A full account of the board: the diagram, side to move, castling flags, en-passant
file, clocks, last move, check and counts, and each roster with move counts. -/
def dump (b : Board) : String :=
  let ep := match b.enPassant with
    | some f => "Some(" ++ String.singleton f.letter.toUpper ++ ")"
    | none => "None"
  let last := match b.lastMove? with
    | some (o, d) => "Some((" ++ o.label ++ ", " ++ d.label ++ "))"
    | none => "None"
  let rosterLine (c : Color) : String :=
    c.name ++ ":" ++ String.join ((b.roster c).toList.map fun id =>
      let p := b.piece id
      " " ++ p.label ++ "(" ++ toString p.moveCount ++ ")") ++ "\n"
  b.diagram
    ++ "side to move: " ++ b.side.name ++ "\n"
    ++ "castling: " ++ b.castleRights.flagNames ++ "\n"
    ++ "en passant: " ++ ep ++ "\n"
    ++ "halfmove: " ++ toString b.halfmove ++ " fullmove: " ++ toString b.fullmove ++ "\n"
    ++ "last move: " ++ last ++ "\n"
    ++ "check: " ++ toString b.isCheck ++ " mate: " ++ toString b.isCheckmate
    ++ " stalemate: " ++ toString b.isStalemate
    ++ " legal moves: " ++ toString b.legalMoveCount ++ "\n"
    ++ rosterLine .white ++ rosterLine .black

end Board

end Chess
