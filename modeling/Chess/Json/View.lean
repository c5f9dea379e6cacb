import Chess.Json.Value
import Chess.Notation.San

namespace Chess

/-! JSON views of the library's values. Squares are their names, colours `w` and `b`, piece
kinds their lowercase letters, castle sides `K` and `Q`, results their scores; square sets
are arrays in ascending square order. A board has a compact view (its FEN, status and legal
moves) and a full view that adds the clocks, rights, rosters and every piece's sets. Errors
are objects naming their kind beside their message. -/

namespace Json

def members (ms : List (String × Json)) : Json := obj ms

def strs (xs : List String) : Json := arr (xs.map str)

def char (c : Char) : Json := str (String.singleton c)

def extend (j : Json) (more : List (String × Json)) : Json :=
  match j with
  | obj ms => obj (ms ++ more)
  | other => other

end Json

def Square.toJson (s : Square) : Json := .str s.name

def Square.listJson (squares : List Square) : Json := .arr (squares.map Square.toJson)

def SquareSet.toJson (t : SquareSet) : Json := Square.listJson t.toList

def Color.toJson (c : Color) : Json := .char c.letter

def PieceKind.toJson (k : PieceKind) : Json := .str k.name

def CastleSide.toJson (s : CastleSide) : Json := .char s.letter

def PieceId.toJson (id : PieceId) : Json := .nat id.index

def GameResult.scoreJson (r : Option GameResult) : Json := Json.ofOption (fun r => .str r.score) r

/-- A move error: its kind and message, and for an ambiguous move the ids of the pieces
that fit. -/
def MoveError.toJson (e : MoveError) : Json :=
  let base := [("error", Json.str e.kindName), ("message", Json.str e.message)]
  match e with
  | .ambiguous candidates => .obj (base ++ [("candidate_ids", .arr (candidates.map PieceId.toJson))])
  | _ => .obj base

/-- A FEN error: its kind and message, and for a refused position the move error behind it. -/
def FenError.toJson (e : FenError) : Json :=
  let base := [("error", Json.str e.kindName), ("message", Json.str e.message)]
  match e with
  | .invalidPosition cause => .obj (base ++ [("source", cause.toJson)])
  | _ => .obj base

def refusalJson (reason : String) : Json :=
  .obj [("error", .str "BadInput"), ("message", .str reason)]

namespace Move

def outcomeJson (m : Move) : Json :=
  match m.outcome with
  | none => .null
  | some o =>
    let result := match m.result? with
      | .ok r => GameResult.scoreJson r
      | .error _ => .null
    .obj [("check", .bool o.check), ("double_check", .bool o.doubleCheck),
      ("checkmate", .bool o.checkmate), ("stalemate", .bool o.stalemate), ("result", result)]

def toJson (m : Move) : Json :=
  .obj [("uci", .str m.uci), ("san", .str m.san), ("from", m.origin.toJson),
    ("to", m.target.toJson), ("kind", m.kind.toJson), ("color", m.color.toJson),
    ("promotion", Json.ofOption PieceKind.toJson m.promotion),
    ("castle", Json.ofOption CastleSide.toJson m.castle),
    ("capture", .bool m.isCapture), ("en_passant", .bool m.isEnPassant),
    ("executed", .bool m.executed), ("verified", .bool m.verified),
    ("outcome", m.outcomeJson)]

end Move

namespace Board

/-- The compact view: FEN, check and end flags, the legal moves and the last move. -/
def compactJson (b : Board) : Json :=
  .obj [("fen", .str b.fen), ("check", .bool b.isCheck), ("double_check", .bool b.isDoubleCheck),
    ("checkmate", .bool b.isCheckmate), ("stalemate", .bool b.isStalemate),
    ("count", .nat b.legalMoveCount), ("moves", .strs (b.legalMoves.map Move.uci)),
    ("last", Json.ofOption (fun (o, t) => .str (o.name ++ t.name)) b.lastMove?),
    ("plies", .nat b.plyCount), ("started", .bool b.started)]

/-- A roster entry: the piece's id, letter, square, capture flag, move count and sets. -/
def pieceJson (b : Board) (id : PieceId) : Json :=
  let p := b.piece id
  .obj [("id", id.toJson), ("piece", .char p.letter),
    ("sq", Json.ofOption Square.toJson p.square), ("captured", .bool p.captured),
    ("moved", .nat p.moveCount.toNat), ("dest", p.destinations.toJson), ("guards", p.guards.toJson),
    ("attacks", p.attacks.toJson)]

/-- The full view: the compact view with every legal move described, the clocks, rights,
kings, checkers, material and both rosters, and the diagram. -/
def fullJson (b : Board) : Json :=
  let detail := b.legalMoves.map fun m =>
    Json.arr [.str m.uci, .str m.san, .bool m.isCapture, .bool m.isEnPassant,
      Json.ofOption CastleSide.toJson m.castle]
  let rights := b.castleRights
  b.compactJson.extend
    [("detail", .arr detail), ("side", b.side.toJson),
     ("castling", .str rights.letters),
     ("ep", Json.ofOption (fun f => Json.char f.letter) b.enPassant),
     ("halfmove", .nat b.halfmove.toNat), ("fullmove", .nat b.fullmove.toNat),
     ("material", .arr [.nat (b.material .white), .nat (b.material .black)]),
     ("checkers", Square.listJson (b.checkers.filterMap fun id => (b.piece id).square)),
     ("castles", .arr (b.castleDestinations.map fun (side, s) => .arr [side.toJson, s.toJson])),
     ("fifty", .bool b.isFiftyMoveDraw), ("standard", .bool b.isStandardStart),
     ("kings", .arr [Json.ofOption Square.toJson (b.kingSquare .white),
       Json.ofOption Square.toJson (b.kingSquare .black)]),
     ("captured", .arr [.nat (b.capturedPieces .white).length,
       .nat (b.capturedPieces .black).length]),
     ("white", .arr ((b.roster .white).toList.map b.pieceJson)),
     ("black", .arr ((b.roster .black).toList.map b.pieceJson)),
     ("display", .str b.diagram)]

end Board

end Chess
