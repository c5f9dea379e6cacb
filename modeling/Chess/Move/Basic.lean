import Chess.Board.Query

namespace Chess

/-! Moves: a piece going from an origin to a destination on one board, with what it takes,
how it promotes or castles, and what it must restore when taken back. A move remembers the
board state it changes, so executing and unexecuting it are exact inverses. -/

/-- The rook's part of a castle. -/
structure RookHop where
  rook : PieceId
  origin : Square
  target : Square
  deriving DecidableEq, Repr, Inhabited

/-- What a move left on the board the first time it was played. -/
structure Outcome where
  check : Bool
  doubleCheck : Bool
  checkmate : Bool
  stalemate : Bool
  deriving DecidableEq, Repr, Inhabited

/-- A move of one piece on the board of a given lineage. `casualty` is the captured piece
with the square it stood on; `promoted` is the piece a promotion put on the board, kept so
that playing the move again brings back the same piece. The `prev` fields remember the
board's en-passant file and clocks from before the move. -/
structure Move where
  lineage : Nat
  piece : PieceId
  kind : PieceKind
  color : Color
  origin : Square
  target : Square
  promotion : Option PieceKind := none
  promoted : Option PieceId := none
  castle : Option CastleSide := none
  castleRook : Option RookHop := none
  casualty : Option (PieceId × Square) := none
  prevEnPassant : Option File := none
  prevHalfmove : UInt32 := 0
  prevFullmove : UInt32 := 1
  fileUnique : Bool := true
  rankUnique : Bool := true
  outcome : Option Outcome := none
  executed : Bool := false
  verified : Bool := false
  deriving Inhabited

namespace Move

/-- The piece a move captures, and where it stood: the enemy on the destination, or for a
pawn moving diagonally onto an empty square, the pawn taken en passant. Castles capture
nothing. -/
def findCasualty (m : Move) (b : Board) : Option (PieceId × Square) :=
  if m.castle.isSome then none
  else
    match b.occupant m.target with
    | some id => if (b.piece id).color ≠ m.color then some (id, m.target) else none
    | none =>
      if m.kind = .pawn ∧ m.origin.file ≠ m.target.file then
        (b.enPassantVictim? m.origin m.target m.color).bind fun s =>
          (b.occupant s).map fun id => (id, s)
      else none

/-- A move of a piece as the board stands, with its disambiguation, casualty and, for a
castle, the rook's part taken from the board now. -/
def build (b : Board) (piece : PieceId) (origin target : Square) (promotion : Option PieceKind)
    (castle : Option CastleSide) : Move :=
  let p := b.piece piece
  let (fileUnique, rankUnique) := b.disambiguation piece target
  let m : Move := {
    lineage := b.lineage, piece, kind := p.kind, color := p.color, origin, target, promotion,
    castle, prevEnPassant := b.enPassant, prevHalfmove := b.halfmove,
    prevFullmove := b.fullmove, fileUnique, rankUnique }
  let m := { m with casualty := m.findCasualty b }
  match castle with
  | some side =>
    { m with castleRook := (b.castlePlan? m.color side).map fun plan =>
        { rook := plan.rook, origin := plan.rookFrom, target := plan.rookTo } }
  | none => m

def knownLegal (b : Board) (piece : PieceId) (origin target : Square)
    (promotion : Option PieceKind) (castle : Option CastleSide) : Move :=
  { build b piece origin target promotion castle with verified := true }

/-- Whether a king's move from `origin` to `target` means a castle, and which: a square it
reaches by stepping is no castle; a destination of an open castle is that castle; on the
back rank, moving onto its own castle rook is that wing's castle, and moving two or more
files onto the g- or c-file is the castle of that file. -/
def castleIntent? (b : Board) (king : PieceId) (origin target : Square) :
    Option (CastleSide × Square) :=
  let p := b.piece king
  if p.targets.contains target then none
  else
    match b.castleDestinations.find? (fun (_, dest) => dest = target) with
    | some found => some found
    | none =>
      let back := Rank.back p.color
      if origin.rank ≠ back ∨ target.rank ≠ back then none
      else
        match b.occupant target with
        | some occ =>
          (CastleSide.all.find? fun side => b.castleRook? p.color side = some occ).map
            fun side => (side, Square.make side.kingFile back)
        | none =>
          let distance := ((target.file.index.val : Int) - origin.file.index.val).natAbs
          if distance < 2 then none
          else
            (CastleSide.all.find? fun side => side.kingFile = target.file).map
              fun side => (side, target)

/-- A move of the piece on `origin` to `target`, not yet tried: a promotion piece must be a
knight, bishop, rook or queen and the move a pawn's move to its last rank; a king's move
that means a castle becomes that castle. -/
def prepare (b : Board) (origin target : Square) (promotion : Option PieceKind) :
    Except MoveError Move := do
  let some id := b.occupant origin | throw (.illegalMove ("no piece on " ++ origin.name))
  let p := b.piece id
  if let some kind := promotion then
    if !kind.isPromotionTarget then throw (.illegalMove ("can't promote to " ++ kind.name))
    if p.kind ≠ .pawn ∨ target.rank ≠ Rank.promotion p.color then
      throw (.illegalMove (origin.name ++ target.name ++ " is not a promotion"))
  if p.kind = .king then
    if let some (side, kingTo) := castleIntent? b id origin target then
      return build b id origin kingTo none (some side)
  pure (build b id origin target promotion none)

def isCapture (m : Move) : Bool := m.casualty.isSome

/-- Whether the move captures en passant: its casualty stood elsewhere than the destination. -/
def isEnPassant (m : Move) : Bool :=
  match m.casualty with
  | some (_, s) => s ≠ m.target
  | none => false

def isCastle (m : Move) : Bool := m.castle.isSome

/-- The move in standard algebraic notation. The check or mate mark appears once the move
has been played. -/
def san (m : Move) : String :=
  let body :=
    match m.castle with
    | some side => side.san
    | none =>
      if m.kind = .pawn then
        (if m.isCapture then String.singleton m.origin.file.letter ++ "x" else "")
          ++ m.target.name
          ++ (match m.promotion.bind PieceKind.sanLetter? with
              | some c => "=" ++ String.singleton c
              | none => "")
      else
        let letter := match m.kind.sanLetter? with
          | some c => String.singleton c
          | none => ""
        let which :=
          match m.fileUnique, m.rankUnique with
          | true, true => ""
          | true, false => String.singleton m.origin.file.letter
          | false, true => String.singleton m.origin.rank.digit
          | false, false => m.origin.name
        letter ++ which ++ (if m.isCapture then "x" else "") ++ m.target.name
  let mark :=
    match m.outcome with
    | some o => if o.checkmate then "#" else if o.check then "+" else ""
    | none => ""
  body ++ mark

/-- The move in coordinate notation: origin, destination and the promotion letter. A castle
whose king does not move exactly two files is written with the rook's square as
destination. -/
def uci (m : Move) : String :=
  let distance := ((m.target.file.index.val : Int) - m.origin.file.index.val).natAbs
  let target :=
    match m.castleRook with
    | some hop => if m.castle.isSome ∧ distance ≠ 2 then hop.origin else m.target
    | none => m.target
  m.origin.name ++ target.name
    ++ (match m.promotion with
        | some k => k.name
        | none => "")

/-- The piece a move would promote to: its promotion, the queen by default, for a pawn move
to the last rank. -/
def promotionPiece (m : Move) : Option PieceKind :=
  if m.kind = .pawn ∧ m.target.rank = Rank.promotion m.color then
    some (m.promotion.getD .queen)
  else none

/-- Moves play the same when origin, destination, castle and promotion piece agree. -/
def playsSame (m n : Move) : Bool :=
  m.origin = n.origin && m.target = n.target && m.castle = n.castle
    && m.promotionPiece = n.promotionPiece

def outcome? (m : Move) : Except MoveError Outcome :=
  match m.outcome with
  | some o => .ok o
  | none => .error .unverified

/-- The result a move brought about: a win for its side by mate, a draw by stalemate. -/
def result? (m : Move) : Except MoveError (Option GameResult) := do
  let o ← m.outcome?
  if o.checkmate then pure (some (GameResult.winFor m.color))
  else if o.stalemate then pure (some .draw)
  else pure none

end Move

namespace Board

/-- The legal moves of the side to move: pieces in roster order, each piece's targets in
square order, a target on the promotion rank for each of queen, rook, bishop and knight;
then the open castles, kingside first. -/
def legalMoves (b : Board) : List Move :=
  let us := b.side
  let pieceMoves := (b.roster us).toList.flatMap fun id =>
    let p := b.piece id
    match p.square with
    | some origin =>
      p.targets.toList.flatMap fun s =>
        if p.kind = .pawn ∧ s.rank = Rank.promotion us then
          [PieceKind.queen, .rook, .bishop, .knight].map fun k =>
            Move.knownLegal b id origin s (some k) none
        else [Move.knownLegal b id origin s none none]
    | none => []
  let castles := CastleSide.all.filterMap fun side =>
    (b.legalCastle? side).map fun plan =>
      Move.knownLegal b plan.king plan.kingFrom plan.kingTo none (some side)
  pieceMoves ++ castles

end Board

end Chess
