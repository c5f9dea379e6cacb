import Chess.Board.Status

namespace Chess

/-! Building positions: the empty board, the standard start, a position from a setup, and the
edits allowed before the first move. Every edit that changes what pieces reach regenerates
the board; the clock setters do not. -/

/-- Castling rights, one flag per colour and wing. -/
structure CastleRights where
  whiteKingside : Bool := false
  whiteQueenside : Bool := false
  blackKingside : Bool := false
  blackQueenside : Bool := false
  deriving DecidableEq, Repr, Inhabited

namespace CastleRights

def get (r : CastleRights) : Color → CastleSide → Bool
  | .white, .kingside => r.whiteKingside
  | .white, .queenside => r.whiteQueenside
  | .black, .kingside => r.blackKingside
  | .black, .queenside => r.blackQueenside

def set (r : CastleRights) (c : Color) (side : CastleSide) (v : Bool) : CastleRights :=
  match c, side with
  | .white, .kingside => { r with whiteKingside := v }
  | .white, .queenside => { r with whiteQueenside := v }
  | .black, .kingside => { r with blackKingside := v }
  | .black, .queenside => { r with blackQueenside := v }

def full : CastleRights := ⟨true, true, true, true⟩

def isEmpty (r : CastleRights) : Bool :=
  !(r.whiteKingside || r.whiteQueenside || r.blackKingside || r.blackQueenside)

def letters (r : CastleRights) : String :=
  if r.isEmpty then "-"
  else
    String.ofList ([(r.whiteKingside, 'K'), (r.whiteQueenside, 'Q'), (r.blackKingside, 'k'),
      (r.blackQueenside, 'q')].filterMap fun (held, c) => if held then some c else none)

/-- The rights as flag names: each named group whose rights are all held, in the order
`WHITE_KINGSIDE, WHITE_QUEENSIDE, WHITE, BLACK_KINGSIDE, BLACK_QUEENSIDE, BLACK`, joined by
`" | "`, or `NONE`. -/
def flagNames (r : CastleRights) : String :=
  let named := [
    (r.whiteKingside, "WHITE_KINGSIDE"),
    (r.whiteQueenside, "WHITE_QUEENSIDE"),
    (r.whiteKingside && r.whiteQueenside, "WHITE"),
    (r.blackKingside, "BLACK_KINGSIDE"),
    (r.blackQueenside, "BLACK_QUEENSIDE"),
    (r.blackKingside && r.blackQueenside, "BLACK")]
  match named.filterMap fun (held, n) => if held then some n else none with
  | [] => "NONE"
  | names => " | ".intercalate names

end CastleRights

/-- A position described square by square, as FEN describes it: a letter or a space per
square (indexed by file, then rank), the side to move, castling rights, the en-passant file
and the two clocks. -/
structure Setup where
  placement : Vector (Vector Char 8) 8 := Vector.replicate 8 (Vector.replicate 8 ' ')
  side : Color := .white
  castling : CastleRights := {}
  enPassant : Option File := none
  halfmove : UInt32 := 0
  fullmove : UInt32 := 1
  deriving Inhabited

def backRankKinds : List PieceKind :=
  [.rook, .knight, .bishop, .queen, .king, .bishop, .knight, .rook]

namespace Setup

def letterAt (st : Setup) (f r : Fin 8) : Char := (st.placement.get f).get r

def standard : Setup :=
  let kinds := backRankKinds.toArray
  { placement := Vector.ofFn fun f => Vector.ofFn fun r =>
      let kind := kinds.getD f.val .rook
      if r.val = 0 then pieceLetter kind .white
      else if r.val = 1 then 'P'
      else if r.val = 6 then 'p'
      else if r.val = 7 then pieceLetter kind .black
      else ' '
    castling := CastleRights.full }

end Setup

namespace Board

def empty : Board := ({} : Board).regenerate

/-- The standard starting position: for White then Black, file by file, the back-rank piece
and then the pawn, so White's ids run a1 = 0, a2 = 1, b1 = 2, … and Black's a8 = 16,
a7 = 17, … -/
def standard : Board :=
  let b := [Color.white, Color.black].foldl (fun b c =>
    (List.finRange 8).foldl (fun b f =>
      let kind := backRankKinds.toArray.getD f.val .rook
      let b := (b.spawn kind c (Square.make ⟨f⟩ (Rank.back c))).1
      (b.spawn .pawn c (Square.make ⟨f⟩ (Rank.pawnStart c))).1) b) empty
  b.regenerate

def castleRights (b : Board) : CastleRights :=
  { whiteKingside := b.canCastle .white .kingside
    whiteQueenside := b.canCastle .white .queenside
    blackKingside := b.canCastle .black .kingside
    blackQueenside := b.canCastle .black .queenside }

def ensureSetup (b : Board) : Except MoveError Unit :=
  if b.started then .error (.illegalState "position setup after play has begun") else pure ()

/-- Stands a new piece on an empty square; a second king of a colour and a pawn on the
first or last rank are refused. -/
def placePiece (b : Board) (kind : PieceKind) (color : Color) (s : Square) :
    Except MoveError (Board × PieceId) := do
  b.ensureSetup
  if (b.occupant s).isSome then throw (.illegalState (s.name ++ " is occupied"))
  if kind = .king ∧ (b.king color).isSome then
    throw (.illegalState (color.name ++ " already has a king"))
  if kind = .pawn ∧ (s.rank = Rank.back .white ∨ s.rank = Rank.back .black) then
    throw (.illegalState ("pawn can't stand on " ++ s.name))
  let spawned := b.spawn kind color s
  pure (spawned.1.regenerate, spawned.2)

def removePiece (b : Board) (s : Square) : Except MoveError (Board × PieceId) := do
  b.ensureSetup
  let some id := b.occupant s | throw (.illegalState (s.name ++ " is empty"))
  let color := (b.piece id).color
  let b := (b.lift id).modifyRoster color fun r => r.filter (· ≠ id)
  let b := if b.king color = some id then b.setKing color none else b
  pure (b.regenerate, id)

def occupiedBy (b : Board) (s : Square) (id : PieceId) : Bool := b.occupant s = some id

/-- Stands a piece of a roster on a square, bringing it back if it was captured; naming the
piece already there changes nothing, and the board is not regenerated. -/
def setOccupant (b : Board) (s : Square) (id : PieceId) : Except MoveError Board := do
  b.ensureSetup
  if id.index ≥ b.pieces.size then throw (.illegalState ("no piece " ++ id.label))
  if b.occupiedBy s id then return b
  if (b.occupant s).isSome then throw (.illegalState (s.name ++ " is occupied"))
  let color := (b.piece id).color
  if !(b.roster color).contains id then throw (.illegalState (id.label ++ " is not in play"))
  let b := (b.lift id).modifyPiece id fun p => { p with captured := false }
  pure (b.put id s).regenerate

def setSide (b : Board) (c : Color) : Except MoveError Board := do
  b.ensureSetup
  pure { b with side := c }.regenerate

def setEnPassant (b : Board) (f : Option File) : Except MoveError Board := do
  b.ensureSetup
  pure { b with enPassant := f }.regenerate

def setHalfmove (b : Board) (n : UInt32) : Except MoveError Board := do
  b.ensureSetup
  pure { b with halfmove := n }

def setFullmove (b : Board) (n : UInt32) : Except MoveError Board := do
  b.ensureSetup
  pure { b with fullmove := n }

/-- Grants or withdraws a castling right through move counts: every rook of the wing except
the castle rook (all of them when withdrawing) counts as moved; granting needs a rook and
the king, and marks both unmoved. -/
def applyCastleRights (b : Board) (c : Color) (side : CastleSide) (allowed : Bool) :
    Except MoveError Board := do
  let rooks := b.wingRooks c side
  let b := (rooks.drop (if allowed then 1 else 0)).foldl (fun b r =>
    b.modifyPiece r fun p => { p with moveCount := max p.moveCount 1 }) b
  if !allowed then return b
  let some rook := rooks.head?
    | throw (.illegalState (c.name ++ " has no rook to castle " ++ side.name))
  let some king := b.king c
    | throw (.illegalState (c.name ++ " has no king to castle with"))
  pure ((b.modifyPiece king fun p => { p with moveCount := 0 }).modifyPiece rook
    fun p => { p with moveCount := 0 })

def setCastleRights (b : Board) (c : Color) (side : CastleSide) (allowed : Bool) :
    Except MoveError Board := do
  b.ensureSetup
  let b ← b.applyCastleRights c side allowed
  pure b.regenerate

def setupOrder : List Square :=
  (List.finRange 8).flatMap fun r => (List.finRange 8).map fun f => Square.make ⟨f⟩ ⟨r⟩

def placeFromSetup (st : Setup) (b : Board) (s : Square) : Except MoveError Board := do
  let letter := st.letterAt s.file.index s.rank.index
  if letter = ' ' then return b
  let some (kind, color) := pieceOfLetter? letter
    | throw (.illegalState ("unknown piece letter '" ++ String.singleton letter ++ "'"))
  let (b, _) ← b.placePiece kind color s
  pure b

def finishSetup (st : Setup) (b : Board) : Except MoveError Board := do
  let b := { b with side := st.side, enPassant := st.enPassant, halfmove := st.halfmove,
                    fullmove := st.fullmove }
  let b ← [(Color.white, CastleSide.kingside), (.white, .queenside), (.black, .kingside),
      (.black, .queenside)].foldlM (fun b (c, side) =>
    b.applyCastleRights c side (st.castling.get c side)) b
  pure b.regenerate

/-- The position a setup describes, pieces placed rank 1 to 8 and file a to h. -/
def ofSetup (st : Setup) : Except MoveError Board := do
  let b ← setupOrder.foldlM (placeFromSetup st) empty
  finishSetup st b

end Board

end Chess
