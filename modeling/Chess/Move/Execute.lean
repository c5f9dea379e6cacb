import Chess.Move.Basic

namespace Chess

/-! Playing and taking back moves. `execute` checks that the move belongs to the board, is not
already played, finds its piece on its origin, is its side's turn and is legal now; it then
moves the pieces, updates the clocks and the en-passant file, and regenerates. `unexecute`
takes back the last move played and restores everything `execute` changed. -/

namespace Move

/-- Whether a piece is free to come back as the piece a promotion creates: it exists, is of
the kind and colour, is off the board, not captured and in no roster. -/
def isOrphan (b : Board) (id : PieceId) (kind : PieceKind) (color : Color) : Bool :=
  match b.piece? id with
  | some p =>
    p.kind = kind && p.color = color && !p.onBoard && !p.captured
      && !(b.roster color).contains id
  | none => false

/-- The checks `execute` makes before it changes anything, with the rook's part of a castle
as the board allows it now. -/
def checkPlayable (m : Move) (b : Board) : Except MoveError (Option RookHop) := do
  if b.lineage ≠ m.lineage then throw (.illegalState "move belongs to another board")
  if m.executed then throw (.illegalState (m.san ++ " is already executed"))
  if b.occupant m.origin ≠ some m.piece then
    throw (.illegalMove (m.piece.label ++ " is not on " ++ m.origin.name))
  if b.side ≠ m.color then throw (.outOfTurn m.color)
  match m.castle with
  | some side =>
    match b.legalCastle? side with
    | some plan =>
      if plan.kingTo = m.target then
        return some { rook := plan.rook, origin := plan.rookFrom, target := plan.rookTo }
      else throw (.illegalMove (m.color.name ++ " can't castle " ++ side.san))
    | none => throw (.illegalMove (m.color.name ++ " can't castle " ++ side.san))
  | none =>
    if !(b.piece m.piece).targets.contains m.target then
      throw (.illegalMove (m.kind.name ++ " can't move from " ++ m.origin.name ++ " to "
        ++ m.target.name))
    return m.castleRook

/-- The move completed against the board it is about to be played on: the rook's part of a
castle, a queen as the promotion of a pawn reaching its last rank with none named, the
disambiguation, the casualty, and the en-passant file and clocks to restore. -/
def complete (m : Move) (b : Board) (hop : Option RookHop) : Move :=
  let m := { m with castleRook := hop }
  let m :=
    if m.kind = .pawn ∧ m.target.rank = Rank.promotion m.color ∧ m.promotion.isNone then
      { m with promotion := some .queen }
    else m
  let (fileUnique, rankUnique) := b.disambiguation m.piece m.target
  let m := { m with fileUnique, rankUnique }
  let m := { m with casualty := m.findCasualty b }
  { m with prevEnPassant := b.enPassant, prevHalfmove := b.halfmove,
           prevFullmove := b.fullmove }

/-- The en-passant file and the half-move clock after the move: the file of a pawn's double
step, and the clock reset by a pawn move or a capture. -/
def advanceClocks (m : Move) (b : Board) : Board :=
  let rankDelta := ((m.target.rank.index.val : Int) - m.origin.rank.index.val).natAbs
  let b := { b with enPassant :=
    if m.kind = PieceKind.pawn ∧ rankDelta = 2 then some m.origin.file else none }
  { b with halfmove := if m.kind = PieceKind.pawn ∨ m.casualty.isSome then 0 else b.halfmove + 1 }

def takeCasualty (m : Move) (b : Board) : Board :=
  match m.casualty with
  | some (id, _) => b.capture id
  | none => b

/-- The piece, and for a castle the rook, lifted and put on their destinations; the rook's
move count raised. -/
def movePieces (m : Move) (b : Board) : Board :=
  match m.castleRook, m.castle with
  | some hop, some _ =>
    let b := (b.lift m.piece).lift hop.rook
    let b := (b.put m.piece m.target).put hop.rook hop.target
    b.modifyPiece hop.rook fun p => { p with moveCount := p.moveCount + 1 }
  | _, _ => (b.lift m.piece).put m.piece m.target

/-- The pieces moved: the casualty taken off, the piece, and for a castle the rook, lifted
and put on their destinations, and the move counts of those that moved raised. -/
def place (m : Move) (b : Board) : Board :=
  (m.movePieces (m.takeCasualty b)).modifyPiece m.piece fun p =>
    { p with moveCount := p.moveCount + 1 }

/-- The piece a promotion to `kind` brings in: the one this move created before, if that
one is still free, and a new piece otherwise. -/
def promotedPiece (m : Move) (b : Board) (kind : PieceKind) : Board × PieceId :=
  match m.promoted with
  | some id => if isOrphan b id kind m.color then (b, id) else b.createPiece kind m.color
  | none => b.createPiece kind m.color

/-- A promotion: the promoted piece stands on the pawn's destination with one move made,
and takes the pawn's place in the roster. -/
def promote (m : Move) (b : Board) : Move × Board :=
  match m.promotion with
  | some kind =>
    let (b, promoted) := m.promotedPiece b kind
    let b := (b.lift m.piece).put promoted m.target
    let b := b.modifyPiece promoted fun p => { p with moveCount := 1 }
    let b := b.replaceInRoster m.piece promoted
    ({ m with promoted := some promoted }, b)
  | none => (m, b)

/-- The turn passes to the other side, the full-move number advances after Black's move,
and the move is recorded as played. -/
def passTurn (m : Move) (b : Board) : Board :=
  let b := { b with side := m.color.opponent }
  let b := if m.color = .black then { b with fullmove := b.fullmove + 1 } else b
  { b with played := b.played.push (m.origin, m.target) }

/-- Plays the move on the board. A pawn reaching its last rank becomes a queen unless the
move names another piece; the piece it becomes is the one this move created before, if that
one is still free, and a new piece otherwise. -/
def execute (m : Move) (b : Board) : Except MoveError (Move × Board) := do
  let hop ← m.checkPlayable b
  let m := m.complete b hop
  let (m, placed) := m.promote (m.place (m.advanceClocks b))
  let b := (m.passTurn placed).regenerate
  let m :=
    if m.outcome.isNone then
      { m with outcome := some { check := b.isCheck, doubleCheck := b.isDoubleCheck,
                                 checkmate := b.isCheckmate, stalemate := b.isStalemate } }
    else m
  pure ({ m with executed := true, verified := true }, { b with started := true })

/-- Takes the promoted piece off the board and puts the pawn back on the destination and in
its roster slot. -/
def unpromote (m : Move) (b : Board) : Board :=
  match m.promoted with
  | some promoted => ((b.lift promoted).replaceInRoster promoted m.piece).put m.piece m.target
  | none => b

/-- The piece, and for a castle the rook, lifted and put back on their origins; the rook's
move count lowered. -/
def returnPieces (m : Move) (b : Board) : Board :=
  match m.castleRook, m.castle with
  | some hop, some _ =>
    let b := (b.lift m.piece).lift hop.rook
    let b := (b.put m.piece m.origin).put hop.rook hop.origin
    b.modifyPiece hop.rook fun p => { p with moveCount := p.moveCount - 1 }
  | _, _ => (b.lift m.piece).put m.piece m.origin

def restoreCasualty (m : Move) (b : Board) : Board :=
  match m.casualty with
  | some (id, s) => b.uncapture id s
  | none => b

/-- The pieces moved back: the piece's move count lowered, the piece, and for a castle the
rook, returned to their origins, and the casualty brought back. -/
def unplace (m : Move) (b : Board) : Board :=
  m.restoreCasualty (m.returnPieces (b.modifyPiece m.piece fun p =>
    { p with moveCount := p.moveCount - 1 }))

def unexecute (m : Move) (b : Board) : Except MoveError (Move × Board) := do
  if b.lineage ≠ m.lineage then throw (.illegalState "move belongs to another board")
  if !m.executed then throw (.illegalState (m.san ++ " is not executed"))
  if b.lastMove? ≠ some (m.origin, m.target) then
    throw (.illegalState (m.san ++ " is not the last move played"))
  let b := m.unplace (m.unpromote { b with played := b.played.pop, side := m.color })
  let b := { b with enPassant := m.prevEnPassant, halfmove := m.prevHalfmove,
                    fullmove := m.prevFullmove }.regenerate
  pure ({ m with executed := false }, b)

/-- A trial of a move on a copy of the board: the move and the copy after playing it, and
after taking it back. -/
structure Trial where
  played : Move
  afterPlay : Board
  taken : Move
  afterTakeBack : Board

def rehearse (m : Move) (b : Board) : Except MoveError Trial := do
  let (played, afterPlay) ← m.execute b
  let (taken, afterTakeBack) ← played.unexecute afterPlay
  pure { played, afterPlay, taken, afterTakeBack }

/-- The move after a successful trial: it knows its outcome, and it holds no promoted piece,
so the trial lends the real board no piece. -/
def Trial.result (t : Trial) : Move := { t.taken with promoted := none }

/-- A move of the piece on `origin` to `target`, verified by a trial on a copy. -/
def new (b : Board) (origin target : Square) (promotion : Option PieceKind) :
    Except MoveError Move := do
  let m ← prepare b origin target promotion
  let t ← m.rehearse b
  pure t.result

def castleOn (b : Board) (side : CastleSide) : Except MoveError Move := do
  let c := b.side
  let some king := b.king c | throw (.illegalMove (c.name ++ " has no king"))
  let some origin := (b.piece king).square | throw (.illegalMove (c.name ++ " has no king"))
  let m := build b king origin (Square.make side.kingFile (Rank.back c)) none (some side)
  let t ← m.rehearse b
  pure t.result

end Move

end Chess
