import Chess.Board.Reach

namespace Chess

/-! Regeneration: from the raw reach of every piece to the legal targets of the side to move.

The passes run in order. The king keeps only squares the enemy neither attacks nor guards. A
piece alone between an enemy slider and its king keeps only squares on that line, the
slider's square included. In single check the other pieces keep only the checker's square
and, against a slider, the squares between; a pawn also keeps an en-passant capture of a
checking pawn. In double check only the king moves. An en-passant capture that would leave
the king attacked along the vacated squares is dropped. Without check, each castle whose
squares are free and whose king path is not attacked is added. -/

namespace Board

/-- Whether a piece of colour `by` attacks `target`, counting as occupied only the squares
of `occ`: the first occupied square of each ray from the target is checked for a slider of
that direction, then the knight, king and pawn squares for such a piece. -/
def isAttackedWith (b : Board) (target : Square) (by_ : Color) (occ : SquareSet) : Bool :=
  let attacker (s : Square) : Option Piece :=
    if occ.contains s then
      match b.pieceAt? s with
      | some p => if p.color = by_ then some p else none
      | none => none
    else none
  let firstOnRay (d : Direction) : Bool :=
    match (target.ray d).find? occ.contains with
    | some s =>
      match attacker s with
      | some p => p.kind.directions.contains d
      | none => false
    | none => false
  let isKind (k : PieceKind) (s : Square) : Bool :=
    match attacker s with
    | some p => p.kind = k
    | none => false
  Direction.all.any firstOnRay
    || target.knightSteps.toList.any (isKind .knight)
    || target.kingSteps.toList.any (isKind .king)
    || (target.pawnAttacks by_.opponent).toList.any (isKind .pawn)

/-- The pieces of colour `by` whose attacks include the square, in roster order. -/
def threatsTo (b : Board) (s : Square) (by_ : Color) : List PieceId :=
  (b.roster by_).toList.filter fun id => (b.piece id).attacks.contains s

def isThreatened (b : Board) (s : Square) (by_ : Color) : Bool :=
  (b.roster by_).any fun id => (b.piece id).attacks.contains s

def isGuarded (b : Board) (s : Square) (by_ : Color) : Bool :=
  (b.roster by_).any fun id => (b.piece id).guards.contains s

/-- The rooks of a colour on its back rank on one wing of its king, outermost first; none
when the king is not on its back rank. -/
def wingRooks (b : Board) (c : Color) (side : CastleSide) : List PieceId :=
  match b.kingSquare c with
  | none => []
  | some ks =>
    if ks.rank ≠ Rank.back c then []
    else
      let kf := ks.file.index.val
      let files : List Nat := match side with
        | .kingside => ((List.range 8).filter (· > kf)).reverse
        | .queenside => (List.range 8).filter (· < kf)
      files.filterMap fun f =>
        match b.occupant (Square.make ⟨⟨f % 8, Nat.mod_lt _ (by decide)⟩⟩ (Rank.back c)) with
        | some id =>
          let p := b.piece id
          if p.color = c ∧ p.kind = .rook then some id else none
        | none => none

/-- The rook a colour castles with on a wing: the outermost rook of the wing. -/
def castleRook? (b : Board) (c : Color) (side : CastleSide) : Option PieceId :=
  (b.wingRooks c side).head?

/-- A colour may still castle on a wing when its king and that wing's castle rook have not
moved. -/
def canCastle (b : Board) (c : Color) (side : CastleSide) : Bool :=
  match b.king c with
  | none => false
  | some k =>
    if (b.piece k).moveCount ≠ 0 then false
    else
      match b.castleRook? c side with
      | some r => (b.piece r).moveCount = 0
      | none => false

/-- The castle a colour would make on a wing, when it may still castle there. -/
def castlePlan? (b : Board) (c : Color) (side : CastleSide) : Option CastlePlan := do
  if !b.canCastle c side then none
  let king ← b.king c
  let rook ← b.castleRook? c side
  let kingFrom ← (b.piece king).square
  let rookFrom ← (b.piece rook).square
  pure {
    side, king, kingFrom, rook, rookFrom
    kingTo := Square.make side.kingFile (Rank.back c)
    rookTo := Square.make side.rookFile (Rank.back c) }

/-- A castle is open when every square the king and the rook travel over holds nothing but
the two of them, and no square of the king's path, its start included, is attacked once
both are lifted. -/
def castleIsLegal (b : Board) (plan : CastlePlan) (c : Color) : Bool :=
  let travel (a z : Square) := Square.between a z ∪ SquareSet.single z
  let clear := travel plan.kingFrom plan.kingTo ∪ travel plan.rookFrom plan.rookTo
  let free := clear.toList.all fun s =>
    match b.occupant s with
    | some id => id = plan.king ∨ id = plan.rook
    | none => true
  let lifted := (b.occupancy.erase plan.kingFrom).erase plan.rookFrom
  let path := travel plan.kingFrom plan.kingTo ∪ SquareSet.single plan.kingFrom
  free && path.toList.all fun s => !b.isAttackedWith s c.opponent lifted

def legalCastle? (b : Board) (side : CastleSide) : Option CastlePlan := b.status.castle side

def castleDestinations (b : Board) : List (CastleSide × Square) :=
  CastleSide.all.filterMap fun side => (b.legalCastle? side).map fun p => (side, p.kingTo)

def withRawReach (b : Board) : Board :=
  { b with pieces := b.pieces.map fun p =>
      let r := b.rawReach p
      { p with targets := r.targets, guards := r.guards, quiet := r.quiet,
               castleTargets := SquareSet.empty } }

def keepKingSafe (b : Board) (king : PieceId) (them : Color) : Board :=
  let safe := (b.piece king).targets.filter fun s => !b.isThreatened s them && !b.isGuarded s them
  b.modifyPiece king fun p => { p with targets := safe }

/-- A piece alone between an enemy slider and the king keeps only squares of that line. -/
def restrictPins (b : Board) (kingSq : Square) (them : Color) : Board :=
  (b.roster them).foldl (fun b enemy =>
    let p := b.piece enemy
    match p.square with
    | some origin =>
      if !p.kind.slides then b
      else
        match origin.lineTo? kingSq p.kind.directions false with
        | some line =>
          let scan := (line.drop 1).foldl
            (fun (acc : Option PieceId × Bool) s =>
              match acc with
              | (_, true) => acc
              | (pinned, false) =>
                match b.occupant s with
                | some id =>
                  if pinned.isSome ∨ (b.piece id).color = them then (pinned, true)
                  else (some id, false)
                | none => acc) (none, false)
          match scan with
          | (some pinned, false) =>
            b.modifyPiece pinned fun q => { q with targets := q.targets ∩ SquareSet.ofList line }
          | _ => b
        | none => b
    | none => b) b

/-- In single check the pieces other than the king keep the checker's square and, against a
slider, the squares between it and the king; a pawn also keeps an en-passant capture of the
checker. -/
def restrictToCheckResolutions (b : Board) (king : PieceId) (kingSq checker : Square) : Board :=
  let us := b.side
  let allowed :=
    match b.pieceAt? checker with
    | some p =>
      if p.kind.slides then SquareSet.single checker ∪ Square.between checker kingSq
      else SquareSet.single checker
    | none => SquareSet.single checker
  (b.roster us).foldl (fun b id =>
    let p := b.piece id
    match p.square with
    | some origin =>
      if id = king then b
      else
        let kept := p.targets ∩ allowed
        let kept :=
          if p.kind = .pawn then
            (p.targets \ allowed).toList.foldl (fun kept s =>
              if (b.occupant s).isNone ∧ b.enPassantVictim? origin s us = some checker then
                kept.insert s
              else kept) kept
          else kept
        b.modifyPiece id fun q => { q with targets := kept }
    | none => b) b

def freezeAllBut (b : Board) (king : PieceId) : Board :=
  (b.roster b.side).foldl (fun b id =>
    if id = king then b else b.modifyPiece id fun q => { q with targets := SquareSet.empty }) b

/-- Drops each en-passant capture after which the king would be attacked, judged on the
occupancy with the capturing pawn moved and the captured pawn gone. -/
def dropExposingEnPassant (b : Board) (kingSq : Square) : Board :=
  let us := b.side
  let occ := b.occupancy
  (b.roster us).foldl (fun b id =>
    let p := b.piece id
    match p.square with
    | some origin =>
      if p.kind ≠ .pawn then b
      else
        let kept := p.targets.toList.foldl (fun kept s =>
          if s.file = origin.file ∨ (b.occupant s).isSome then kept
          else
            match b.enPassantVictim? origin s us with
            | some victim =>
              let after := ((occ.erase origin).erase victim).insert s
              if b.isAttackedWith kingSq us.opponent after then kept.erase s else kept
            | none => kept) p.targets
        b.modifyPiece id fun q => { q with targets := kept }
    | none => b) b

/-- Records the open castles of the side to move and adds the king's castle targets. -/
def addCastles (b : Board) (king : PieceId) : Board :=
  CastleSide.all.foldl (fun b side =>
    match b.castlePlan? b.side side with
    | some plan =>
      if b.castleIsLegal plan b.side then
        let b := match side with
          | .kingside => { b with status := { b.status with kingside := some plan } }
          | .queenside => { b with status := { b.status with queenside := some plan } }
        b.modifyPiece king fun q => { q with castleTargets := q.castleTargets.insert plan.kingTo }
      else b
    | none => b) b

/-- The number of legal moves of the side to move: one per target, four for a pawn target
on the promotion rank, one per open castle. -/
def countLegal (b : Board) : Nat :=
  let us := b.side
  let perPiece := (b.roster us).toList.map fun id =>
    let p := b.piece id
    p.targets.toList.foldl (fun n s =>
      n + if p.kind = .pawn ∧ s.rank = Rank.promotion us then 4 else 1) 0
  perPiece.foldl (· + ·) 0 + (CastleSide.all.filter fun side => (b.status.castle side).isSome).length

def regenerate (b : Board) : Board :=
  let b := { b.withRawReach with status := {} }
  let us := b.side
  let them := us.opponent
  match b.king us with
  | none => { b with status := { legalCount := b.countLegal } }
  | some king =>
    match (b.piece king).square with
    | none => { b with status := { legalCount := b.countLegal } }
    | some kingSq =>
      let b := b.keepKingSafe king them
      let b := b.restrictPins kingSq them
      let checkers := SquareSet.ofList ((b.threatsTo kingSq them).filterMap fun id => (b.piece id).square)
      let b := { b with status := { b.status with hasKing := true, checkers } }
      let b :=
        match checkers.toList with
        | [] => b
        | [checker] => b.restrictToCheckResolutions king kingSq checker
        | _ => b.freezeAllBut king
      let b := b.dropExposingEnPassant kingSq
      let b := if checkers.isEmpty then b.addCastles king else b
      { b with status := { b.status with legalCount := b.countLegal } }

def isCheck (b : Board) : Bool := !b.status.checkers.isEmpty

def isDoubleCheck (b : Board) : Bool := b.status.checkers.card > 1

def legalMoveCount (b : Board) : Nat := b.status.legalCount

def isCheckmate (b : Board) : Bool := b.isCheck && b.status.legalCount = 0

def isStalemate (b : Board) : Bool := b.status.hasKing && !b.isCheck && b.status.legalCount = 0

def checkers (b : Board) : List PieceId := b.status.checkers.toList.filterMap b.occupant

def checkerSquares (b : Board) : List Square := b.status.checkers.toList

/-- The regeneration note: the legal move count, the side and the number of checkers, when
the side to move has its king on the board. -/
def regenerationNote? (b : Board) : Option String :=
  if b.status.hasKing then
    some ("regenerated " ++ toString b.status.legalCount ++ " legal moves for " ++ b.side.name
      ++ " (" ++ toString b.status.checkers.card ++ " checkers)")
  else none

end Board

end Chess
