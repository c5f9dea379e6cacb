import Chess.Board.Basic

namespace Chess

/-! The squares a piece reaches before king safety is considered.

A stepping piece reaches every step square; one holding a friend is guarded instead. A
sliding piece runs each ray to the first occupant: a friend is guarded, an enemy reached.
Pieces of the side not to move see through the enemy king, and their pawns threaten every
diagonal square, empty or not, so that the king of the side to move keeps off squares that
would be attacked once it stands there. -/

/-- Raw reach of a piece: squares it may go to, friends it defends, and the pushes among the
squares it may go to. -/
structure Reach where
  targets : SquareSet := SquareSet.empty
  guards : SquareSet := SquareSet.empty
  quiet : SquareSet := SquareSet.empty
  deriving Inhabited

namespace Board

/-- The square of the pawn that a pawn of `color` moving diagonally from `origin` to
`target` would take en passant, if this is such a capture: the pawn stands on its
en-passant rank, the board's en-passant file is the target's file, `color` is to move and an
enemy pawn stands beside it on that file. -/
def enPassantVictim? (b : Board) (origin target : Square) (color : Color) : Option Square :=
  if origin.rank ≠ Rank.enPassantFrom color ∨ b.enPassant ≠ some target.file ∨ b.side ≠ color
  then none
  else
    let victim := Square.make target.file origin.rank
    match b.pieceAt? victim with
    | some p => if p.kind = .pawn ∧ p.color ≠ color then some victim else none
    | none => none

def stepReach (b : Board) (steps : SquareSet) (color : Color) : Reach :=
  steps.toList.foldl (fun r s =>
    match b.pieceAt? s with
    | some p =>
      if p.color = color then { r with guards := r.guards.insert s }
      else { r with targets := r.targets.insert s }
    | none => { r with targets := r.targets.insert s }) {}

/-- Reach along one ray: empty squares and the first enemy are reached, the first friend is
guarded; the enemy king does not stop a piece of the side not to move. -/
def rayReach (b : Board) (color : Color) (ownTurn : Bool) : List Square → Reach → Reach
  | [], r => r
  | s :: rest, r =>
    match b.pieceAt? s with
    | none => b.rayReach color ownTurn rest { r with targets := r.targets.insert s }
    | some p =>
      if p.color = color then { r with guards := r.guards.insert s }
      else
        let r := { r with targets := r.targets.insert s }
        if ownTurn ∨ p.kind ≠ .king then r else b.rayReach color ownTurn rest r

def slideReach (b : Board) (origin : Square) (color : Color) (dirs : List Direction) : Reach :=
  dirs.foldl (fun r d => b.rayReach color (b.side = color) (origin.ray d) r) {}

/-- Reach of a pawn: one push to an empty square, two from its starting rank over two empty
squares, and its diagonals. -/
def pawnReach (b : Board) (origin : Square) (color : Color) : Reach :=
  let ownTurn := b.side = color
  let pushes : Reach :=
    match origin.offset? 0 color.forward with
    | some one =>
      if (b.occupant one).isSome then {}
      else
        let r : Reach := { targets := SquareSet.single one, quiet := SquareSet.single one }
        if origin.rank = Rank.pawnStart color then
          match one.offset? 0 color.forward with
          | some two =>
            if (b.occupant two).isSome then r
            else { r with targets := r.targets.insert two, quiet := r.quiet.insert two }
          | none => r
        else r
    | none => {}
  (origin.pawnAttacks color).toList.foldl (fun r s =>
    match b.pieceAt? s with
    | some p =>
      if p.color = color then { r with guards := r.guards.insert s }
      else { r with targets := r.targets.insert s }
    | none =>
      if !ownTurn ∨ (b.enPassantVictim? origin s color).isSome then
        { r with targets := r.targets.insert s }
      else r) pushes

/-- The raw reach of a piece; nothing for a piece that is captured or off the board. -/
def rawReach (b : Board) (p : Piece) : Reach :=
  match p.square with
  | some s =>
    if p.captured then {}
    else
      match p.kind with
      | .pawn => b.pawnReach s p.color
      | .knight => b.stepReach s.knightSteps p.color
      | .king => b.stepReach s.kingSteps p.color
      | k => b.slideReach s p.color k.directions
  | none => {}

end Board

end Chess
