import Chess.SquareSet

namespace Chess

/-! Board geometry: the squares a knight, king or pawn reaches in one step, rays along the
eight directions, and the lines between two squares that share a rank, file or diagonal. -/

namespace Square

/-- The squares a list of file and rank offsets leads to, those on the board. -/
def stepsBy (s : Square) (offsets : List (Int × Int)) : SquareSet :=
  SquareSet.ofList (offsets.filterMap fun d => s.offset? d.1 d.2)

def knightSteps (s : Square) : SquareSet :=
  s.stepsBy [(1, 2), (2, 1), (2, -1), (1, -2), (-1, -2), (-2, -1), (-2, 1), (-1, 2)]

def kingSteps (s : Square) : SquareSet :=
  s.stepsBy (Direction.all.map Direction.delta)

def pawnAttacks (s : Square) (c : Color) : SquareSet :=
  s.stepsBy [(-1, c.forward), (1, c.forward)]

def toward? (s : Square) (d : Direction) : Option Square := s.offset? d.delta.1 d.delta.2

/-- The squares from `s` outward in a direction up to the edge, `s` itself excluded. -/
def ray (s : Square) (d : Direction) : List Square := go 7 s
where
  /-- At most `n` more steps from `t`. -/
  go : Nat → Square → List Square
    | 0, _ => []
    | n + 1, t =>
      match t.toward? d with
      | some u => u :: go n u
      | none => []

/-- The direction that leads from `a` to `b` along a rank, file or diagonal, if any. -/
def directionTo? (a b : Square) : Option Direction :=
  if a = b then none
  else
    let df := (b.file.index.val : Int) - a.file.index.val
    let dr := (b.rank.index.val : Int) - a.rank.index.val
    if df ≠ 0 ∧ dr ≠ 0 ∧ df.natAbs ≠ dr.natAbs then none
    else Direction.all.find? fun d => d.delta = (df.sign, dr.sign)

/-- The squares strictly between `a` and `b` when they share a line; empty otherwise. -/
def between (a b : Square) : SquareSet :=
  match a.directionTo? b with
  | some d => SquareSet.ofList ((a.ray d).takeWhile (· ≠ b))
  | none => SquareSet.empty

/-- The line from `a` toward `b` when the direction is one of `dirs`: `a`, the squares
strictly between, and `b` itself when `inclusive`. -/
def lineTo? (a b : Square) (dirs : List Direction) (inclusive : Bool) : Option (List Square) :=
  match a.directionTo? b with
  | some d =>
    if dirs.contains d then
      let inner := (a.ray d).takeWhile (· ≠ b)
      some (a :: inner ++ (if inclusive then [b] else []))
    else none
  | none => none

end Square

end Chess
