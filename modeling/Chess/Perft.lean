import Chess.Move.Execute

namespace Chess

/-! Perft: the number of leaves of the legal move tree to a given depth, found by really
playing every move, so that it tests the whole path from generation to execution. At the root
each listed move is played on a copy of the board; below the root one board is walked: each
move is played on it, the leaves below are counted, and the move is taken back before the next
is tried. Counts are 64-bit and add with wrap-around. -/

namespace Board

/-- Plays the moves of a list in turn on one board: each is played, the leaves below the board
it leads to are counted by `below`, and the move is taken back before the next. The count so
far or the first error, with the board as it is left. A count that failed still has its move
taken back first, and an error there comes first. -/
def walkMoves (below : Board → Except MoveError UInt64 × Board) :
    List Move → UInt64 → Board → Except MoveError UInt64 × Board
  | [], nodes, b => (.ok nodes, b)
  | m :: rest, nodes, b =>
    match m.execute b with
    | .error e => (.error e, b)
    | .ok (played, child) =>
      match below child with
      | (counted, after) =>
        match played.unexecute after with
        | .error e => (.error e, after)
        | .ok (_, back) =>
          match counted with
          | .error e => (.error e, back)
          | .ok n => walkMoves below rest (nodes + n) back

/-- The walk below the root on one board: `b.walk depth` counts the leaves `depth + 1` plies
below `b`, where the last ply is the legal move count, and gives the board it leaves. -/
def walk (b : Board) : Nat → Except MoveError UInt64 × Board
  | 0 => (.ok (UInt64.ofNat b.legalMoveCount), b)
  | depth + 1 => walkMoves (fun c => c.walk depth) b.legalMoves 0 b

/-- The leaves of the legal move tree `depth` plies below the position: one at depth 0, the
legal move count at depth 1, and otherwise, for each legal move played on a copy of the
board, the leaves the walk counts below it, added up. -/
def perft (b : Board) : Nat → Except MoveError UInt64
  | 0 => pure 1
  | 1 => pure (UInt64.ofNat b.legalMoveCount)
  | depth + 2 =>
    b.legalMoves.foldlM (fun total m => do
      let (_, child) ← m.execute b
      let below ← (child.walk depth).1
      pure (total + below)) 0

/-- Perft split by first move: each legal move in coordinate notation with the leaves below
it, in order of the move text; empty at depth 0. -/
def perftDivide (b : Board) (depth : Nat) : Except MoveError (List (String × UInt64)) := do
  if depth = 0 then return []
  let counts ← b.legalMoves.mapM fun m => do
    let (m, child) ← m.execute b
    let nodes ← child.perft (depth - 1)
    pure (m.uci, nodes)
  let sorted := counts.reverse.mergeSort fun x y => x.1 ≤ y.1
  pure (sorted.foldl (fun (acc : Array (String × UInt64)) entry =>
    if acc.back?.map (·.1) = some entry.1 then acc else acc.push entry) #[]).toList

end Board

end Chess
