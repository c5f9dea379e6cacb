import Chess.Random.ChaCha
import Chess.Pgn.Game

namespace Chess

/-! Random games. From the standard start, each ply picks one of the legal moves uniformly
with a seeded stream and plays it, until the ply budget is spent or the game is over: a
checkmate is won by the side that gave it, and a stalemate or the fifty-move rule is a draw.
The game is written with the tags `Event` and `Seed` and left at its start. -/

namespace RandomGame

/-- Plays at most `plies` random moves, and gives the history reached with the result, if
the game ended. -/
def play : Nat → ChaCha → History → Except MoveError (History × Option GameResult)
  | 0, _, h => .ok (h, none)
  | plies + 1, g, h =>
    let b := h.board
    if b.isCheckmate then .ok (h, some (GameResult.winFor b.side.opponent))
    else if b.isStalemate || b.isFiftyMoveDraw then .ok (h, some .draw)
    else
      match g.choose b.legalMoves with
      | (none, _) => .ok (h, none)
      | (some m, g) =>
        match (History.run (History.add m) h).quiet with
        | (.ok _, h) => play plies g h
        | (.error e, _) => .error e

/-- A random game of at most `plies` plies from a seed, as a PGN game at its start. -/
def generate (seed : UInt64) (plies : Nat) : Except MoveError PgnGame := do
  let (h, result) ← play plies (ChaCha.ofSeed seed) (History.new Board.standard)
  let (r, h) := (History.run History.rewind h).quiet
  r
  let game : PgnGame := { history := h, result := result }
  pure ((game.setTag "Event" "Random game").setTag "Seed" (toString seed))

end RandomGame

end Chess
