import Chess.Cli.Args
import Chess.Perft
import Chess.Perft.Suite
import Chess.Random.Game
import Chess.Pgn.Read
import Chess.Record
import Chess.Text.Unsigned

namespace Chess

/-! The command-line program: its commands and what each prints.

* `perft FEN [-d DEPTH] [--divide]` prints the position and its perft counts for every depth
  from 1 to `DEPTH` (1 when missing or not a 32-bit number), each with the time it took, or
  with `--divide` the counts split by first move and their total.
* `moves [FEN]` prints the position and its legal moves, each in algebraic and coordinate
  notation, in order of the coordinate text, then their number and whether the side to move
  is mated, stalemated or in check. Without a FEN it uses the standard start.
* `suite FILE` runs the perft cases of a CSV file and counts those that pass.
* `random [--seed N] [--plies N]` plays a random game (200 plies at most by default) and
  prints it as PGN.
* `pgn FILE` prints each game of a PGN file as a JSON game record.

The program runs against a host that gives the time a computation takes, the contents of
files, and a seed when none is given; it ends with an exit status and what it printed. -/

namespace Cli

/-- What a run of the program leaves: its exit status and what it printed. -/
structure Exit where
  status : Nat
  stdout : String
  deriving Inhabited, Repr

/-- What reading a file gives: its text, or why it could not be opened, or why reading it
failed once it was open (as for a directory). -/
inductive FileRead where
  | contents (text : String)
  | unopenable (reason : String)
  | unreadable (reason : String)
  deriving Inhabited, Repr

/-- What the program needs from where it runs. -/
structure Host (m : Type → Type) where
  /-- Runs a computation and gives its value with the milliseconds it took, as text. -/
  timed : {α : Type} → (Unit → α) → m (α × String)
  /-- Reads a file. -/
  readFile : String → m FileRead
  /-- A seed for a random game. -/
  entropy : m UInt64

def missingFile : String := "No such file or directory (os error 2)"

def directoryFile : String := "Is a directory (os error 21)"

def notDirectory : String := "Not a directory (os error 20)"

def fenArg (required : Bool) : Positional :=
  { name := "FEN", help := "FEN string for a board position", required }

def program : App where
  name := "chesskit"
  version := "0.1.0"
  author := "Sean Gillespie <sean@swgillespie.me>"
  about := "Chess rules engine and game model: legal moves, reversible moves, variation trees"
  commands := [
    { name := "perft", about := "PERFT analysis of board positions",
      switches := [
        { key := "depth", short := some 'd', long := "depth", valueName := some "DEPTH",
          help := "Depth of move tree to search" },
        { key := "divide", long := "divide", help := "Split the final count by root move" }],
      positional := some (fenArg true) },
    { name := "moves", about := "Lists the legal moves of a position",
      positional := some (fenArg false) },
    { name := "suite", about := "Runs a CSV perft suite (fen,depth,nodes)",
      positional := some { name := "FILE", help := "CSV file of perft cases", required := true } },
    { name := "random", about := "Plays a random game and prints it as PGN",
      switches := [
        { key := "seed", long := "seed", valueName := some "SEED",
          help := "Seed for the move picker" },
        { key := "plies", long := "plies", valueName := some "PLIES",
          help := "Maximum number of plies to play" }] },
    { name := "pgn", about := "Converts the games of a PGN file to JSON records",
      positional := some { name := "FILE", help := "PGN file to load games from",
                           required := true } }]

def numberOption (g : Given) (key : String) (bits : Nat) : Option Nat :=
  (g.value? key).bind fun v => (Unsigned.decimal bits v).toOption

def padRight (s : String) (width : Nat) : String := s ++ spaces (width - s.length)

/-- The position named by the `FEN` argument, the standard start when it is missing. -/
def loadBoard (g : Given) : Except String Board :=
  match Board.ofFen (g.positional.headD Fen.standard) with
  | .ok b => .ok b
  | .error e => .error ("invalid fen: " ++ e.message ++ "\n")

variable {m : Type → Type} [Monad m]

def perftLines (host : Host m) (b : Board) : List Nat → m (Bool × String)
  | [] => pure (true, "")
  | d :: rest => do
    let (r, ms) ← host.timed fun _ => b.perft d
    match r with
    | .error e => pure (false, "perft(" ++ toString d ++ ") failed: " ++ e.message ++ "\n")
    | .ok n =>
      let line := "perft(" ++ toString d ++ ") = " ++ toString n ++ " (" ++ ms ++ " ms)\n"
      let (ok, more) ← perftLines host b rest
      pure (ok, line ++ more)

/-- The bound that ends the counted depths, one past the last: computed in 32 bits, so that
the largest depth wraps around to zero and no depth is counted. -/
def depthBound (depth : Nat) : Nat := (depth + 1) % 4294967296

def runPerft (host : Host m) (g : Given) : m Exit := do
  let depth := (numberOption g "depth" 32).getD 1
  match loadBoard g with
  | .error text => pure ⟨1, text⟩
  | .ok b =>
    let head := "fen:   " ++ b.fen ++ "\ndepth: " ++ toString depth ++ "\n\n" ++ b.diagram ++ "\n\n"
    if g.has "divide" then
      match b.perftDivide depth with
      | .error e => pure ⟨1, head ++ "perft failed: " ++ e.message ++ "\n"⟩
      | .ok split =>
        let sorted := split.mergeSort fun x y => decide (x.1 < y.1) || (x.1 = y.1 && x.2 ≤ y.2)
        let lines := String.join (sorted.map fun (uci, n) => uci ++ ": " ++ toString n ++ "\n")
        let total := sorted.foldl (fun t (_, n) => t + n) (0 : UInt64)
        pure ⟨0, head ++ lines ++ "\ntotal: " ++ toString total ++ "\n"⟩
    else
      let (ok, lines) ← perftLines host b (List.range' 1 (depthBound depth - 1))
      pure ⟨if ok then 0 else 1, head ++ lines⟩

def runMoves (g : Given) : Exit :=
  match loadBoard g with
  | .error text => ⟨1, text⟩
  | .ok b =>
    let moves := b.legalMoves.mergeSort fun x y => decide (x.uci ≤ y.uci)
    let lines := String.join (moves.map fun mv => padRight mv.san 8 ++ " " ++ mv.uci ++ "\n")
    let status :=
      if b.isCheckmate then "checkmate\n"
      else if b.isStalemate then "stalemate\n"
      else if b.isCheck then "check\n"
      else ""
    ⟨0, b.diagram ++ "\n\n" ++ lines ++ "\n" ++ toString b.legalMoveCount ++ " legal moves\n" ++
      status⟩

def suiteCase (host : Host m) (c : PerftCase) : m (Bool × String) := do
  match Board.ofFen c.fen with
  | .error e => pure (false, "FAIL " ++ c.fen ++ " (" ++ e.message ++ ")\n")
  | .ok b =>
    let (r, ms) ← host.timed fun _ => b.perft c.depth
    match r with
    | .ok n =>
      if n.toNat = c.nodes then
        pure (true, " ok  " ++ c.fen ++ " depth " ++ toString c.depth ++ " = " ++ toString n ++
          " (" ++ ms ++ " ms)\n")
      else
        pure (false, "FAIL " ++ c.fen ++ " depth " ++ toString c.depth ++ ": expected " ++
          toString c.nodes ++ ", got " ++ toString n ++ "\n")
    | .error e =>
      pure (false, "FAIL " ++ c.fen ++ " depth " ++ toString c.depth ++ " (" ++ e.message ++ ")\n")

/-- The cases of a suite file. A file that opens but cannot be read holds no cases, since the
reader stops at its first failure before any record. -/
def suiteCases : FileRead → Except String (List PerftCase)
  | .contents text => PerftSuite.read text
  | .unopenable reason => .error reason
  | .unreadable _ => .ok []

def runSuite (host : Host m) (g : Given) : m Exit := do
  match suiteCases (← host.readFile (g.positional.headD "")) with
  | .error e => pure ⟨1, "could not read suite: " ++ e ++ "\n"⟩
  | .ok cases =>
    let results ← cases.mapM (suiteCase host)
    let passed := (results.filter (·.1)).length
    let text := String.join (results.map (·.2)) ++ "\n" ++ toString passed ++ " of " ++
      toString cases.length ++ " cases passed\n"
    pure ⟨if passed = cases.length then 0 else 1, text⟩

def runRandom (host : Host m) (g : Given) : m Exit := do
  let seed ← match numberOption g "seed" 64 with
    | some n => pure n.toUInt64
    | none => host.entropy
  let plies := (numberOption g "plies" 64).getD 200
  match RandomGame.generate seed plies with
  | .ok game => pure ⟨0, game.write⟩
  | .error e => pure ⟨1, "random game stopped: " ++ e.message ++ "\n"⟩

/-- The `pgn` command; a file that cannot be read stops the program abnormally. -/
def runPgn (host : Host m) (g : Given) : m Exit := do
  match ← host.readFile (g.positional.headD "") with
  | .unopenable _ | .unreadable _ => pure ⟨101, ""⟩
  | .contents text =>
    match Pgn.read text with
    | .error e => pure ⟨1, "could not read PGN: " ++ e.message ++ "\n"⟩
    | .ok games =>
      pure ⟨0, String.join (games.map fun game =>
        (GameRecord.ofHistory game.history game.result).toText ++ "\n")⟩

def run (host : Host m) (args : List String) : m Exit :=
  match program.parse args with
  | .help text => pure ⟨0, text ++ "\n"⟩
  | .version text => pure ⟨0, text ++ "\n"⟩
  | .invalid => pure ⟨1, ""⟩
  | .usage => pure ⟨1, "USAGE:\n    " ++ program.usage ++ "\n"⟩
  | .run "perft" g => runPerft host g
  | .run "moves" g => pure (runMoves g)
  | .run "suite" g => runSuite host g
  | .run "random" g => runRandom host g
  | .run "pgn" g => runPgn host g
  | .run _ _ => pure ⟨1, "USAGE:\n    " ++ program.usage ++ "\n"⟩

end Cli

end Chess
