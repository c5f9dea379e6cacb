import Chess.Pgn.Grammar
import Chess.Pgn.Game
import Chess.Notation.San

namespace Chess

/-! Reading PGN games into histories. Each game starts from the position of its first `FEN`
tag, or from the standard start; its moves are read in standard algebraic notation and
added to the history, and each variation is played from the position before the move it
replaces. The history is left at its start. Plies are counted through the whole game,
variations included, and name the move that failed. -/

/-- Why PGN text cannot be read. -/
inductive PgnError where
  | malformed (cause : PgnParseError) (text : String)
  | fen (cause : FenError)
  | move (ply : Nat) (text : String) (cause : MoveError)
  | orphanVariation
  deriving Inhabited

namespace PgnError

def message : PgnError → String
  | malformed cause text => "PGN syntax error: " ++ cause.render text
  | fen cause => "bad FEN tag: " ++ cause.message
  | move ply text cause => "move '" ++ text ++ "' at ply " ++ toString ply ++ ": " ++ cause.message
  | orphanVariation => "variation with no move before it"

end PgnError

abbrev PgnReadM := ExceptT PgnError (StateT History Noted)

namespace Pgn

def atPly {α : Type} (ply : Nat) (text : String) (act : HistoryM α) : PgnReadM α :=
  ExceptT.adapt (PgnError.move ply text) act

/-- Plays movetext items after the current node and gives the ply count reached. A move is
read on the current board and added; a variation goes back to the position before the last
move of its line (`beforeLast`, none before the line's first move), plays its items and
returns. -/
def playItems : List PgnItem → Nat → Option (Option NodeId) → PgnReadM Nat
  | [], ply, _ => pure ply
  | .move text :: rest, ply, _ => do
    let ply := ply + 1
    let h ← get
    let parent := h.current
    let read : Except MoveError Move ← monadLift (San.parseNoted h.board text)
    let m ← match read with
      | .ok m => pure m
      | .error e => throw (PgnError.move ply text e)
    discard (atPly ply text (History.add m))
    playItems rest ply (some parent)
  | .variation inner :: rest, ply, beforeLast => do
    let some start := beforeLast | throw PgnError.orphanVariation
    let resume := (← get).current
    atPly ply "(" (History.goTo start)
    let ply ← playItems inner ply none
    atPly ply ")" (History.goTo resume)
    playItems rest ply beforeLast

/-- Plays a line of movetext items after the current node and gives the ply count reached. -/
def playLine (items : List PgnItem) (ply : Nat) : PgnReadM Nat := playItems items ply none

def resultOf (token : String) : Option GameResult :=
  match token with
  | "1-0" => some .whiteWins
  | "0-1" => some .blackWins
  | "1/2-1/2" => some .draw
  | _ => none

def buildGame (g : PgnText) : Noted (Except PgnError PgnGame) := do
  let tags := g.tags.map fun tag => (tag.1, unescape tag.2)
  let board ← match tags.find? (·.1 = "FEN") with
    | some (_, fen) =>
      match ← Board.ofFenNoted fen with
      | .ok b => pure (Except.ok b)
      | .error e => pure (.error (PgnError.fen e))
    | none => pure (.ok (← Board.standardNoted))
  match board with
  | .error e => pure (.error e)
  | .ok b =>
    let act : PgnReadM Unit := do
      let ply ← playLine g.items 0
      atPly ply "" History.rewind
    let (r, h) ← (act.run).run (History.new b)
    match r with
    | .error e => pure (.error e)
    | .ok () =>
      Noted.log .debug ("read PGN game with " ++ toString tags.length ++ " tags")
      pure (.ok { tags := tags.toArray, history := h, result := resultOf g.result })

def readNoted (text : String) : Noted (Except PgnError (List PgnGame)) := do
  match parse text with
  | .error e => pure (.error (.malformed e text))
  | .ok texts =>
    let mut games := #[]
    for g in texts do
      match ← buildGame g with
      | .ok game => games := games.push game
      | .error e => return .error e
    pure (.ok games.toList)

def read (text : String) : Except PgnError (List PgnGame) := (readNoted text).quiet

end Pgn

end Chess
