import Chess.Script.Request
import Chess.Perft

namespace Chess

/-! A scripted game: one board, every move built on it in a numbered list, and a stack of
the moves executed through the script. Each step reads its fields, acts on the board and
answers a JSON object; a refused step answers the error and leaves the session as the step
left it, so a move whose execution fails stays in the list. -/

namespace Script

/-- The state of a scripted game. `handedOut` keeps the piece ids that placing and removing
gave back, so that a later step may name them; `foreignBoards` counts the boards built for
moves of another board, each of a lineage of its own. -/
structure GameSession where
  board : Board
  moves : Array Move := #[]
  executed : Array Nat := #[]
  handedOut : Array PieceId := #[]
  foreignBoards : Nat := 0

/-- A step of a scripted game: it may stop with an error answer, keeps the session it
reached, and journals what the library records. -/
abbrev GameStep := ExceptT Json (StateT GameSession Noted)

namespace GameStep

def journal {α : Type} (act : Noted α) : GameStep α := liftM (m := Noted) act

def field {α : Type} (r : Field α) : GameStep α :=
  match r with
  | .ok a => pure a
  | .error reason => throw (refusalJson reason)

def attempt {α : Type} (r : Except MoveError α) : GameStep α :=
  match r with
  | .ok a => pure a
  | .error e => throw e.toJson

def storedMove (i : Nat) : GameStep Move := do
  match (← get).moves[i]? with
  | some m => pure m
  | none => throw (refusalJson "no such move")

/-- The piece standing on the square a request gives under `key`; the refusal names the
key. -/
def pieceOn (key : String) (s : Square) : GameStep PieceId := do
  match (← get).board.occupant s with
  | some id => pure id
  | none => throw (refusalJson ("no piece on " ++ key))

/-- Applies a setup edit, tracing the new board, and answers the compact board. -/
def edit (r : Except MoveError Board) : GameStep Json := do
  let b ← attempt r
  journal (Noted.regenerated b)
  modify fun s => { s with board := b }
  pure (.obj [("board", b.compactJson)])

/-- Builds a move, on a fresh standard board of a new lineage when `foreign`. -/
def buildMove (spec : MoveSpec) (foreign : Bool) : GameStep Move := do
  let s ← get
  let b ← if foreign then do
      let fresh ← journal Board.standardNoted
      set { s with foreignBoards := s.foreignBoards + 1 }
      pure { fresh with lineage := s.foreignBoards + 1 }
    else pure s.board
  attempt (← journal (spec.build b))

def store (m : Move) : GameStep Nat := do
  let s ← get
  set { s with moves := s.moves.push m }
  pure s.moves.size

/-- Executes the stored move at a position; on success the move and board are updated and
the position goes on the executed stack. -/
def executeAt (i : Nat) : GameStep (Except MoveError Move) := do
  let m ← storedMove i
  let s ← get
  match ← journal (m.executeNoted s.board) with
  | .ok (m', b) =>
    set { s with board := b, moves := s.moves.set! i m', executed := s.executed.push i }
    pure (.ok m')
  | .error e => pure (.error e)

/-- Takes back the stored move at a position; on success the position leaves the executed
stack. -/
def unexecuteAt (i : Nat) : GameStep Move := do
  let m ← storedMove i
  let s ← get
  let (m', b) ← attempt (← journal (m.unexecuteNoted s.board))
  set { s with board := b, moves := s.moves.set! i m', executed := s.executed.filter (· ≠ i) }
  pure m'

def moved (m : Move) : GameStep Json := do
  pure (.obj [("move", m.toJson), ("board", (← get).board.compactJson)])

def play (req : Json) (foreign : Bool) : GameStep Json := do
  let spec ← field (moveSpec req)
  let m ← buildMove spec foreign
  let i ← store m
  match ← executeAt i with
  | .ok m' =>
    pure (.obj [("index", .nat i), ("move", m'.toJson), ("board", (← get).board.compactJson)])
  | .error e => throw (e.toJson.extend [("index", .nat i)])

/-- Takes back the move on top of the executed stack; it leaves the stack only when taking
it back succeeds. -/
def undo : GameStep Json := do
  let s ← get
  let some i := s.executed.back? | throw (refusalJson "nothing to undo")
  let m ← unexecuteAt i
  pure (.obj [("index", .nat i), ("move", m.toJson), ("board", (← get).board.compactJson)])

/-- A piece id that the step may name: one in a roster or one handed out earlier. -/
def knownPiece (id : PieceId) : GameStep PieceId := do
  let s ← get
  if (s.board.roster .white).contains id ∨ (s.board.roster .black).contains id
      ∨ s.handedOut.contains id then pure id
  else throw (refusalJson "unknown piece id")

def occupier (req : Json) : GameStep PieceId := do
  if present req "from" then pieceOn "from" (← field (square req "from"))
  else
    let n ← field (index req "id")
    knownPiece ⟨n⟩

/-- Every piece of both rosters, then every id handed out so far, once each in ascending
order: its id, its letter and square, and its label. -/
def pieces : GameStep Json := do
  let s ← get
  let b := s.board
  let listed := (b.roster .white).toList ++ (b.roster .black).toList
  let extra := (s.handedOut.toList.map (·.index)).mergeSort.eraseDups
  let ids := listed ++ extra.map PieceId.mk
  pure (.obj [("pieces", .arr (ids.map fun id =>
    .arr [id.toJson, .str (b.piece id).label, .str id.label]))])

/-- The sets of the piece on a square: its destinations drawn and listed, its guards drawn,
its attacks listed, the number of destinations and the first of them. -/
def sets (sq : Square) : GameStep Json := do
  let id ← pieceOn "sq" sq
  let p := (← get).board.piece id
  pure (.obj [("display", .str p.destinations.diagram), ("debug", .str p.destinations.labels),
    ("guards_display", .str p.guards.diagram), ("attacks_debug", .str p.attacks.labels),
    ("len", .nat p.destinations.card), ("first", Json.ofOption Square.toJson p.destinations.first?)])

/-- The piece of the side to move that can reach a square, or the squares of the candidates
when several can. -/
def origin (req : Json) : GameStep Json := do
  let k ← field (kind req "kind")
  let file ← field (charField "file" fileOf req "file")
  let rank ← field (charField "rank" rankOf req "rank")
  let target ← field (square req "to")
  let b := (← get).board
  match b.getOrigin k file rank target with
  | .ok id =>
    pure (.obj [("id", id.toJson), ("sq", Json.ofOption Square.toJson (b.piece id).square)])
  | .error e =>
    match e with
    | .ambiguous candidates =>
      throw (e.toJson.extend [("candidates",
        Square.listJson (candidates.filterMap fun id => (b.piece id).square))])
    | _ => throw e.toJson

def perform (req : Json) : GameStep Json := do
  let action ← field (text req "do")
  match action with
  | "play" => play req false
  | "foreign" => play req true
  | "build" =>
    let spec ← field (moveSpec req)
    let m ← buildMove spec false
    let i ← store m
    pure (.obj [("index", .nat i), ("move", m.toJson)])
  | "exec" =>
    let i ← field (index req "index")
    let m ← attempt (← executeAt i)
    moved m
  | "unexec" =>
    let i ← field (index req "index")
    let m ← unexecuteAt i
    moved m
  | "undo" => undo
  | "info" =>
    let i ← field (index req "index")
    pure (.obj [("move", (← storedMove i).toJson)])
  | "place" =>
    let k ← field (kind req "kind")
    let c ← field (color req "color")
    let sq ← field (square req "sq")
    let (b, id) ← attempt ((← get).board.placePiece k c sq)
    journal (Noted.regenerated b)
    modify fun s => { s with board := b, handedOut := s.handedOut.push id }
    pure (.obj [("board", b.compactJson), ("id", id.toJson)])
  | "remove" =>
    let sq ← field (square req "sq")
    let (b, id) ← attempt ((← get).board.removePiece sq)
    journal (Noted.regenerated b)
    modify fun s => { s with board := b, handedOut := s.handedOut.push id }
    pure (.obj [("board", b.compactJson), ("id", id.toJson)])
  | "occupy" =>
    let sq ← field (square req "sq")
    let id ← occupier req
    let b := (← get).board
    if b.occupiedBy sq id then
      let b ← attempt (b.setOccupant sq id)
      pure (.obj [("board", b.compactJson)])
    else edit (b.setOccupant sq id)
  | "side" =>
    let c ← field (color req "color")
    edit ((← get).board.setSide c)
  | "ep" =>
    let file ← field (charField "file" fileOf req "file")
    edit ((← get).board.setEnPassant file)
  | "halfmove" =>
    let n ← field (count req "n")
    let b ← attempt ((← get).board.setHalfmove n)
    modify fun s => { s with board := b }
    pure (.obj [("board", b.compactJson)])
  | "fullmove" =>
    let n ← field (count req "n")
    let b ← attempt ((← get).board.setFullmove n)
    modify fun s => { s with board := b }
    pure (.obj [("board", b.compactJson)])
  | "rights" =>
    let c ← field (color req "color")
    let side ← field (sideOf (← field (text req "side")))
    edit ((← get).board.setCastleRights c side (flag req "allowed" true))
  | "state" => pure (.obj [("board", (← get).board.fullJson)])
  | "equals" =>
    let source ← field (boardSource req)
    match ← journal source.build with
    | .ok other => pure (.obj [("equals", .bool ((← get).board.samePosition other))])
    | .error e => throw e.toJson
  | "origin" => origin req
  | "threats" =>
    let sq ← field (square req "sq")
    let by_ ← field (color req "by")
    let b := (← get).board
    pure (.obj [("threats", Square.listJson ((b.threatsTo sq by_).filterMap fun id => (b.piece id).square)),
      ("threatened", .bool (b.isThreatened sq by_)), ("guarded", .bool (b.isGuarded sq by_))])
  | "los" =>
    let sq ← field (square req "sq")
    let target ← field (square req "to")
    let id ← pieceOn "sq" sq
    let line := (← get).board.lineOfSight id target (flag req "inclusive" false)
    pure (.obj [("line", Json.ofOption Square.listJson line)])
  | "piece" =>
    let sq ← field (square req "sq")
    let target ← field (square req "to")
    let id ← pieceOn "sq" sq
    let b := (← get).board
    let (fileUnique, rankUnique) := b.disambiguation id target
    pure (.obj [("legal_destination", .bool (b.isLegalDestination id target)),
      ("legal_attack", .bool (b.isLegalAttack id target)),
      ("file_unique", .bool fileUnique), ("rank_unique", .bool rankUnique)])
  | "can_castle" =>
    let b := (← get).board
    pure (.obj [("can_castle", .arr ([(Color.white, CastleSide.kingside), (.white, .queenside),
      (.black, .kingside), (.black, .queenside)].map fun (c, side) => .bool (b.canCastle c side)))])
  | "perft" =>
    let depth ← field (index req "depth")
    if depth > 3 then throw (refusalJson "depth too large")
    let n ← attempt ((← get).board.perft depth)
    pure (.obj [("nodes", .nat n.toNat)])
  | "dump" =>
    let text := (← get).board.dump
    pure (.obj [("dump", .str text), ("debug", .str text)])
  | "pieces" => pieces
  | "sets" => sets (← field (square req "sq"))
  | other => throw (refusalJson ("unknown step '" ++ other ++ "'"))

end GameStep

/-- Plays a script of steps on a board: the answer of every step, each with the records it
journaled when `withLog`, and the session at the end. -/
def GameSession.runSteps (withLog : Bool) (steps : List Json) (s : GameSession) :
    Noted (List Json × GameSession) := do
  let mut answers := #[]
  let mut session := s
  for req in steps do
    let before ← get
    set (#[] : Array Entry)
    let (r, next) ← StateT.run (ExceptT.run (GameStep.perform req)) session
    let entries ← get
    set (before ++ entries)
    let answer := match r with
      | .ok j => j
      | .error j => j
    answers := answers.push (if withLog then answer.extend [("log", recordLines entries)] else answer)
    session := next
  pure (answers.toList, session)

/-- Answers a game request: the compact starting board and the answer of every step. The
board is built before the steps are read; the journal keeps what no answer took. -/
def answerGame (req : Json) (withLog : Bool) : Noted (Except Json Json) := do
  match boardSource req with
  | .error reason => pure (.error (refusalJson reason))
  | .ok source =>
    match ← source.build with
    | .error e => pure (.error e.toJson)
    | .ok b =>
      let initLog ← get
      set (#[] : Array Entry)
      match items req "steps" with
      | .error reason => pure (.error (refusalJson reason))
      | .ok steps =>
        let (answers, _) ← GameSession.runSteps withLog steps { board := b }
        set (#[] : Array Entry)
        let init := b.compactJson
        let init := if withLog then init.extend [("log", recordLines initLog)] else init
        pure (.ok (.obj [("init", init), ("steps", .arr answers)]))

end Script

end Chess
