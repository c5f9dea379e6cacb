import Chess.Script.Request
import Chess.Record
import Chess.Pgn.Game

namespace Chess

/-! A scripted history: a move tree over one board, walked and reshaped step by step, with a
watcher of the board's events that may be dismissed. Every answer tells where the history
stands afterwards (current node, line and FEN) and the events the watcher saw during the
step; a refused move or walk answers its error with the events and the current node. -/

namespace Script

/-- The state of a scripted history. -/
structure TreeSession where
  history : History
  listening : Bool := true
  foreignBoards : Nat := 0

/-- Why a history step stops: a request it cannot carry out, or a refusal by the history
with its error answer. -/
inductive TreeHalt where
  | refused (reason : String)
  | failed (answer : Json)

abbrev TreeStep := ExceptT TreeHalt (StateT TreeSession Noted)

namespace TreeStep

def journal {α : Type} (act : Noted α) : TreeStep α := monadLift act

def field {α : Type} (r : Field α) : TreeStep α :=
  match r with
  | .ok a => pure a
  | .error reason => throw (.refused reason)

def history {α : Type} (act : HistoryM α) : TreeStep α := do
  let s ← get
  let (r, h) ← journal (History.run act s.history)
  set { s with history := h }
  match r with
  | .ok a => pure a
  | .error e => throw (.failed e.toJson)

def nodeOf (n : Nat) : TreeStep NodeId := do
  if n < (← get).history.nodes.size then pure ⟨n⟩
  else throw (.refused "unknown node")

def node (req : Json) : TreeStep NodeId := do
  nodeOf (← field (index req "node"))

def node? (req : Json) : TreeStep (Option NodeId) := do
  match req.field? "node" with
  | none | some .null => pure none
  | some _ => some <$> node req

def nodeJson (id : Option NodeId) : Json := Json.ofOption (fun (n : NodeId) => .nat n.index) id

def nodesJson (ids : List NodeId) : Json := .arr (ids.map fun n => .nat n.index)

/-- Every existing node in ascending id: its parent, move, move number and continuations. -/
def treeNodes (h : History) : Json :=
  .arr ((List.range h.nodes.size).filterMap fun i =>
    let id : NodeId := ⟨i⟩
    (h.node? id).map fun n =>
      let (number, side) := h.moveNumber n.parent
      .obj [("id", .nat i), ("parent", nodeJson n.parent), ("uci", .str n.move.uci),
        ("san", .str n.move.san), ("number", .nat number.toNat), ("side", side.toJson),
        ("next", nodesJson n.continuations.toList)])

/-- A continuation list: its length, first entry, variations, second entry, all entries and
where the current node stands in it. -/
def continuationsJson (h : History) (list : Array NodeId) : Json :=
  .obj [("len", .nat list.size), ("empty", .bool list.isEmpty), ("main", nodeJson list[0]?),
    ("variations", nodesJson (list.toList.drop 1)), ("get1", nodeJson list[1]?),
    ("all", nodesJson list.toList),
    ("position_of_current", match h.current with
      | some c => Json.ofOption Json.nat (list.toList.idxOf? c)
      | none => .null)]

def resultField (req : Json) : TreeStep (Option GameResult) := do
  match text? req "result" with
  | none => pure none
  | some "1-0" => pure (some .whiteWins)
  | some "0-1" => pure (some .blackWins)
  | some "1/2-1/2" => pure (some .draw)
  | some _ => pure none

def perform (req : Json) : TreeStep Json := do
  match ← field (text req "do") with
  | "add" =>
    let spec ← field (moveSpec req)
    let s ← get
    let b ← if flag req "foreign" false then do
        let fresh ← journal Board.standardNoted
        set { s with foreignBoards := s.foreignBoards + 1 }
        pure { fresh with lineage := s.foreignBoards + 1 }
      else pure s.history.board
    match ← journal (spec.build b) with
    | .error e => throw (.failed e.toJson)
    | .ok m =>
      let id ← history (History.add m)
      pure (.obj [("node", .nat id.index)])
  | "add_move" =>
    let origin ← field (square req "from")
    let target ← field (square req "to")
    let id ← history (History.addMove origin target (← field (promotion req)))
    pure (.obj [("node", .nat id.index)])
  | "next" =>
    let id ← history History.next
    pure (.obj [("node", nodeJson id)])
  | "var" =>
    let i ← field (index req "i")
    let id ← history (History.nextVariation i)
    pure (.obj [("node", nodeJson id)])
  | "prev" =>
    let moved ← history History.prev
    pure (.obj [("moved", .bool moved)])
  | "goto" =>
    let target ← node? req
    history (History.goTo target)
    pure (.obj [])
  | "rewind" =>
    history History.rewind
    pure (.obj [])
  | "ff" =>
    history History.fastforward
    pure (.obj [])
  | "promote" =>
    let id ← node req
    history (History.promote id)
    pure (.obj [])
  | "remove" =>
    let id ← node req
    history (History.remove id)
    pure (.obj [])
  | "truncate" =>
    history History.truncate
    pure (.obj [])
  | "unlisten" =>
    modify fun s => { s with listening := false }
    pure (.obj [])
  | "tree" =>
    let h := (← get).history
    pure (.obj [("root", nodesJson h.root.toList), ("nodes", treeNodes h),
      ("main", nodesJson h.mainLine), ("start_fen", .str h.startFen)])
  | "number" =>
    let at_ ← node? req
    let (number, side) := (← get).history.moveNumber at_
    pure (.obj [("number", .nat number.toNat), ("side", side.toJson)])
  | "contains" =>
    let id ← node req
    let h := (← get).history
    pure (.obj [("contains", .bool (h.contains id)), ("main", .bool (h.isMainLine id)),
      ("parent", nodeJson (h.parent? id)), ("move", Json.ofOption Move.toJson (h.get? id))])
  | "board" => pure (.obj [("board", (← get).history.board.fullJson)])
  | "record" =>
    let result ← resultField req
    pure (.obj [("record", (GameRecord.ofHistory (← get).history result).toJson)])
  | "pgn" =>
    let g : PgnGame := { history := (← get).history }
    pure (.obj [("pgn", .str g.write)])
  | "conts" =>
    let at_ ← node? req
    let h := (← get).history
    pure (.obj [("conts", Json.ofOption (continuationsJson h) (h.continuations? at_))])
  | other => throw (.refused ("unknown step '" ++ other ++ "'"))

end TreeStep

/-- The tree of a history: the start's continuations and every existing node. -/
def TreeSession.treeJson (h : History) : List (String × Json) :=
  [("root", TreeStep.nodesJson h.root.toList), ("nodes", TreeStep.treeNodes h)]

/-- Plays a script of steps on a history: the answer of every step, with the events seen and
the records journaled when `withLog`, and the session at the end. -/
def TreeSession.runSteps (withLog : Bool) (steps : List Json) (s : TreeSession) :
    Noted (List Json × TreeSession) := do
  let mut answers := #[]
  let mut session := s
  for req in steps do
    let before ← get
    set (#[] : Array Entry)
    let listening := session.listening
    let (r, next) ← StateT.run (ExceptT.run (TreeStep.perform req)) session
    let entries ← get
    set (before ++ entries)
    let events := if listening then eventNames entries else .arr []
    let h := next.history
    let current := TreeStep.nodeJson h.current
    let answer := match r with
      | .ok j => j.extend [("current", current), ("line", TreeStep.nodesJson h.currentLine),
          ("fen", .str h.board.fen), ("events", events)]
      | .error (.failed j) => j.extend [("events", events), ("current", current)]
      | .error (.refused reason) => refusalJson reason
    answers := answers.push (if withLog then answer.extend [("log", recordLines entries)] else answer)
    session := next
  pure (answers.toList, session)

/-- Answers a history request: the answer of every step, the final tree and main line. The
board is built before the steps are read; the journal keeps what no answer took. -/
def answerHistory (req : Json) (withLog : Bool) : Noted (Except Json Json) := do
  match boardSource req with
  | .error reason => pure (.error (refusalJson reason))
  | .ok source =>
    match ← source.build with
    | .error e => pure (.error e.toJson)
    | .ok b =>
      let initLog ← get
      set (#[] : Array Entry)
      match items req "steps" with
      | .error reason => pure (.error (refusalJson reason))
      | .ok steps =>
        let (answers, s) ← TreeSession.runSteps withLog steps { history := History.new b }
        set (#[] : Array Entry)
        let h := s.history
        let base := [("steps", Json.arr answers), ("tree", .obj (TreeSession.treeJson h)),
          ("main", TreeStep.nodesJson h.mainLine)]
        let logs := if withLog then [("init_log", recordLines initLog)] else []
        pure (.ok (.obj (base ++ logs)))

end Script

end Chess
