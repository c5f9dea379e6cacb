import Chess.Script.Request
import Chess.Pgn.Read
import Chess.Record

namespace Chess

/-! Scripted requests on whole games: reading PGN text and replaying game records. Each game
is described by its tags, result, main line, record, start, its PGN text and whether that
text reads back to itself, and where its main line ends. -/

namespace Script

/-- A PGN error as an object: a parse error by line and column, the others by kind and
message with their causes. -/
def pgnErrorJson : PgnError → Json
  | .malformed cause text =>
    let (line, col) := PgnParseError.lineCol text cause.position
    .obj [("error", .str "Syntax"), ("line", .nat line), ("col", .nat col)]
  | .fen cause =>
    .obj [("error", .str "Fen"), ("message", .str (PgnError.fen cause).message),
      ("source", cause.toJson)]
  | .move ply text cause =>
    .obj [("error", .str "Move"), ("message", .str (PgnError.move ply text cause).message),
      ("ply", .nat ply), ("text", .str text), ("source", cause.toJson)]
  | .orphanVariation =>
    .obj [("error", .str "OrphanVariation"), ("message", .str PgnError.orphanVariation.message)]

def recordErrorJson : RecordError → Json
  | .json => .obj [("error", .str "Json")]
  | .fen cause =>
    .obj [("error", .str "Fen"), ("message", .str (RecordError.fen cause).message),
      ("source", cause.toJson)]
  | .move uci cause =>
    .obj [("error", .str "Move"), ("message", .str (RecordError.move uci cause).message),
      ("uci", .str uci), ("source", cause.toJson)]

/-- Where the main line of a history ends: follows it to the end and describes the board
there, or the error that stopped it. -/
def endJson (h : History) : Noted Json := do
  let (r, h) ← History.run History.fastforward h
  match r with
  | .ok () =>
    let b := h.board
    pure (.obj [("fen", .str b.fen), ("checkmate", .bool b.isCheckmate),
      ("stalemate", .bool b.isStalemate), ("check", .bool b.isCheck),
      ("count", .nat b.legalMoveCount)])
  | .error e => pure e.toJson

def mainSans (h : History) : Json :=
  .strs (h.mainLine.filterMap fun id => (h.get? id).map Move.san)

/-- The description of a game read from PGN, with the tags looked up and the PGN text after
the tags are set, when asked. -/
def gameJson (g : PgnGame) (lookup : Option (List (Option String)))
    (setTags : Option (List (String × String))) : Noted Json := do
  let text := g.write
  let reread := match ← Pgn.readNoted text with
    | .ok (again :: _) => Json.bool (again.write = text)
    | .ok [] => .bool false
    | .error _ => .null
  let finish ← endJson g.history
  let base := [
    ("tags", Json.arr (g.tags.toList.map fun (k, v) => .strs [k, v])),
    ("result", GameResult.scoreJson g.result),
    ("main", mainSans g.history),
    ("record", (GameRecord.ofHistory g.history g.result).toJson),
    ("start", .str g.history.board.fen),
    ("pgn", .str text),
    ("reread_same", reread),
    ("end", finish)]
  let looked := match lookup with
    | some names =>
      [("lookup", Json.arr (names.map fun n => Json.ofOption Json.str (n.bind g.tag?)))]
    | none => []
  let edited := match setTags with
    | some pairs =>
      let g' := pairs.foldl (fun g (k, v) => g.setTag k v) g
      [("pgn_after_set", Json.str g'.write)]
    | none => []
  pure (.obj (base ++ looked ++ edited))

/-- Tag names to look up, when the field is an array: each string item names a tag, and any
other item looks up nothing. -/
def lookupNames (req : Json) (key : String) : Option (List (Option String)) :=
  match req.field? key with
  | some (.arr items) => some (items.map fun
      | .str s => some s
      | _ => none)
  | _ => none

/-- Name and value pairs, when the field is an array: each item that is an array starting
with two strings gives a pair, and other items are passed over. -/
def pairs (req : Json) (key : String) : Option (List (String × String)) :=
  match req.field? key with
  | some (.arr items) => some (items.filterMap fun
      | .arr (.str k :: .str v :: _) => some (k, v)
      | _ => none)
  | _ => none

def answerPgn (req : Json) : Noted (Except Json Json) := do
  match text req "text" with
  | .error r => pure (.error (refusalJson r))
  | .ok body =>
    let lookup := lookupNames req "lookup"
    let setTags := pairs req "set_tags"
    match ← Pgn.readNoted body with
    | .error e => pure (.error (pgnErrorJson e))
    | .ok games =>
      let mut described := #[]
      for g in games do
        described := described.push (← gameJson g lookup setTags)
      pure (.ok (.obj [("games", .arr described.toList)]))

/-- A JSON value with repeated object keys reduced to their last value, where the last one
stays in place of the first. -/
def lastKeys : Nat → Json → Json
  | 0, j => j
  | fuel + 1, .obj members =>
    let keep := members.foldl (fun (acc : List (String × Json)) (k, v) =>
      if acc.any (·.1 = k) then acc.map fun (k', v') => if k' = k then (k', v) else (k', v')
      else acc ++ [(k, v)]) []
    .obj (keep.map fun (k, v) => (k, lastKeys fuel v))
  | fuel + 1, .arr items => .arr (items.map (lastKeys fuel))
  | _, j => j

/-- Replays a game record given as a JSON value or as JSON text, and describes the game. -/
def answerRecord (req : Json) : Noted (Except Json Json) := do
  let parsed : Except Json GameRecord :=
    match req.field? "record" with
    | some v =>
      let bound := Json.nesting 1000 v + 1
      match GameRecord.ofJson? (lastKeys bound v) with
      | some r => .ok r
      | none => .error (recordErrorJson .json)
    | none =>
      match text req "json" with
      | .error reason => .error (refusalJson reason)
      | .ok s =>
        match GameRecord.ofText s with
        | .ok r => .ok r
        | .error e => .error (recordErrorJson e)
  match parsed with
  | .error e => pure (.error e)
  | .ok r =>
    match ← r.toHistoryNoted with
    | .error e => pure (.error (recordErrorJson e))
    | .ok h =>
      let g : PgnGame := { history := h }
      let finish ← endJson h
      pure (.ok (.obj [("main", mainSans h), ("record", (GameRecord.ofHistory h r.result).toJson),
        ("start", .str h.board.fen), ("result", GameResult.scoreJson r.result),
        ("pgn", .str g.write), ("end", finish)]))

end Script

end Chess
