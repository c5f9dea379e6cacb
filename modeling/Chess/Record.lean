import Chess.History.Play
import Chess.Json.Parse
import Chess.Notation.San

namespace Chess

/-! Game records: a history's main line written as moves in coordinate notation, each with
its SAN for readers and the variations played instead of it, beside the starting FEN and the
result. A record replays into a history by reading every move back from its coordinates, so
the replayed tree has the recorded shape. The JSON form names its fields `fen`, `moves`,
`result`, `uci`, `san` and `variations`; an object's fields may also come as an array in
that order. -/

/-- A recorded move with the lines played instead of it. -/
inductive RecordMove where
  | mk (uci : String) (san : String) (variations : List (List RecordMove))
  deriving Inhabited

/-- A recorded game: the starting position, the main line and the result. -/
structure GameRecord where
  fen : String
  moves : List RecordMove
  result : Option GameResult := none
  deriving Inhabited

/-- Why a record cannot be read or replayed. -/
inductive RecordError where
  | json
  | fen (cause : FenError)
  | move (uci : String) (cause : MoveError)
  deriving Inhabited

namespace RecordError

def message : RecordError → String
  | json => "malformed record"
  | fen cause => "bad starting position: " ++ cause.message
  | move uci cause => "move " ++ uci ++ ": " ++ cause.message

end RecordError

namespace RecordMove

def uci : RecordMove → String
  | mk u _ _ => u

def san : RecordMove → String
  | mk _ s _ => s

def variations : RecordMove → List (List RecordMove)
  | mk _ _ vs => vs

end RecordMove

namespace History

/-- The recorded line from a node along first continuations; a node that is the first of
its siblings carries the lines of the others as variations. At most `fuel` nodes deep. -/
def recordLine (h : History) : Nat → Option NodeId → List RecordMove
  | 0, _ => []
  | _, none => []
  | fuel + 1, some id =>
    match h.get? id with
    | none => []
    | some m =>
      let siblings := (h.continuations? (h.parent? id)).getD #[]
      let variations :=
        if siblings[0]? = some id then
          (siblings.toList.drop 1).map fun v => h.recordLine fuel (some v)
        else []
      let next := (h.continuations? (some id)).bind (·[0]?)
      .mk m.uci m.san variations :: h.recordLine fuel next

end History

namespace GameRecord

def ofHistory (h : History) (result : Option GameResult) : GameRecord :=
  { fen := h.startFen, moves := h.recordLine (h.nodes.size + 1) h.root[0]?, result }

def resultJson : Option GameResult → Json
  | some r => .str r.name
  | none => .null

mutual
/-- A recorded move as JSON; the variations are left out when there are none. -/
def moveJson : RecordMove → Json
  | .mk uci san variations =>
    let base := [("uci", Json.str uci), ("san", Json.str san)]
    match variations with
    | [] => .obj base
    | _ => .obj (base ++ [("variations", .arr (linesJson variations))])

def linesJson : List (List RecordMove) → List Json
  | [] => []
  | line :: rest => .arr (lineJson line) :: linesJson rest

def lineJson : List RecordMove → List Json
  | [] => []
  | m :: rest => moveJson m :: lineJson rest
end

def toJson (r : GameRecord) : Json :=
  .obj [("fen", .str r.fen), ("moves", .arr (lineJson r.moves)), ("result", resultJson r.result)]

def toText (r : GameRecord) : String := Json.pretty 0 r.toJson

/-! Reading a record from JSON. A struct is an object whose known fields each appear at most
once (other fields are skipped), or an array of its fields in order, the optional ones
possibly left off at the end. The readers take the strings they use through `text`, which
gives what a string stands for or refuses it: the identity for a value whose strings are
decoded, `Json.unescape?` for one read with its strings as written. Strings inside skipped
fields are never decoded. -/

/-- The fields of a struct, by name in order; each is present or missing. An object gives
its fields by name, refusing duplicates and keys that are not text; an array gives them by
position and must hold at least `required` of them and no more than all. -/
def structFields (text : String → Option String) (names : List String) (required : Nat)
    (j : Json) : Option (List (Option Json)) :=
  match j with
  | .obj written => do
    let members ← written.mapM fun (k, v) => do pure ((← text k), v)
    let dup := names.any fun n => (members.filter fun (k, _) => k = n).length > 1
    if dup then none
    else some (names.map fun n => (members.find? fun (k, _) => k = n).map (·.2))
  | .arr items =>
    if items.length < required ∨ items.length > names.length then none
    else some (names.map fun n =>
      items[names.idxOf n]?)
  | _ => none

def stringOf (text : String → Option String) : Json → Option String
  | .str s => text s
  | _ => none

def resultNamed? : String → Option GameResult
  | "WhiteWins" => some .whiteWins
  | "BlackWins" => some .blackWins
  | "Draw" => some .draw
  | _ => none

/-- A result: `null`, a result name, or an object holding one result name mapped to
`null`. -/
def resultOf (text : String → Option String) : Json → Option (Option GameResult)
  | .null => some none
  | .str s => do some (← resultNamed? (← text s))
  | .obj [(name, .null)] => do some (← resultNamed? (← text name))
  | _ => none

def itemsOf : Json → Option (List Json)
  | .arr items => some items
  | _ => none

/-- Reads recorded moves from an array entered with `room` levels of nesting left. Entering
an array or object takes one level and needs one to remain after it: the array of moves, each
move, and a move's array of variations take a level each, and each variation is again an
array of moves. -/
def movesOf (text : String → Option String) (room : Nat) (j : Json) :
    Option (List RecordMove) :=
  if room < 2 then none
  else do
    let items ← itemsOf j
    items.mapM fun item => do
      if room < 3 then none
      let fields ← structFields text ["uci", "san", "variations"] 2 item
      match fields with
      | [some u, some s, vs] =>
        let uci ← stringOf text u
        let san ← stringOf text s
        let variations ← match vs with
          | some v => do
            if room < 4 then none
            let lines ← itemsOf v
            lines.mapM (movesOf text (room - 3))
          | none => pure []
        pure (RecordMove.mk uci san variations)
      | _ => none
termination_by room
decreasing_by omega

/-- How many levels of nesting a record may use: a record is refused when its arrays and
objects nest this deep, skipped fields not counted. -/
def nestingLimit : Nat := 128

def ofStrings? (text : String → Option String) (j : Json) : Option GameRecord := do
  let fields ← structFields text ["fen", "moves", "result"] 2 j
  match fields with
  | [some f, some ms, r] =>
    let fen ← stringOf text f
    let moves ← movesOf text (nestingLimit - 1) ms
    let result ← match r with
      | some v => resultOf text v
      | none => pure none
    pure { fen, moves, result }
  | _ => none

def ofJson? (j : Json) : Option GameRecord := ofStrings? some j

/-- Reads a record from JSON text. The text must be JSON throughout, but only the strings the
record uses must stand for text. -/
def ofText (input : String) : Except RecordError GameRecord :=
  match Json.parseWritten? input >>= ofStrings? Json.unescape? with
  | some r => .ok r
  | none => .error .json

end GameRecord

/-- Replaying a record: history operations whose move errors are reported with the move's
coordinates. -/
abbrev ReplayM := ExceptT RecordError (StateT History Noted)

namespace GameRecord

/-- Runs a history operation while replaying the move with the given coordinates. -/
def step {α : Type} (uci : String) (act : HistoryM α) : ReplayM α :=
  ExceptT.adapt (RecordError.move uci) act

mutual

/-- Adds the moves of a line after the current node, each followed by its variations played
from the position before it. -/
def replayLine : List RecordMove → ReplayM Unit
  | [] => pure ()
  | .mk uci _ variations :: rest => do
    let h ← get
    let parent := h.current
    let parsed : Except MoveError Move ← monadLift (Uci.parseNoted h.board uci)
    let m ← match parsed with
      | .ok m => pure m
      | .error e => throw (RecordError.move uci e)
    let node ← step uci (History.add m)
    replayVariations uci parent node variations
    replayLine rest

/-- Plays each line from `parent`, the position before the move with coordinates `uci`, and
comes back to `node`, the node that move made. -/
def replayVariations (uci : String) (parent : Option NodeId) (node : NodeId) :
    List (List RecordMove) → ReplayM Unit
  | [] => pure ()
  | line :: lines => do
    step uci (History.goTo parent)
    replayLine line
    step uci (History.goTo (some node))
    replayVariations uci parent node lines

end

def toHistoryNoted (r : GameRecord) : Noted (Except RecordError History) := do
  match ← Board.ofFenNoted r.fen with
  | .error e => pure (.error (.fen e))
  | .ok b =>
    let act : ReplayM Unit := do
      replayLine r.moves
      step "" History.rewind
    let (res, h) ← (act.run).run (History.new b)
    pure (res.map fun _ => h)

end GameRecord

end Chess
