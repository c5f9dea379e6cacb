import Chess.Script.Game
import Chess.Script.Tree
import Chess.Script.Games
import Chess.Script.Files

namespace Chess

/-! Answering scripted requests. A request is one JSON object naming its operation in `op`;
the answer is `{"ok": value}` or an error object. With `"log": true` the records the library
journaled come along: in the value's `log`, or in the error object's. -/

namespace Script

/-- The answer of a FEN read on its own: the placement as eight rows from rank 8 down, a
space for an empty square, and the other fields as read. -/
def setupJson (st : Setup) : Json :=
  let rows := (List.finRange 8).reverse.map fun r =>
    Json.str (String.ofList ((List.finRange 8).map fun f => st.letterAt f r))
  .obj [("rows", .arr rows), ("side", st.side.toJson),
    ("castling", .str st.castling.letters),
    ("ep", Json.ofOption (fun f => Json.char f.letter) st.enPassant),
    ("halfmove", .nat st.halfmove.toNat), ("fullmove", .nat st.fullmove.toNat)]

abbrev Outcome := Except Json Json

def answerBoard (req : Json) : Noted Outcome := do
  match boardSource req with
  | .error reason => pure (.error (refusalJson reason))
  | .ok source =>
    match ← source.build with
    | .ok b => pure (.ok b.fullJson)
    | .error e => pure (.error e.toJson)

def answerParseFen (req : Json) : Outcome :=
  match text req "fen" with
  | .error reason => .error (refusalJson reason)
  | .ok s =>
    match Fen.parse s with
    | .ok st => .ok (setupJson st)
    | .error e => .error e.toJson

/-- Counts the leaves of the move tree below a request's board, split by first move when
asked. The board is built before the depth is read. -/
def answerPerft (req : Json) : Outcome :=
  match boardSource req with
  | .error reason => .error (refusalJson reason)
  | .ok source =>
    match source.build.quiet with
    | .error e => .error e.toJson
    | .ok b =>
      match index req "depth" with
      | .error reason => .error (refusalJson reason)
      | .ok depth =>
        if depth > 4 then .error (refusalJson "depth too large")
        else if flag req "divide" false then
          match b.perftDivide depth with
          | .ok split =>
            .ok (.obj [("total", .nat (split.foldl (fun n (_, k) => n + k) (0 : UInt64)).toNat),
              ("divide", .arr (split.map fun (uci, n) => .arr [.str uci, .nat n.toNat]))])
          | .error e => .error e.toJson
        else
          match b.perft depth with
          | .ok n => .ok (.obj [("nodes", .nat n.toNat)])
          | .error e => .error e.toJson

def arguments (req : Json) : Field (List String) := do
  let args ← items req "args"
  args.mapM fun
    | .str s => pure s
    | _ => throw "args must be strings"

/-- The text after a time's digits and `" ms)"`, when the characters start with them. -/
def afterTime? (cs : List Char) : Option (List Char) :=
  let digits := cs.takeWhile Char.isDigit
  if digits.isEmpty then none
  else
    match cs.drop digits.length with
    | ' ' :: 'm' :: 's' :: ')' :: after => some after
    | _ => none

/-- Writes every `(` ASCII digits ` ms)` in the characters as `(_ ms)`, from the left and without
overlaps; `fuel`, the number of characters, bounds the steps, each of which takes one. -/
def maskTimes : Nat → List Char → List Char
  | 0, cs => cs
  | _, [] => []
  | fuel + 1, '(' :: rest =>
    match afterTime? rest with
    | some after => "(_ ms)".toList ++ maskTimes fuel after
    | none => '(' :: maskTimes fuel rest
  | fuel + 1, c :: rest => c :: maskTimes fuel rest

/-- Runs the command line of a request: its `args`, where each `@FILE` names the text given
in `file`, on the file system of `requestFiles`. Every time in the output shows as `_`. -/
def answerCli (req : Json) : Outcome :=
  match arguments req with
  | .error reason => .error (refusalJson reason)
  | .ok args =>
    let file := text? req "file"
    let host : Cli.Host Id :=
      { timed := fun f => (f (), "0")
        readFile := fun path => requestFiles file path
        entropy := 0 }
    let exit := Cli.run host args
    let out := exit.stdout.toList
    .ok (.obj [("status", .nat exit.status),
      ("stdout", .str (String.ofList (maskTimes out.length out)))])

def withLog (entries : Array Entry) : Outcome → Outcome
  | .ok v => .ok (v.extend [("log", recordLines entries)])
  | .error e => .error (e.extend [("log", recordLines entries)])

/-- Answers a request by its operation. With `"log": true`, the records left in the journal
go with the answer; counting, the command line and a request without an operation name
journal nothing. -/
def answerRequest (req : Json) : Outcome :=
  let logged := flag req "log" false
  let journaled (act : Noted Outcome) : Outcome :=
    let (r, entries) := act.run #[]
    if logged then withLog entries r else r
  match req.field? "op" with
  | some (.str op) =>
    match op with
    | "board" => journaled (answerBoard req)
    | "parse_fen" => journaled (pure (answerParseFen req))
    | "perft" => answerPerft req
    | "game" => journaled (answerGame req logged)
    | "history" => journaled (answerHistory req logged)
    | "pgn" => journaled (answerPgn req)
    | "record" => journaled (answerRecord req)
    | "cli" => answerCli req
    | other => journaled (pure (.error (refusalJson ("unknown op '" ++ other ++ "'"))))
  | _ => .error (refusalJson "missing op")

/-- Answers one line of text holding a request. A request whose arrays and objects nest 128
levels deep or more, or that holds a number beyond the range of a double, is refused as not
JSON. -/
def answerLine (line : String) : String :=
  let request := (Json.parseNested? 128 line).filter (Json.numbersFit 128)
  let answer := match request with
    | some req =>
      match answerRequest req with
      | .ok v => Json.obj [("ok", v)]
      | .error e => e
    | none => refusalJson "request is not JSON"
  answer.compact

end Script

end Chess
