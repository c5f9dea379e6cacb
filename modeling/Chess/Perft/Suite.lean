import Chess.Text.Csv
import Chess.Text.Unsigned

namespace Chess

/-! Perft suites: CSV files of positions with the leaf counts expected below them. The first
record names the columns; the columns `fen`, `depth` (32 bits) and `nodes` (64 bits) are
read by name in any order, other columns are ignored, and a number may be written in
hexadecimal after `0x`. Every record must have as many fields as the first. Reading stops
at the first bad record, whose error tells where that record began. -/

/-- One case of a suite: the leaf count expected `depth` plies below a position. -/
structure PerftCase where
  fen : String
  depth : Nat
  nodes : Nat
  deriving Inhabited, Repr

namespace PerftSuite

def place (p : CsvPosition) : String :=
  "record " ++ toString p.record ++ " (line: " ++ toString p.line ++ ", byte: " ++
    toString p.byte ++ ")"

def number (bits : Nat) (text : String) : Except UnsignedError Nat :=
  if text.startsWith "0x" then Unsigned.parse 16 bits (String.ofList (text.toList.drop 2))
  else Unsigned.decimal bits text

/-- The fields read so far from a record. -/
structure Partial where
  fen : Option String := none
  depth : Option Nat := none
  nodes : Option Nat := none

def readField (acc : Partial) (column : Nat) (name value : String) : Except String Partial :=
  let bad (e : UnsignedError) : String := "field " ++ toString column ++ ": " ++ e.message
  match name with
  | "fen" =>
    if acc.fen.isSome then .error "duplicate field `fen`" else .ok { acc with fen := some value }
  | "depth" =>
    if acc.depth.isSome then .error "duplicate field `depth`"
    else match number 32 value with
      | .ok n => .ok { acc with depth := some n }
      | .error e => .error (bad e)
  | "nodes" =>
    if acc.nodes.isSome then .error "duplicate field `nodes`"
    else match number 64 value with
      | .ok n => .ok { acc with nodes := some n }
      | .error e => .error (bad e)
  | _ => .ok acc

def caseOf (names : List String) (r : CsvRecord) : Except String PerftCase := do
  let columns := (names.zip r.fields).zipIdx
  let acc ← columns.foldlM (fun acc ((name, value), i) => readField acc i name value) {}
  let some fen := acc.fen | throw "missing field `fen`"
  let some depth := acc.depth | throw "missing field `depth`"
  let some nodes := acc.nodes | throw "missing field `nodes`"
  pure { fen, depth, nodes }

def cases (names : List String) : List CsvRecord → Except String (List PerftCase)
  | [] => .ok []
  | r :: rest =>
    if r.fields.length ≠ names.length then
      .error ("CSV error: " ++ place r.position ++ ": found record with " ++
        toString r.fields.length ++ " fields, but the previous record has " ++
        toString names.length ++ " fields")
    else
      match caseOf names r with
      | .error e => .error ("CSV deserialize error: " ++ place r.position ++ ": " ++ e)
      | .ok c => (c :: ·) <$> cases names rest

def read (text : String) : Except String (List PerftCase) :=
  match Csv.records text with
  | [] => .ok []
  | header :: rest => cases header.fields rest

end PerftSuite

end Chess
