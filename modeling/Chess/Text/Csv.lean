namespace Chess

/-! Comma-separated records. Fields are separated by `,` and records end at `\n`, at `\r`
or at `\r\n`; blank lines between records are skipped. A field that opens with `"` is
quoted: up to the next lone `"` its text is taken as is, a doubled `""` standing for one
quote, and what follows the closing quote up to the next separator is appended as plain
text. At the end of the text, a record in progress is complete as it stands.

Each record remembers where reading it began: its index among the records, and the line
(from 1) and byte offset at which the previous record's terminator stopped. A record that
ends at `\r` stops right after it, so a following `\n` belongs to the next record's
leading blank lines. A byte-order mark opening the text is skipped, its bytes counted in the
offsets. -/

/-- Where reading a record began. -/
structure CsvPosition where
  record : Nat
  line : Nat
  byte : Nat
  deriving Inhabited, Repr, DecidableEq

/-- One record: its fields and where it began. -/
structure CsvRecord where
  fields : List String
  position : CsvPosition
  deriving Inhabited, Repr

namespace Csv

/-- The reader's place in the text. -/
inductive Place where
  /-- Between records, skipping line ends. -/
  | betweenRecords
  /-- Right after a `\r` that ended a record. -/
  | afterReturn
  /-- At the start of a field. -/
  | fieldStart
  /-- Inside an unquoted field. -/
  | plain
  /-- Inside a quoted field. -/
  | quoted
  /-- Right after a quote inside a quoted field. -/
  | quoteSeen
  deriving Inhabited, DecidableEq

/-- The state of reading: the place, the fields of the record so far, the field being
read, the bytes and lines consumed, where the current record began and the records read. -/
structure Scan where
  place : Place := .betweenRecords
  fields : Array String := #[]
  field : String := ""
  byte : Nat := 0
  line : Nat := 1
  start : CsvPosition := ⟨0, 1, 0⟩
  records : Array CsvRecord := #[]
  deriving Inhabited

namespace Scan

def consume (s : Scan) (c : Char) : Scan :=
  { s with byte := s.byte + c.utf8Size, line := if c = '\n' then s.line + 1 else s.line }

def closeField (s : Scan) : Scan :=
  { s with fields := s.fields.push s.field, field := "" }

def closeRecord (s : Scan) : Scan :=
  let s := s.closeField
  { s with records := s.records.push ⟨s.fields.toList, s.start⟩, fields := #[] }

def isLineEnd (c : Char) : Bool := c = '\n' || c = '\r'

def endLine (s : Scan) (c : Char) : Scan :=
  let s := (s.closeRecord).consume c
  { s with place := if c = '\r' then .afterReturn else .betweenRecords,
           start := ⟨s.start.record + 1, s.line, s.byte⟩ }

def atFieldStart (s : Scan) (c : Char) : Scan :=
  if c = '"' then { s.consume c with place := .quoted }
  else if c = ',' then { (s.consume c).closeField with place := .fieldStart }
  else if isLineEnd c then s.endLine c
  else { s.consume c with field := s.field.push c, place := .plain }

def atRecordStart (s : Scan) (c : Char) : Scan :=
  if isLineEnd c then { s.consume c with place := .betweenRecords } else s.atFieldStart c

def feed (s : Scan) (c : Char) : Scan :=
  match s.place with
  | .betweenRecords => s.atRecordStart c
  | .afterReturn =>
    if c = '\n' then { s.consume c with place := .betweenRecords } else s.atRecordStart c
  | .fieldStart => s.atFieldStart c
  | .plain =>
    if c = ',' then { (s.consume c).closeField with place := .fieldStart }
    else if isLineEnd c then s.endLine c
    else { s.consume c with field := s.field.push c }
  | .quoted =>
    if c = '"' then { s.consume c with place := .quoteSeen }
    else { s.consume c with field := s.field.push c }
  | .quoteSeen =>
    if c = '"' then { s.consume c with field := s.field.push c, place := .quoted }
    else if c = ',' then { (s.consume c).closeField with place := .fieldStart }
    else if isLineEnd c then s.endLine c
    else { s.consume c with field := s.field.push c, place := .plain }

def finish (s : Scan) : Scan :=
  match s.place with
  | .betweenRecords | .afterReturn => s
  | _ => s.closeRecord

end Scan

def records (text : String) : List CsvRecord :=
  match text.toList with
  | '\uFEFF' :: rest =>
    (rest.foldl Scan.feed (({} : Scan).consume '\uFEFF')).finish.records.toList
  | cs => (cs.foldl Scan.feed {}).finish.records.toList

end Csv

end Chess
