import Chess.Json.Value

namespace Chess

/-! Reading JSON text strictly: blanks are space, tab, newline and carriage return; no
trailing commas or comments; numbers without leading zeros; strings without raw control
characters and with the standard escapes; nothing but blanks after the value. A string's
`\u` surrogates must come in pairs for it to stand for text, which is checked when the string
is decoded: always in `parse?`, and only where a reader asks in `parseWritten?`. Every two
levels of the recursion consume input, and a fuel of twice the input's length bounds it. -/

namespace Json

def skipBlank : List Char → List Char
  | c :: rest => if c = ' ' ∨ c = '\t' ∨ c = '\n' ∨ c = '\r' then skipBlank rest else c :: rest
  | [] => []

def hexValue? (c : Char) : Option Nat :=
  if '0' ≤ c ∧ c ≤ '9' then some (c.toNat - '0'.toNat)
  else if 'a' ≤ c ∧ c ≤ 'f' then some (c.toNat - 'a'.toNat + 10)
  else if 'A' ≤ c ∧ c ≤ 'F' then some (c.toNat - 'A'.toNat + 10)
  else none

def hex4? : List Char → Option (Nat × List Char)
  | a :: b :: c :: d :: rest => do
    let va ← hexValue? a
    let vb ← hexValue? b
    let vc ← hexValue? c
    let vd ← hexValue? d
    pure (((va * 16 + vb) * 16 + vc) * 16 + vd, rest)
  | _ => none

def isShortEscape (c : Char) : Bool :=
  c = '"' || c = '\\' || c = '/' || c = 'b' || c = 'f' || c = 'n' || c = 'r' || c = 't'

/-- The rest of a string literal after its opening quote: its characters as written, up to
the closing quote, and the input after it. Raw control characters and malformed escapes are
refused; what a `\u` escape stands for is left to `unescape?`. -/
def scanString : List Char → List Char → Option (List Char × List Char)
  | [], _ => none
  | '"' :: rest, acc => some (acc.reverse, rest)
  | '\\' :: 'u' :: a :: b :: c :: d :: rest, acc =>
    if (hex4? [a, b, c, d]).isSome then scanString rest (d :: c :: b :: a :: 'u' :: '\\' :: acc)
    else none
  | '\\' :: c :: rest, acc =>
    if isShortEscape c then scanString rest (c :: '\\' :: acc) else none
  | c :: rest, acc => if c.toNat < 0x20 then none else scanString rest (c :: acc)

def shortEscape (c : Char) : Char :=
  if c = 'b' then '\x08'
  else if c = 'f' then '\x0c'
  else if c = 'n' then '\n'
  else if c = 'r' then '\r'
  else if c = 't' then '\t'
  else c

/-- The text a string literal's characters stand for, decoding its escapes onto `acc`; a
`\u` escape of a leading surrogate must be followed by one of a trailing surrogate, and a
trailing surrogate may not stand alone. -/
def unescapeChars : List Char → List Char → Option String
  | [], acc => some (String.ofList acc.reverse)
  | '\\' :: 'u' :: a :: b :: c :: d :: rest, acc =>
    match hex4? [a, b, c, d] with
    | some (hi, _) =>
      if 0xD800 ≤ hi ∧ hi < 0xDC00 then
        match rest with
        | '\\' :: 'u' :: a' :: b' :: c' :: d' :: rest' =>
          match hex4? [a', b', c', d'] with
          | some (lo, _) =>
            if 0xDC00 ≤ lo ∧ lo < 0xE000 then
              unescapeChars rest'
                (Char.ofNat (0x10000 + (hi - 0xD800) * 0x400 + (lo - 0xDC00)) :: acc)
            else none
          | none => none
        | _ => none
      else if 0xDC00 ≤ hi ∧ hi < 0xE000 then none
      else unescapeChars rest (Char.ofNat hi :: acc)
    | none => none
  | '\\' :: c :: rest, acc => unescapeChars rest (shortEscape c :: acc)
  | c :: rest, acc => unescapeChars rest (c :: acc)

/-- The text of a string literal's characters as `scanString` gives them, if every escape
stands for a character. -/
def unescape? (written : String) : Option String := unescapeChars written.toList []

def digits (cs : List Char) : List Char × List Char := (cs.takeWhile Char.isDigit, cs.dropWhile Char.isDigit)

def readNumber (cs : List Char) : Option (Json × List Char) := do
  let (neg, r) := match cs with
    | '-' :: r => (true, r)
    | r => (false, r)
  let (whole, r) ← match r with
    | '0' :: r => some (['0'], r)
    | c :: _ => if '1' ≤ c ∧ c ≤ '9' then some (digits r) else none
    | [] => none
  let (frac, r) ← match r with
    | '.' :: r' =>
      let (ds, r'') := digits r'
      if ds.isEmpty then none else some ('.' :: ds, r'')
    | _ => some ([], r)
  let (expo, r) ← match r with
    | e :: r' =>
      if e = 'e' ∨ e = 'E' then
        let (sign, r'') := match r' with
          | '+' :: x => (['+'], x)
          | '-' :: x => (['-'], x)
          | x => ([], x)
        let (ds, r''') := digits r''
        if ds.isEmpty then none else some (e :: sign ++ ds, r''')
      else some ([], r)
    | [] => some ([], r)
  let text := (if neg then ['-'] else []) ++ whole ++ frac ++ expo
  let n := whole.foldl (fun n d => n * 10 + (d.toNat - '0'.toNat)) 0
  if frac.isEmpty ∧ expo.isEmpty ∧ ¬(neg ∧ n = 0) then
    pure (int (if neg then -(n : Int) else n), r)
  else pure (real (String.ofList text), r)

mutual
/-- A value at the front of the input, after blanks; `text` turns the characters of a string
literal, as written, into the string kept. -/
def readValue (text : List Char → Option String) :
    Nat → List Char → Option (Json × List Char)
  | 0, _ => none
  | fuel + 1, cs =>
    match skipBlank cs with
    | 'n' :: 'u' :: 'l' :: 'l' :: r => some (null, r)
    | 't' :: 'r' :: 'u' :: 'e' :: r => some (bool true, r)
    | 'f' :: 'a' :: 'l' :: 's' :: 'e' :: r => some (bool false, r)
    | '"' :: r => do
      let (written, r) ← scanString r []
      pure (str (← text written), r)
    | '[' :: r =>
      match skipBlank r with
      | ']' :: r' => some (arr [], r')
      | _ => readItems text fuel r []
    | '\x7b' :: r =>
      match skipBlank r with
      | '\x7d' :: r' => some (obj [], r')
      | _ => readMembers text fuel r []
    | cs' => readNumber cs'

def readItems (text : List Char → Option String) :
    Nat → List Char → List Json → Option (Json × List Char)
  | 0, _, _ => none
  | fuel + 1, cs, acc => do
    let (v, r) ← readValue text fuel cs
    match skipBlank r with
    | ',' :: r' => readItems text fuel r' (v :: acc)
    | ']' :: r' => some (arr (v :: acc).reverse, r')
    | _ => none

def readMembers (text : List Char → Option String) :
    Nat → List Char → List (String × Json) → Option (Json × List Char)
  | 0, _, _ => none
  | fuel + 1, cs, acc => do
    let r ← match skipBlank cs with
      | '"' :: r => some r
      | _ => none
    let (written, r) ← scanString r []
    let k ← text written
    let r ← match skipBlank r with
      | ':' :: r => some r
      | _ => none
    let (v, r) ← readValue text fuel r
    match skipBlank r with
    | ',' :: r' => readMembers text fuel r' ((k, v) :: acc)
    | '\x7d' :: r' => some (obj ((k, v) :: acc).reverse, r')
    | _ => none
end

/-- Reads a whole text as one JSON value, blanks allowed around it, keeping each string
literal as `text` makes of its characters. -/
def readWhole (text : List Char → Option String) (input : String) : Option Json :=
  let cs := input.toList
  match readValue text (2 * cs.length + 2) cs with
  | some (v, rest) => if (skipBlank rest).isEmpty then some v else none
  | none => none

def parse? (input : String) : Option Json := readWhole (unescapeChars · []) input

/-- Reads a whole text as one JSON value with every string literal, keys included, kept as
written, escapes and all: the text's syntax is checked, and a reader decodes with `unescape?`
only the strings it uses. -/
def parseWritten? (input : String) : Option Json :=
  readWhole (fun cs => some (String.ofList cs)) input

/-- How deeply arrays and objects nest in a value: none for a scalar, and one more than its
deepest item or member for an array or object. Only the first `fuel` levels are counted,
which is exact for a value read from a text of fewer than `fuel` characters. -/
def nesting : Nat → Json → Nat
  | 0, _ => 0
  | fuel + 1, .obj members => 1 + (members.map fun (_, v) => nesting fuel v).foldl max 0
  | fuel + 1, .arr items => 1 + (items.map (nesting fuel)).foldl max 0
  | _, _ => 0

/-- Reads a whole text as one JSON value as `parse?` does, refusing a value whose arrays and
objects nest `limit` levels deep or more. -/
def parseNested? (limit : Nat) (text : String) : Option Json := do
  let v ← parse? text
  if nesting (text.length + 1) v < limit then some v else none

end Json

end Chess
