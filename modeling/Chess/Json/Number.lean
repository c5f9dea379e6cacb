import Chess.Json.Parse

namespace Chess

/-! Numbers of JSON text as a reader of 64-bit values holds them, and how such a reader
writes them back.

A number without fraction or exponent is an unsigned integer when it is below `2^64`, and a
signed one when it is negative down to `-2^63`; every other number, negative zero included,
is a binary64 double. The double is built the fast way rather than the exact one: digits are
gathered into a significand while it stays below `2^64` (later integer digits only scale it,
later fraction digits are dropped), the significand is rounded to a double, and that is
multiplied or divided by the double nearest the power of ten. A product that overflows makes
the text no number; a huge negative exponent gives zero.

A double is written as the shortest decimal that reads back to it, the one nearest its value
when several are as short: plainly with `.0` for a whole number of up to sixteen digits,
plainly for a number below `1e16` or a fraction with at most four zeros after the point, and
in scientific notation otherwise. -/

namespace Json

/-- A number as read: an unsigned or a signed 64-bit integer, or a double. -/
inductive Number where
  | unsigned (n : Nat)
  | signed (n : Int)
  | double (f : Float.Model)

def significandMax : Nat := 18446744073709551615

def tenTo (k : Nat) : Float.Model := Float.Model.ofNat (Nat.pow 10 k)

/-- Gathers decimal digits into a significand while it stays at most `significandMax`: the
significand, how many digits it took, and the digits left from the first that did not fit. -/
def gather : Nat → List Char → Nat × Nat × List Char
  | sig, [] => (sig, 0, [])
  | sig, d :: rest =>
    let next := sig * 10 + (d.toNat - '0'.toNat)
    if next > significandMax then (sig, 0, d :: rest)
    else
      let (s, n, left) := gather next rest
      (s, n + 1, left)

def exponentMax : Int := 2147483647

/-- Reads exponent digits while the value stays within `exponentMax`; none when it would
not. -/
def exponentValue : Int → List Char → Option Int
  | e, [] => some e
  | e, d :: rest =>
    let next := e * 10 + ((d.toNat - '0'.toNat : Nat) : Int)
    if next > exponentMax then none else exponentValue next rest

/-- Scales a double by a power of ten, dividing by `1e308` while the power is beyond the
table; none when a product overflows. `fuel` bounds the divisions. -/
def scaleByTen : Nat → Float.Model → Int → Option Float.Model
  | fuel, f, e =>
    if e.natAbs ≤ 308 then
      if e ≥ 0 then
        let g := f.mul (tenTo e.natAbs)
        if g.isInf then none else some g
      else some (f.div (tenTo e.natAbs))
    else if f.beq (Float.Model.ofNat 0) then some f
    else if e ≥ 0 then none
    else
      match fuel with
      | 0 => some f
      | fuel + 1 => scaleByTen fuel (f.div (tenTo 308)) (e + 308)

/-- The double of a significand times a power of ten, negated for a negative number. -/
def fromParts (negative : Bool) (sig : Nat) (e : Int) : Option Float.Model := do
  let f ← scaleByTen 8 (Float.Model.ofNat sig) e
  pure (if negative then f.neg else f)

def clampExponent (e : Int) : Int :=
  if e > exponentMax then exponentMax else if e < -exponentMax - 1 then -exponentMax - 1 else e

/-- The number a JSON number literal holds; none when it is out of the range of a double. -/
def numberOf (text : String) : Option Number :=
  let (negative, cs) := match text.toList with
    | '-' :: r => (true, r)
    | r => (false, r)
  let (whole, afterWhole) := digits cs
  let (sig, taken, _) := gather 0 whole
  let extra := whole.length - taken
  let (fraction, afterFraction) := match afterWhole with
    | '.' :: r => let (ds, r') := digits r; (some ds, r')
    | r => (none, r)
  let exponent : Option (Bool × List Char) := match afterFraction with
    | e :: r =>
      if e = 'e' ∨ e = 'E' then
        match r with
        | '+' :: x => some (true, (digits x).1)
        | '-' :: x => some (false, (digits x).1)
        | x => some (true, (digits x).1)
      else none
    | [] => none
  match fraction, exponent with
  | none, none =>
    if extra = 0 then
      if !negative then some (.unsigned sig)
      else if sig = 0 ∨ sig > 9223372036854775808 then
        some (.double (Float.Model.ofNat sig).neg)
      else some (.signed (-(sig : Int)))
    else (fromParts negative sig extra).map .double
  | _, _ =>
    let (sig, e) := match fraction with
      | some ds =>
        let (s, n, _) := gather sig ds
        (s, (extra : Int) - n)
      | none => (sig, (extra : Int))
    match exponent with
    | none => (fromParts negative sig e).map .double
    | some (up, ds) =>
      match exponentValue 0 ds with
      | some x =>
        let scale := clampExponent (if up then e + x else e - x)
        (fromParts negative sig scale).map .double
      | none =>
        if sig ≠ 0 ∧ up then none
        else
          let zero := Float.Model.ofNat 0
          some (.double (if negative then zero.neg else zero))

/-- The shortest decimal `q * 10^e` of a positive finite double given by its significand
`m` and binary exponent `b` (value `m * 2^b`), with `lowerHalf` when the gap below it is half
the gap above. Every decimal strictly between the midpoints to the neighbouring doubles reads
back to it, and so do the midpoints themselves when `m` is even. Among the decimals with the
largest power of ten in that range, the one nearest the value is chosen, halfway cases going
to the even digit. `fuel` bounds the powers tried, from one above the value downwards. -/
def shortestDecimal (m : Nat) (b : Int) (lowerHalf : Bool) : Nat × Int :=
  let inclusive := m % 2 = 0
  let value := 4 * m
  let low := if lowerHalf then 4 * m - 1 else 4 * m - 2
  let high := 4 * m + 2
  let s := b - 2
  let den := if s ≥ 0 then 1 else Nat.pow 2 (-s).toNat
  let scaled (x : Nat) : Nat := if s ≥ 0 then x * Nat.pow 2 s.toNat else x
  let start : Int := ((high.log2 + 1 : Nat) + s) * 30103 / 100000 + 3
  go inclusive (scaled value) (scaled low) (scaled high) den start 48
where
  /-- Tries the powers of ten from `e` downwards. -/
  go (inclusive : Bool) (value low high den : Nat) : Int → Nat → Nat × Int
    | e, 0 => (value / den, e)
    | e, fuel + 1 =>
      let step := if e ≥ 0 then den * Nat.pow 10 e.toNat else den
      let up (x : Nat) : Nat := if e ≥ 0 then x else x * Nat.pow 10 (-e).toNat
      let first := if inclusive then (up low + step - 1) / step else up low / step + 1
      let last := if inclusive then up high / step else (up high - 1) / step
      if first ≤ last ∧ 0 < last then
        let q := up value / step
        let r := up value % step
        let near := if 2 * r > step ∨ (2 * r = step ∧ q % 2 = 1) then q + 1 else q
        (max first (min last near), e)
      else go inclusive value low high den (e - 1) fuel

def zeros (n : Nat) : String := String.ofList (List.replicate n '0')

/-- The decimal `q * 10^e` written plainly or in scientific notation, by where its point
falls. -/
def writeDecimal (q : Nat) (e : Int) : String :=
  let ds := toString q
  let n : Int := ds.length
  let point := n + e
  if 0 ≤ e ∧ point ≤ 16 then ds ++ zeros e.toNat ++ ".0"
  else if 0 < point ∧ point ≤ 16 then
    String.ofList (ds.toList.take point.toNat) ++ "."
      ++ String.ofList (ds.toList.drop point.toNat)
  else if -5 < point ∧ point ≤ 0 then "0." ++ zeros (-point).toNat ++ ds
  else if n = 1 then ds ++ "e" ++ toString (point - 1)
  else
    String.ofList (ds.toList.take 1) ++ "." ++ String.ofList (ds.toList.drop 1) ++ "e"
      ++ toString (point - 1)

def writeDouble (f : Float.Model) : String :=
  let bits := f.toBits.toNat
  let sign := if bits / Nat.pow 2 63 = 1 then "-" else ""
  let biased := (bits / Nat.pow 2 52) % 2048
  let fraction := bits % Nat.pow 2 52
  if biased = 0 ∧ fraction = 0 then sign ++ "0.0"
  else
    let (m, b) : Nat × Int :=
      if biased = 0 then (fraction, -1074)
      else (fraction + Nat.pow 2 52, (biased : Int) - 1075)
    let (q, e) := shortestDecimal m b (fraction = 0 ∧ biased > 1)
    sign ++ writeDecimal q e

/-- A number literal as a reader of 64-bit values writes it back: integers as they are,
doubles as their shortest decimal; a literal out of range is kept. -/
def rewriteNumber (text : String) : Json :=
  match numberOf text with
  | some (.double f) => real (writeDouble f)
  | some (.unsigned n) => int n
  | some (.signed n) => int n
  | none => real text

/-- A value as a reader of 64-bit numbers into ordered maps holds it: the members of an
object sorted by key, a repeated key keeping its last value, and numbers as they are written
back. `fuel` bounds the levels rewritten. -/
def asRead : Nat → Json → Json
  | 0, j => j
  | fuel + 1, arr items => arr (items.map (asRead fuel))
  | fuel + 1, obj members =>
    let last := members.foldl (fun acc (k, v) => acc.filter (·.1 ≠ k) ++ [(k, v)]) []
    let sorted := last.mergeSort fun a b => !decide (b.1 < a.1)
    obj (sorted.map fun (k, v) => (k, asRead fuel v))
  | _, int n => rewriteNumber (toString n)
  | _, real t => rewriteNumber t
  | _, j => j

/-- Whether every number of a value is within the range of a double. `fuel` bounds the
levels looked at. -/
def numbersFit : Nat → Json → Bool
  | 0, _ => true
  | fuel + 1, arr items => items.all (numbersFit fuel)
  | fuel + 1, obj members => members.all fun (_, v) => numbersFit fuel v
  | _, int n => (numberOf (toString n)).isSome
  | _, real t => (numberOf t).isSome
  | _, _ => true

end Json

end Chess
