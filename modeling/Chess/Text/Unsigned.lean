namespace Chess

/-! Unsigned numbers written in text, bounded by a width in bits. The text is an optional
`+` and then digits of the radix, letters standing for the digits above nine in either
case. Digits are read from the left; the first character that is no digit, or the first
digit that takes the value past the bound, decides the error. -/

/-- Why text is not an unsigned number of a width. -/
inductive UnsignedError where
  | empty
  | invalidDigit
  | tooLarge
  deriving Inhabited, DecidableEq, Repr

namespace UnsignedError

def message : UnsignedError → String
  | empty => "cannot parse integer from empty string"
  | invalidDigit => "invalid digit found in string"
  | tooLarge => "number too large to fit in target type"

end UnsignedError

namespace Unsigned

def digit? (radix : Nat) (c : Char) : Option Nat :=
  let v :=
    if '0' ≤ c && c ≤ '9' then c.toNat - '0'.toNat
    else if 'a' ≤ c && c ≤ 'z' then c.toNat - 'a'.toNat + 10
    else if 'A' ≤ c && c ≤ 'Z' then c.toNat - 'A'.toNat + 10
    else radix
  if v < radix then some v else none

def digits (radix bound : Nat) : Nat → List Char → Except UnsignedError Nat
  | acc, [] => .ok acc
  | acc, c :: rest =>
    match digit? radix c with
    | none => .error .invalidDigit
    | some d =>
      if acc * radix + d > bound then .error .tooLarge
      else digits radix bound (acc * radix + d) rest

def parse (radix bits : Nat) (text : String) : Except UnsignedError Nat :=
  match text.toList with
  | [] => .error .empty
  | ['+'] | ['-'] => .error .invalidDigit
  | '+' :: rest => digits radix (Nat.pow 2 bits - 1) 0 rest
  | cs => digits radix (Nat.pow 2 bits - 1) 0 cs

def decimal (bits : Nat) (text : String) : Except UnsignedError Nat := parse 10 bits text

end Unsigned

end Chess
