namespace Chess

/-! Decoding bytes as UTF-8 text without failing. Each well-formed sequence becomes its
character; each maximal prefix of a sequence that cannot be completed, and each byte that
cannot start one, becomes the replacement character `U+FFFD`. A lead byte fixes how many
continuation bytes follow and the range of the first of them, which excludes overlong
forms, surrogates and code points past `U+10FFFF`. -/

namespace Utf8

def replacement : Char := '�'

/-- How many continuation bytes a lead byte takes; none for a byte that cannot lead. -/
def continuations (lead : UInt8) : Option Nat :=
  if lead < 0x80 then some 0
  else if 0xC2 ≤ lead && lead ≤ 0xDF then some 1
  else if 0xE0 ≤ lead && lead ≤ 0xEF then some 2
  else if 0xF0 ≤ lead && lead ≤ 0xF4 then some 3
  else none

def firstRange (lead : UInt8) : UInt8 × UInt8 :=
  if lead = 0xE0 then (0xA0, 0xBF)
  else if lead = 0xED then (0x80, 0x9F)
  else if lead = 0xF0 then (0x90, 0xBF)
  else if lead = 0xF4 then (0x80, 0x8F)
  else (0x80, 0xBF)

/-- Takes up to `n` continuation bytes, stopping at the first out of its range. -/
def takeContinuations (lead : UInt8) : Nat → Bool → List UInt8 → List UInt8 × List UInt8
  | 0, _, bytes => ([], bytes)
  | _ + 1, _, [] => ([], [])
  | n + 1, first, b :: rest =>
    let (lo, hi) := if first then firstRange lead else (0x80, 0xBF)
    if lo ≤ b && b ≤ hi then
      let (taken, left) := takeContinuations lead n false rest
      (b :: taken, left)
    else ([], b :: rest)

def codePoint (lead : UInt8) (tail : List UInt8) : Nat :=
  let leadBits := match tail.length with
    | 1 => lead.toNat % 0x20
    | 2 => lead.toNat % 0x10
    | _ => lead.toNat % 0x08
  tail.foldl (fun acc b => acc * 64 + b.toNat % 0x40) leadBits

def decodeList : Nat → List UInt8 → List Char
  | 0, _ => []
  | _, [] => []
  | fuel + 1, b :: rest =>
    match continuations b with
    | none => replacement :: decodeList fuel rest
    | some 0 => Char.ofNat b.toNat :: decodeList fuel rest
    | some n =>
      let (taken, left) := takeContinuations b n true rest
      if taken.length = n then Char.ofNat (codePoint b taken) :: decodeList fuel left
      else replacement :: decodeList fuel left

/-- The text of some bytes, with the replacement character for what is not text. -/
def decodeLossy (bytes : ByteArray) : String :=
  match String.fromUTF8? bytes with
  | some s => s
  | none => String.ofList (decodeList bytes.size bytes.toList)

end Utf8

end Chess
