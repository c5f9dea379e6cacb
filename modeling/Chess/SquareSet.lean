import Chess.Square

namespace Chess

/-! Sets of squares packed into one 64-bit word. Listing a set walks the word from bit 0
upward, so every list of squares the library produces from a set is in index order. -/

/-- A set of squares: bit `i` of `bits` is set exactly when the square of index `i` is in
the set. -/
structure SquareSet where
  bits : UInt64
  deriving DecidableEq, Repr, Inhabited

namespace SquareSet

def empty : SquareSet := ⟨0⟩

def single (s : Square) : SquareSet := ⟨(1 : UInt64) <<< s.index.val.toUInt64⟩

def contains (t : SquareSet) (s : Square) : Bool :=
  (t.bits >>> s.index.val.toUInt64) &&& 1 != 0

def insert (t : SquareSet) (s : Square) : SquareSet := ⟨t.bits ||| (single s).bits⟩

def erase (t : SquareSet) (s : Square) : SquareSet := ⟨t.bits &&& ~~~(single s).bits⟩

def union (t u : SquareSet) : SquareSet := ⟨t.bits ||| u.bits⟩

def inter (t u : SquareSet) : SquareSet := ⟨t.bits &&& u.bits⟩

def diff (t u : SquareSet) : SquareSet := ⟨t.bits &&& ~~~u.bits⟩

instance : Union SquareSet := ⟨union⟩
instance : Inter SquareSet := ⟨inter⟩
instance : SDiff SquareSet := ⟨diff⟩

def isEmpty (t : SquareSet) : Bool := t.bits == 0

/-- The number of trailing zeros of a nonzero word: the position of its lowest set bit, the
highest bit of `w ^^^ (w - 1)`, which sets exactly the bits up to it. -/
def trailingZeros (w : UInt64) : Nat := (w ^^^ (w - 1)).log2.toNat

/-- One step of walking a set: the member of lowest index, at the word's number of trailing
zeros, and the rest of the set, the word with that bit cleared by `bits &&& (bits - 1)`;
nothing once the word is zero. -/
def next? (t : SquareSet) : Option (Square × SquareSet) :=
  if t.bits = 0 then none
  else some (Square.ofNat (trailingZeros t.bits), ⟨t.bits &&& (t.bits - 1)⟩)

/-- The squares of the set in index order: the members `next?` hands out until the set is
empty. A word has 64 bits, so 64 steps always empty it. -/
def toList (t : SquareSet) : List Square := drain 64 t
where
  /-- The members handed out in at most `n` steps. -/
  drain : Nat → SquareSet → List Square
    | 0, _ => []
    | n + 1, t =>
      match t.next? with
      | some step => step.1 :: drain n step.2
      | none => []

def card (t : SquareSet) : Nat := t.toList.length

def first? (t : SquareSet) : Option Square := t.toList.head?

def ofList (squares : List Square) : SquareSet := squares.foldl insert empty

def filter (t : SquareSet) (p : Square → Bool) : SquareSet := ofList (t.toList.filter p)

/-- The set drawn as a diagram, rank 8 at the top: ` 1 ` for a member, ` . ` for any other
square, each rank closed by `| rank`, then a rule and the file letters. -/
def diagram (t : SquareSet) : String :=
  let row (r : Fin 8) : String :=
    let cells := (List.finRange 8).map fun f =>
      if t.contains (Square.make ⟨f⟩ ⟨r⟩) then " 1 " else " . "
    String.join cells ++ "| " ++ String.singleton (Rank.digit ⟨r⟩) ++ "\n"
  let rows := (List.finRange 8).reverse.map row
  String.join rows ++ "------------------------\n"
    ++ " a  b  c  d  e  f  g  h \n"

/-- The set written as a brace list of capitalised names, such as `{A1, B8}`. -/
def labels (t : SquareSet) : String :=
  "\x7b" ++ ", ".intercalate (t.toList.map Square.label) ++ "\x7d"

end SquareSet

end Chess
