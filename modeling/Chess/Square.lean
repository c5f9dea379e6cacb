namespace Chess

/-! Squares, files, ranks, colours, piece kinds, directions and castle sides: the nouns every
other part of the library is written in. A square's index is `rank * 8 + file`, so squares
ascend a1, b1, …, h1, a2, …, h8. -/

/-- The two sides. -/
inductive Color where
  | white
  | black
  deriving DecidableEq, Repr, Inhabited

namespace Color

def opponent : Color → Color
  | white => black
  | black => white

@[simp] theorem opponent_opponent (c : Color) : c.opponent.opponent = c := by
  cases c <;> rfl

def name : Color → String
  | white => "white"
  | black => "black"

def letter : Color → Char
  | white => 'w'
  | black => 'b'

def forward : Color → Int
  | white => 1
  | black => -1

end Color

/-- A file, `a` to `h`, counted from the queen's side. -/
structure File where
  index : Fin 8
  deriving DecidableEq, Repr, Inhabited

/-- A rank, `1` to `8`, counted from White's side. -/
structure Rank where
  index : Fin 8
  deriving DecidableEq, Repr, Inhabited

namespace File

def letter (f : File) : Char := Char.ofNat ('a'.toNat + f.index.val)

def ofChar? (c : Char) : Option File :=
  if h : 'a'.toNat ≤ c.toNat ∧ c.toNat - 'a'.toNat < 8 then
    some ⟨⟨c.toNat - 'a'.toNat, h.2⟩⟩
  else
    none

def shift? (f : File) (d : Int) : Option File :=
  let i := (f.index.val : Int) + d
  if h : 0 ≤ i ∧ i < 8 then some ⟨⟨i.toNat, by omega⟩⟩ else none

end File

namespace Rank

def digit (r : Rank) : Char := Char.ofNat ('1'.toNat + r.index.val)

def ofChar? (c : Char) : Option Rank :=
  if h : '1'.toNat ≤ c.toNat ∧ c.toNat - '1'.toNat < 8 then
    some ⟨⟨c.toNat - '1'.toNat, h.2⟩⟩
  else
    none

def shift? (r : Rank) (d : Int) : Option Rank :=
  let i := (r.index.val : Int) + d
  if h : 0 ≤ i ∧ i < 8 then some ⟨⟨i.toNat, by omega⟩⟩ else none

def back : Color → Rank
  | .white => ⟨0⟩
  | .black => ⟨7⟩

def pawnStart : Color → Rank
  | .white => ⟨1⟩
  | .black => ⟨6⟩

def enPassantFrom : Color → Rank
  | .white => ⟨4⟩
  | .black => ⟨3⟩

/-- The rank the square passed over by the opponent's double step lies on, seen by the side
to move: rank 6 when White moves, rank 3 when Black moves. -/
def enPassantTarget : Color → Rank
  | .white => ⟨5⟩
  | .black => ⟨2⟩

def promotion : Color → Rank
  | .white => ⟨7⟩
  | .black => ⟨0⟩

end Rank

/-- One of the 64 squares, by its index `rank * 8 + file`. -/
structure Square where
  index : Fin 64
  deriving DecidableEq, Repr, Inhabited

namespace Square

def make (f : File) (r : Rank) : Square :=
  ⟨⟨r.index.val * 8 + f.index.val, by omega⟩⟩

def ofNat (n : Nat) : Square := ⟨⟨n % 64, Nat.mod_lt _ (by decide)⟩⟩

def file (s : Square) : File := ⟨⟨s.index.val % 8, Nat.mod_lt _ (by decide)⟩⟩

def rank (s : Square) : Rank := ⟨⟨s.index.val / 8, by omega⟩⟩

@[simp] theorem file_make (f : File) (r : Rank) : (make f r).file = f := by
  cases f with
  | mk i =>
    simp only [make, file, File.mk.injEq]
    ext
    simp only
    omega

@[simp] theorem rank_make (f : File) (r : Rank) : (make f r).rank = r := by
  cases r with
  | mk i =>
    simp only [make, rank, Rank.mk.injEq]
    ext
    simp only
    omega

def name (s : Square) : String := String.ofList [s.file.letter, s.rank.digit]

/-- The square's name in capitals, such as `E4`, as square lists are shown for inspection. -/
def label (s : Square) : String := String.ofList [s.file.letter.toUpper, s.rank.digit]

def ofName? (text : String) : Option Square :=
  match text.toList with
  | [f, r] => do
    let rank ← Rank.ofChar? r
    let file ← File.ofChar? f
    pure (make file rank)
  | _ => none

def offset? (s : Square) (df dr : Int) : Option Square := do
  let f ← s.file.shift? df
  let r ← s.rank.shift? dr
  pure (make f r)

def all : List Square := (List.finRange 64).map Square.mk

end Square

/-- The kinds of chess pieces. -/
inductive PieceKind where
  | pawn
  | knight
  | bishop
  | rook
  | queen
  | king
  deriving DecidableEq, Repr, Inhabited

namespace PieceKind

def slides : PieceKind → Bool
  | bishop | rook | queen => true
  | _ => false

def value : PieceKind → Nat
  | pawn => 1
  | knight => 3
  | bishop => 3
  | rook => 5
  | queen => 9
  | king => 0

def lower : PieceKind → Char
  | pawn => 'p'
  | knight => 'n'
  | bishop => 'b'
  | rook => 'r'
  | queen => 'q'
  | king => 'k'

def sanLetter? : PieceKind → Option Char
  | pawn => none
  | knight => some 'N'
  | bishop => some 'B'
  | rook => some 'R'
  | queen => some 'Q'
  | king => some 'K'

def ofUpper? : Char → Option PieceKind
  | 'P' => some pawn
  | 'N' => some knight
  | 'B' => some bishop
  | 'R' => some rook
  | 'Q' => some queen
  | 'K' => some king
  | _ => none

def isPromotionTarget : PieceKind → Bool
  | pawn | king => false
  | _ => true

def name (k : PieceKind) : String := String.singleton k.lower

end PieceKind

def pieceLetter (kind : PieceKind) (color : Color) : Char :=
  match color with
  | .white => kind.lower.toUpper
  | .black => kind.lower

/-- Reads a FEN piece letter; an ASCII capital is White, anything else Black. -/
def pieceOfLetter? (c : Char) : Option (PieceKind × Color) :=
  let color := if c.isUpper then Color.white else Color.black
  (PieceKind.ofUpper? c.toUpper).map fun k => (k, color)

/-- The eight compass directions, clockwise from north. -/
inductive Direction where
  | north
  | northEast
  | east
  | southEast
  | south
  | southWest
  | west
  | northWest
  deriving DecidableEq, Repr, Inhabited

namespace Direction

def delta : Direction → Int × Int
  | north => (0, 1)
  | northEast => (1, 1)
  | east => (1, 0)
  | southEast => (1, -1)
  | south => (0, -1)
  | southWest => (-1, -1)
  | west => (-1, 0)
  | northWest => (-1, 1)

def all : List Direction :=
  [north, northEast, east, southEast, south, southWest, west, northWest]

def orthogonal : List Direction := [north, east, south, west]

def diagonal : List Direction := [northEast, southEast, southWest, northWest]

end Direction

def PieceKind.directions : PieceKind → List Direction
  | .bishop => Direction.diagonal
  | .rook => Direction.orthogonal
  | .queen => Direction.all
  | _ => []

/-- The two wings a king castles to. -/
inductive CastleSide where
  | kingside
  | queenside
  deriving DecidableEq, Repr, Inhabited

namespace CastleSide

def all : List CastleSide := [kingside, queenside]

def kingFile : CastleSide → File
  | kingside => ⟨6⟩
  | queenside => ⟨2⟩

def rookFile : CastleSide → File
  | kingside => ⟨5⟩
  | queenside => ⟨3⟩

def san : CastleSide → String
  | kingside => "O-O"
  | queenside => "O-O-O"

def name : CastleSide → String
  | kingside => "Kingside"
  | queenside => "Queenside"

def letter : CastleSide → Char
  | kingside => 'K'
  | queenside => 'Q'

end CastleSide

/-- How a game ended. -/
inductive GameResult where
  | whiteWins
  | blackWins
  | draw
  deriving DecidableEq, Repr, Inhabited

namespace GameResult

def winFor : Color → GameResult
  | .white => whiteWins
  | .black => blackWins

def score : GameResult → String
  | whiteWins => "1-0"
  | blackWins => "0-1"
  | draw => "1/2-1/2"

def name : GameResult → String
  | whiteWins => "WhiteWins"
  | blackWins => "BlackWins"
  | draw => "Draw"

end GameResult

end Chess
