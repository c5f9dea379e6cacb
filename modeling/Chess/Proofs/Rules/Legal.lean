import Chess.Proofs.Rules.Attack

namespace Chess

/-! The legal moves by the rules of chess, said of the position a board shows and not of how
the board finds them. A move of the side to move is named by its origin, destination,
promotion and castle. A piece of the side to move goes where the movement rules take it and
leaves its own king unattacked, a pawn reaching the last rank becoming a queen, rook, bishop
or knight; or the king castles: the right is kept, the squares the king and the rook cross and
land on hold only the two of them, and with both lifted no square of the king's way is
attacked. -/

def CastleSide.kingTo (side : CastleSide) (c : Color) : Square :=
  Square.make side.kingFile (Rank.back c)

def CastleSide.rookTo (side : CastleSide) (c : Color) : Square :=
  Square.make side.rookFile (Rank.back c)

namespace Board

def OpenTo (b : Board) (t : Square) : Prop := ∀ k, b.pieceOn t ≠ some (k, b.side)

/-- Where a piece of kind `k` of the side to move on `o` may go before its king's safety is
considered: a slider along one of its directions up to the first occupied square, a knight or
a king by a step, each onto a square holding no piece of its own side; a pawn one square ahead
onto an empty square, two from its starting rank over two empty squares, diagonally forward
onto a piece of the other side, or diagonally from its en-passant rank onto the empty square of
the board's en-passant file, past a pawn of the other side beside it. -/
inductive Reaches (b : Board) (o : Square) : PieceKind → Square → Prop
  | slide {k : PieceKind} {d : Direction} {t : Square} (dir : d ∈ k.directions)
      (sees : o.Sees d b.occupancy t) (open_ : b.OpenTo t) : Reaches b o k t
  | leap {t : Square} (step : o.knightSteps.contains t = true) (open_ : b.OpenTo t) :
      Reaches b o .knight t
  | step {t : Square} (step : o.kingSteps.contains t = true) (open_ : b.OpenTo t) :
      Reaches b o .king t
  | push {t : Square} (ahead : o.offset? 0 b.side.forward = some t) (empty : b.pieceOn t = none) :
      Reaches b o .pawn t
  | double {one t : Square} (start : o.rank = Rank.pawnStart b.side)
      (ahead : o.offset? 0 b.side.forward = some one) (beyond : one.offset? 0 b.side.forward = some t)
      (emptyOne : b.pieceOn one = none) (empty : b.pieceOn t = none) : Reaches b o .pawn t
  | take {t : Square} {k : PieceKind} (diagonal : (o.pawnAttacks b.side).contains t = true)
      (enemy : b.pieceOn t = some (k, b.side.opponent)) : Reaches b o .pawn t
  | passant {t : Square} (diagonal : (o.pawnAttacks b.side).contains t = true)
      (file : b.enPassant = some t.file) (rank : o.rank = Rank.enPassantFrom b.side)
      (empty : b.pieceOn t = none)
      (beside : b.pieceOn (Square.make t.file o.rank) = some (.pawn, b.side.opponent)) :
      Reaches b o .pawn t

/-- The move from `o` to `t` takes en passant: a pawn goes to another file onto an empty
square, and takes the pawn beside it on the destination's file. -/
def Passant (b : Board) (o t : Square) : Prop :=
  (b.pieceOn o).map Prod.fst = some .pawn ∧ o.file ≠ t.file ∧ b.pieceOn t = none

instance (b : Board) (o t : Square) : Decidable (b.Passant o t) :=
  inferInstanceAs (Decidable (_ ∧ _ ∧ _))

/-- The placement once the piece on `o` goes to `t`, as a `promo` when one is given: `o` is
emptied, and so is the square of a pawn taken en passant. -/
def moved (b : Board) (o t : Square) (promo : Option PieceKind) : Placement := fun s =>
  if s = t then (b.pieceOn o).map fun piece => (promo.getD piece.1, piece.2)
  else if s = o ∨ (b.Passant o t ∧ s = Square.make t.file o.rank) then none
  else b.pieceOn s

def lifted (b : Board) (k r : Square) : Placement := fun s =>
  if s = k ∨ s = r then none else b.pieceOn s

/-- The castle on a wing is open to the side to move, its king on `k` and the wing's castle
rook on `r`: the side keeps the right to castle there; each square the king or the rook crosses
or lands on holds nothing or one of the two; and, both lifted, no square of the king's way,
from `k` to where it lands, is attacked. -/
structure CastleOpen (b : Board) (side : CastleSide) (k r : Square) : Prop where
  right : b.canCastle b.side side = true
  king : b.kingSquare b.side = some k
  rook : ((b.castleRook? b.side side).bind fun id => (b.piece id).square) = some r
  clear : ∀ u, (u = side.kingTo b.side ∨ k.StrictlyBetween (side.kingTo b.side) u ∨
      u = side.rookTo b.side ∨ r.StrictlyBetween (side.rookTo b.side) u) →
    u = k ∨ u = r ∨ b.pieceOn u = none
  safe : ∀ u, (u = k ∨ u = side.kingTo b.side ∨ k.StrictlyBetween (side.kingTo b.side) u) →
    ¬(b.lifted k r).Attacked u b.side.opponent

/-- The moves the rules allow the side to move, by origin, destination, promotion and castle:
a piece of its own goes where it reaches and leaves its king safe, a pawn reaching the last
rank becoming a queen, a rook, a bishop or a knight; or the king castles on an open wing. -/
inductive Legal (b : Board) : Square → Square → Option PieceKind → Option CastleSide → Prop
  | move {o t : Square} {k : PieceKind} (own : b.pieceOn o = some (k, b.side))
      (reaches : b.Reaches o k t) (stays : ¬(k = .pawn ∧ t.rank = Rank.promotion b.side))
      (safe : (b.moved o t none).KingSafe b.side) : Legal b o t none none
  | promote {o t : Square} {k : PieceKind} (own : b.pieceOn o = some (.pawn, b.side))
      (reaches : b.Reaches o .pawn t) (last : t.rank = Rank.promotion b.side)
      (choice : k ∈ [PieceKind.queen, .rook, .bishop, .knight])
      (safe : (b.moved o t (some k)).KingSafe b.side) : Legal b o t (some k) none
  | castle {side : CastleSide} {k r : Square} (open_ : b.CastleOpen side k r) :
      Legal b k (side.kingTo b.side) none (some side)

variable {b : Board} {o t s : Square} {k : PieceKind} {promo : Option PieceKind}

theorem Reaches.ne_origin (reaches : b.Reaches o k t) : t ≠ o := by
  have forward : b.side.forward ≠ 0 := by cases b.side <;> decide
  cases reaches with
  | slide dir sees _ =>
    rintro rfl
    exact PieceKind.not_attacks_self _ b.side _ _ (Or.inl ⟨_, dir, sees⟩)
  | leap step _ =>
    rintro rfl
    exact PieceKind.not_attacks_self _ b.side b.occupancy _ (Or.inr (Or.inl ⟨rfl, step⟩))
  | step step _ =>
    rintro rfl
    exact PieceKind.not_attacks_self _ b.side b.occupancy _ (Or.inr (Or.inr (Or.inl ⟨rfl, step⟩)))
  | push ahead _ =>
    rintro rfl
    have := Square.rank_of_offset? ahead
    omega
  | double _ ahead beyond _ _ =>
    rintro rfl
    have := Square.rank_of_offset? ahead
    have := Square.rank_of_offset? beyond
    omega
  | take diagonal _ =>
    rintro rfl
    exact PieceKind.not_attacks_self _ b.side b.occupancy _ (Or.inr (Or.inr (Or.inr ⟨rfl, diagonal⟩)))
  | passant diagonal _ _ _ _ =>
    rintro rfl
    exact PieceKind.not_attacks_self _ b.side b.occupancy _ (Or.inr (Or.inr (Or.inr ⟨rfl, diagonal⟩)))

theorem Reaches.openTo (reaches : b.Reaches o k t) : b.OpenTo t := by
  cases reaches with
  | slide _ _ open_ => exact open_
  | leap _ open_ => exact open_
  | step _ open_ => exact open_
  | push _ empty | double _ _ _ _ empty | passant _ _ _ empty _ =>
    intro k' held
    rw [empty] at held
    cases held
  | take _ enemy =>
    intro k' held
    rw [enemy] at held
    exact Color.ne_opponent _ (Prod.mk.inj (Option.some.inj held)).2.symm

theorem Reaches.of_passant (reaches : b.Reaches o k t) (own : b.pieceOn o = some (k, b.side))
    (passant : b.Passant o t) :
    k = .pawn ∧ (o.pawnAttacks b.side).contains t = true ∧ b.enPassant = some t.file ∧
      o.rank = Rank.enPassantFrom b.side ∧
      b.pieceOn (Square.make t.file o.rank) = some (.pawn, b.side.opponent) := by
  obtain ⟨pawn, file, empty⟩ := passant
  rw [own] at pawn
  cases Option.some.inj pawn
  cases reaches with
  | slide dir => simp [PieceKind.directions] at dir
  | push ahead =>
    have := Square.file_of_offset? ahead
    exact absurd (File.eq_of_index (by omega)) file
  | double _ ahead beyond =>
    have := Square.file_of_offset? ahead
    have := Square.file_of_offset? beyond
    exact absurd (File.eq_of_index (by omega)) file
  | take _ enemy =>
    rw [empty] at enemy
    cases enemy
  | passant diagonal onFile rank _ beside => exact ⟨rfl, diagonal, onFile, rank, beside⟩

@[simp] theorem moved_target : b.moved o t promo t =
    (b.pieceOn o).map fun piece => (promo.getD piece.1, piece.2) := by
  simp [moved]

@[simp] theorem moved_origin (differ : o ≠ t) : b.moved o t promo o = none := by
  simp [moved, differ]

theorem moved_of_ne (target : s ≠ t) (origin : s ≠ o)
    (passant : ¬(b.Passant o t ∧ s = Square.make t.file o.rank)) : b.moved o t promo s = b.pieceOn s := by
  simp only [moved, target, origin, false_or, if_false, if_neg passant]

theorem occupancy_moved (promo promo' : Option PieceKind) :
    (b.moved o t promo).occupancy = (b.moved o t promo').occupancy :=
  SquareSet.ext fun u => by
    simp only [Placement.contains_occupancy, moved]
    split <;> simp

end Board

end Chess
