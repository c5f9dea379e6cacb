import Chess.Proofs.Board.Regenerate
import Mathlib.Tactic.SplitIfs

namespace Chess

namespace Board

/-! What regeneration reads. A board tracks the pieces its grid, rosters and king references
name; every reader of the rules looks only at those pieces and at the grid, the rosters, the
kings, the side to move and the en-passant file. Two boards that agree on these agree on
every raw reach and castle plan, and regenerate to boards the rules cannot tell apart. -/

def Tracks (b : Board) (id : PieceId) : Prop :=
  (∃ s, b.occupant s = some id) ∨ (∃ c, id ∈ b.roster c) ∨ (∃ c, b.king c = some id)

theorem tracks_of_occupant {b : Board} {s : Square} {id : PieceId} (held : b.occupant s = some id) :
    b.Tracks id :=
  Or.inl ⟨s, held⟩

theorem tracks_of_roster {b : Board} {c : Color} {id : PieceId} (member : id ∈ b.roster c) :
    b.Tracks id :=
  Or.inr (Or.inl ⟨c, member⟩)

theorem tracks_of_king {b : Board} {c : Color} {id : PieceId} (king : b.king c = some id) :
    b.Tracks id :=
  Or.inr (Or.inr ⟨c, king⟩)

/-- Two boards agree when they have the same grid, rosters, kings, side and en-passant file
and their tracked pieces are equal up to caches. -/
structure Agree (x y : Board) : Prop where
  grid : x.grid = y.grid
  roster : ∀ c, x.roster c = y.roster c
  king : ∀ c, x.king c = y.king c
  side : x.side = y.side
  enPassant : x.enPassant = y.enPassant
  piece : ∀ id, x.Tracks id → (x.piece? id).map Piece.bare = (y.piece? id).map Piece.bare

theorem occupant_of_mem_wingRooks {b : Board} {c : Color} {side : CastleSide} {r : PieceId}
    (member : r ∈ b.wingRooks c side) :
    ∃ s, b.occupant s = some r ∧ s.rank = Rank.back c ∧ (b.piece r).color = c ∧
      (b.piece r).kind = .rook := by
  unfold wingRooks at member
  split at member
  · cases member
  · split at member
    · cases member
    · obtain ⟨f, -, found⟩ := List.mem_filterMap.mp member
      dsimp only at found
      split at found
      · rename_i id held
        split at found
        · rename_i rook
          cases found
          exact ⟨_, held, Square.rank_make _ _, rook.1, rook.2⟩
        · cases found
      · cases found

theorem occupant_of_castleRook? {b : Board} {c : Color} {side : CastleSide} {r : PieceId}
    (rook : b.castleRook? c side = some r) :
    ∃ s, b.occupant s = some r ∧ s.rank = Rank.back c ∧ (b.piece r).color = c ∧
      (b.piece r).kind = .rook :=
  occupant_of_mem_wingRooks (List.mem_of_head? rook)

/-- Two boards show the same position to the movement rules: each square is empty on both or
holds pieces of one kind and colour on both, and side to move and en-passant file agree.
Piece ids, rosters and move counts may differ. -/
structure SameView (x y : Board) : Prop where
  pieceAt? : ∀ s, (x.pieceAt? s = none ∧ y.pieceAt? s = none) ∨
    ∃ p q, x.pieceAt? s = some p ∧ y.pieceAt? s = some q ∧ p.kind = q.kind ∧ p.color = q.color
  side : x.side = y.side
  enPassant : x.enPassant = y.enPassant

namespace SameView

variable {x y : Board}

theorem occupied (view : SameView x y) (s : Square) :
    (x.occupant s).isSome = (y.occupant s).isSome := by
  have through (b : Board) : (b.occupant s).isSome = (b.pieceAt? s).isSome := by
    simp [Board.pieceAt?]
  rw [through x, through y]
  rcases view.pieceAt? s with ⟨hx, hy⟩ | ⟨p, q, hx, hy, -, -⟩ <;> simp [hx, hy]

theorem occupancy (view : SameView x y) : x.occupancy = y.occupancy := by
  simp [Board.occupancy, view.occupied]

theorem enPassantVictim? (view : SameView x y) (origin target : Square) (c : Color) :
    x.enPassantVictim? origin target c = y.enPassantVictim? origin target c := by
  unfold Board.enPassantVictim?
  rw [view.enPassant, view.side]
  split
  · rfl
  · rcases view.pieceAt? (Square.make target.file origin.rank) with
      ⟨hx, hy⟩ | ⟨p, q, hx, hy, kind, color⟩
    · simp [hx, hy]
    · simp [hx, hy, kind, color]

theorem stepReach (view : SameView x y) (steps : SquareSet) (c : Color) :
    x.stepReach steps c = y.stepReach steps c := by
  unfold Board.stepReach
  congr 1
  funext r s
  rcases view.pieceAt? s with ⟨hx, hy⟩ | ⟨p, q, hx, hy, -, color⟩
  · simp [hx, hy]
  · simp [hx, hy, color]

theorem rayReach (view : SameView x y) (c : Color) (ownTurn : Bool) :
    ∀ (ray : List Square) (r : Reach), x.rayReach c ownTurn ray r = y.rayReach c ownTurn ray r
  | [], _ => rfl
  | s :: rest, r => by
    have later := rayReach view c ownTurn rest
    rcases view.pieceAt? s with ⟨hx, hy⟩ | ⟨p, q, hx, hy, kind, color⟩
    · simp [Board.rayReach, hx, hy, later]
    · simp [Board.rayReach, hx, hy, kind, color, later]

theorem slideReach (view : SameView x y) (origin : Square) (c : Color) (dirs : List Direction) :
    x.slideReach origin c dirs = y.slideReach origin c dirs := by
  simp only [Board.slideReach, view.side, view.rayReach]

theorem pawnReach (view : SameView x y) (origin : Square) (c : Color) :
    x.pawnReach origin c = y.pawnReach origin c := by
  unfold Board.pawnReach
  simp only [view.side, view.occupied, view.enPassantVictim?]
  congr 1
  funext r s
  rcases view.pieceAt? s with ⟨hx, hy⟩ | ⟨p, q, hx, hy, -, color⟩
  · simp [hx, hy]
  · simp [hx, hy, color]

theorem rawReach (view : SameView x y) (p : Piece) : x.rawReach p = y.rawReach p := by
  simp only [Board.rawReach, view.pawnReach, view.stepReach, view.slideReach]

theorem isAttackedWith (view : SameView x y) (target : Square) (by_ : Color) (occ : SquareSet) :
    x.isAttackedWith target by_ occ = y.isAttackedWith target by_ occ := by
  unfold Board.isAttackedWith
  dsimp only
  congr 1
  · congr 1
    · congr 1
      · congr 1
        funext d
        split
        · rename_i s _
          rcases view.pieceAt? s with ⟨hx, hy⟩ | ⟨p, q, hx, hy, kind, color⟩
          · simp [hx, hy]
          · simp only [hx, hy, color]
            split_ifs <;> simp [kind]
        · rfl
      · congr 1
        funext s
        rcases view.pieceAt? s with ⟨hx, hy⟩ | ⟨p, q, hx, hy, kind, color⟩
        · simp [hx, hy]
        · simp only [hx, hy, color]
          split_ifs <;> simp [kind]
    · congr 1
      funext s
      rcases view.pieceAt? s with ⟨hx, hy⟩ | ⟨p, q, hx, hy, kind, color⟩
      · simp [hx, hy]
      · simp only [hx, hy, color]
        split_ifs <;> simp [kind]
  · congr 1
    funext s
    rcases view.pieceAt? s with ⟨hx, hy⟩ | ⟨p, q, hx, hy, kind, color⟩
    · simp [hx, hy]
    · simp only [hx, hy, color]
      split_ifs <;> simp [kind]

end SameView

namespace Agree

variable {x y z : Board}

theorem refl (b : Board) : Agree b b :=
  ⟨rfl, fun _ => rfl, fun _ => rfl, rfl, rfl, fun _ _ => rfl⟩

theorem occupant (agree : Agree x y) (s : Square) : x.occupant s = y.occupant s := by
  simp [Board.occupant, agree.grid]

theorem tracks_iff (agree : Agree x y) (id : PieceId) : x.Tracks id ↔ y.Tracks id := by
  simp only [Tracks, agree.occupant, agree.roster, agree.king]

theorem symm (agree : Agree x y) : Agree y x :=
  ⟨agree.grid.symm, fun c => (agree.roster c).symm, fun c => (agree.king c).symm,
    agree.side.symm, agree.enPassant.symm,
    fun id tracked => (agree.piece id ((agree.tracks_iff id).mpr tracked)).symm⟩

theorem trans (first : Agree x y) (second : Agree y z) : Agree x z :=
  ⟨first.grid.trans second.grid, fun c => (first.roster c).trans (second.roster c),
    fun c => (first.king c).trans (second.king c), first.side.trans second.side,
    first.enPassant.trans second.enPassant,
    fun id tracked => (first.piece id tracked).trans
      (second.piece id ((first.tracks_iff id).mp tracked))⟩

theorem of_bare (same : x.bare = y.bare) : Agree x y :=
  ⟨congrArg (·.grid) same, roster_of_bare same, king_of_bare same, side_of_bare same,
    enPassant_of_bare same, fun id _ => piece?_of_bare same id⟩

theorem piece_bare (agree : Agree x y) {id : PieceId} (tracked : x.Tracks id) :
    (x.piece id).bare = (y.piece id).bare :=
  Piece.bare_getD (agree.piece id tracked)

theorem kind (agree : Agree x y) {id : PieceId} (tracked : x.Tracks id) :
    (x.piece id).kind = (y.piece id).kind := by
  rw [← Piece.bare_kind, agree.piece_bare tracked, Piece.bare_kind]

theorem color (agree : Agree x y) {id : PieceId} (tracked : x.Tracks id) :
    (x.piece id).color = (y.piece id).color := by
  rw [← Piece.bare_color, agree.piece_bare tracked, Piece.bare_color]

theorem square (agree : Agree x y) {id : PieceId} (tracked : x.Tracks id) :
    (x.piece id).square = (y.piece id).square := by
  rw [← Piece.bare_square, agree.piece_bare tracked, Piece.bare_square]

theorem moveCount (agree : Agree x y) {id : PieceId} (tracked : x.Tracks id) :
    (x.piece id).moveCount = (y.piece id).moveCount := by
  rw [← Piece.bare_moveCount, agree.piece_bare tracked, Piece.bare_moveCount]

theorem pieceAt?_cases (agree : Agree x y) (s : Square) :
    (x.pieceAt? s = none ∧ y.pieceAt? s = none) ∨
      ∃ p q, x.pieceAt? s = some p ∧ y.pieceAt? s = some q ∧ p.kind = q.kind ∧ p.color = q.color := by
  cases held : x.occupant s with
  | none =>
    left
    simp [pieceAt?, held, ← agree.occupant s]
  | some id =>
    right
    have tracked := tracks_of_occupant held
    refine ⟨x.piece id, y.piece id, by simp [pieceAt?, held], ?_, agree.kind tracked,
      agree.color tracked⟩
    simp [pieceAt?, ← agree.occupant s, held]

theorem occupancy (agree : Agree x y) : x.occupancy = y.occupancy := by
  simp [Board.occupancy, agree.occupant]

theorem kingSquare (agree : Agree x y) (c : Color) : x.kingSquare c = y.kingSquare c := by
  unfold Board.kingSquare
  rw [agree.king]
  cases king : y.king c with
  | none => rfl
  | some k =>
    simp only [Option.bind_some]
    exact agree.square (tracks_of_king ((agree.king c).trans king))

theorem toSameView (agree : Agree x y) : SameView x y :=
  ⟨agree.pieceAt?_cases, agree.side, agree.enPassant⟩

theorem enPassantVictim? (agree : Agree x y) (origin target : Square) (c : Color) :
    x.enPassantVictim? origin target c = y.enPassantVictim? origin target c :=
  agree.toSameView.enPassantVictim? origin target c

theorem rawReach (agree : Agree x y) (p : Piece) : x.rawReach p = y.rawReach p :=
  agree.toSameView.rawReach p

theorem isAttackedWith (agree : Agree x y) (target : Square) (by_ : Color) (occ : SquareSet) :
    x.isAttackedWith target by_ occ = y.isAttackedWith target by_ occ :=
  agree.toSameView.isAttackedWith target by_ occ

theorem wingRooks (agree : Agree x y) (c : Color) (side : CastleSide) :
    x.wingRooks c side = y.wingRooks c side := by
  unfold Board.wingRooks
  rw [agree.kingSquare]
  split
  · rfl
  · split
    · rfl
    · dsimp only
      congr 1
      funext f
      rw [agree.occupant]
      split
      · rename_i id held
        have tracked : x.Tracks id := tracks_of_occupant ((agree.occupant _).trans held)
        simp only [agree.color tracked, agree.kind tracked]
      · rfl

theorem castleRook? (agree : Agree x y) (c : Color) (side : CastleSide) :
    x.castleRook? c side = y.castleRook? c side := by
  simp only [Board.castleRook?, agree.wingRooks]

theorem canCastle (agree : Agree x y) (c : Color) (side : CastleSide) :
    x.canCastle c side = y.canCastle c side := by
  unfold Board.canCastle
  rw [← agree.king, ← agree.castleRook?]
  split
  · rfl
  · rename_i k king
    rw [agree.moveCount (tracks_of_king king)]
    split
    · rfl
    · split
      · rename_i r rook
        obtain ⟨s, held, -⟩ := occupant_of_castleRook? rook
        rw [agree.moveCount (tracks_of_occupant held)]
      · rfl

theorem castlePlan? (agree : Agree x y) (c : Color) (side : CastleSide) :
    x.castlePlan? c side = y.castlePlan? c side := by
  unfold Board.castlePlan?
  rw [← agree.canCastle, ← agree.king, ← agree.castleRook?]
  split
  · rfl
  · cases king : x.king c with
    | none => rfl
    | some k =>
      cases rook : x.castleRook? c side with
      | none => rfl
      | some r =>
        obtain ⟨s, held, -⟩ := occupant_of_castleRook? rook
        simp only [Option.bind_eq_bind, Option.bind_some, agree.square (tracks_of_king king),
          agree.square (tracks_of_occupant held)]

theorem castleIsLegal (agree : Agree x y) (plan : CastlePlan) (c : Color) :
    x.castleIsLegal plan c = y.castleIsLegal plan c := by
  simp only [Board.castleIsLegal, agree.occupant, agree.occupancy, agree.isAttackedWith]

end Agree

end Board

end Chess
