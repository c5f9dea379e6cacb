import Chess.Proofs.Board.Lookalike
import Chess.Proofs.Move.Listed

namespace Chess

/-! Boards equal as positions follow the same rules. Two coherent, settled boards with the same
side to move, en-passant file, placement and castling rights have the same legal moves, read as
origin, target, promotion and castle, the same count of legal moves, the same check, mate and
stalemate, the same castle destinations and the same squares of the pieces giving check. Their
piece ids, roster orders, captured pieces and move counts may differ, as between a board reached
by play and the board read back from its FEN. -/

theorem Square.make_file_rank (s : Square) : Square.make s.file s.rank = s := by
  obtain ⟨⟨i, bound⟩⟩ := s
  simp only [make, file, rank, Square.mk.injEq]
  ext
  simp only
  omega

theorem pieceOfLetter?_pieceLetter (kind : PieceKind) (color : Color) :
    pieceOfLetter? (pieceLetter kind color) = some (kind, color) := by
  cases kind <;> cases color <;> rfl

theorem pieceOfLetter?_blank : pieceOfLetter? ' ' = none := rfl

def Move.summary (m : Move) : Square × Square × Option PieceKind × Option CastleSide :=
  (m.origin, m.target, m.promotion, m.castle)

theorem Move.summary_knownLegal (b : Board) (piece : PieceId) (origin target : Square)
    (promotion : Option PieceKind) (castle : Option CastleSide) :
    (Move.knownLegal b piece origin target promotion castle).summary =
      (origin, target, promotion, castle) := by
  cases castle <;> rfl

def Status.castleMoves (st : Status) : List (Square × Square × Option PieceKind × Option CastleSide) :=
  CastleSide.all.filterMap fun side =>
    (st.castle side).map fun plan => (plan.kingFrom, plan.kingTo, none, some side)

/-- The legal moves a piece of side `us` on `origin` shows, as origin, target, promotion and
castle: a pawn target on the promotion rank once for each of queen, rook, bishop and knight. -/
def Sight.moves (us : Color) (origin : Square) (v : Sight) :
    List (Square × Square × Option PieceKind × Option CastleSide) :=
  v.targets.toList.flatMap fun s =>
    if v.kind = .pawn ∧ s.rank = Rank.promotion us then
      [PieceKind.queen, .rook, .bishop, .knight].map fun k => (origin, s, some k, none)
    else [(origin, s, none, none)]

namespace Board

def letterOn (b : Board) (s : Square) : Char := ((b.pieceAt? s).map Piece.letter).getD ' '

theorem placement_get (b : Board) (f r : Fin 8) :
    (b.placement.get f).get r = b.letterOn (Square.make ⟨f⟩ ⟨r⟩) := by
  have get_ofFn {α : Type} (g : Fin 8 → α) (i : Fin 8) : (Vector.ofFn g).get i = g i :=
    Vector.getElem_ofFn i.isLt
  unfold placement letterOn
  rw [get_ofFn, get_ofFn]
  cases b.pieceAt? (Square.make ⟨f⟩ ⟨r⟩) <;> rfl

theorem pieceOfLetter?_letterOn (b : Board) (s : Square) :
    pieceOfLetter? (b.letterOn s) = (b.pieceAt? s).map fun p => (p.kind, p.color) := by
  unfold letterOn
  cases b.pieceAt? s with
  | none => exact pieceOfLetter?_blank
  | some p => exact pieceOfLetter?_pieceLetter p.kind p.color

theorem letterOn_eq_of_placement {x y : Board} (placement : x.placement = y.placement)
    (s : Square) : x.letterOn s = y.letterOn s := by
  rw [← Square.make_file_rank s, ← placement_get, ← placement_get, placement]

theorem samePosition_iff_letterOn {x y : Board} :
    x.samePosition y = true ↔ x.side = y.side ∧ x.enPassant = y.enPassant ∧
      (∀ f r : Fin 8, x.letterOn (Square.make ⟨f⟩ ⟨r⟩) = y.letterOn (Square.make ⟨f⟩ ⟨r⟩)) ∧
      x.castleRights = y.castleRights := by
  simp only [samePosition, Bool.and_eq_true, decide_eq_true_eq]
  constructor
  · rintro ⟨⟨⟨side, enPassant⟩, placement⟩, rights⟩
    exact ⟨side, enPassant, fun f r => letterOn_eq_of_placement placement _, rights⟩
  · rintro ⟨side, enPassant, letters, rights⟩
    refine ⟨⟨⟨side, enPassant⟩, ?_⟩, rights⟩
    refine Vector.ext fun f hf => Vector.ext fun r hr => ?_
    have shown := letters ⟨f, hf⟩ ⟨r, hr⟩
    rwa [← placement_get, ← placement_get] at shown

theorem sameView_of_samePosition {x y : Board} (same : x.samePosition y = true) : SameView x y := by
  simp only [samePosition, Bool.and_eq_true, decide_eq_true_eq] at same
  obtain ⟨⟨⟨side, enPassant⟩, placement⟩, -⟩ := same
  refine ⟨fun s => ?_, side, enPassant⟩
  have shown := congrArg pieceOfLetter? (letterOn_eq_of_placement placement s)
  rw [pieceOfLetter?_letterOn, pieceOfLetter?_letterOn] at shown
  cases hx : x.pieceAt? s with
  | none =>
    rw [hx] at shown
    exact Or.inl ⟨rfl, Option.map_eq_none_iff.mp shown.symm⟩
  | some p =>
    rw [hx] at shown
    obtain ⟨q, hy, kinds⟩ := Option.map_eq_some_iff.mp shown.symm
    obtain ⟨kind, color⟩ := Prod.mk.inj kinds
    exact Or.inr ⟨p, q, rfl, hy, kind.symm, color.symm⟩

theorem canCastle_of_samePosition {x y : Board} (same : x.samePosition y = true) (c : Color)
    (side : CastleSide) : x.canCastle c side = y.canCastle c side := by
  simp only [samePosition, Bool.and_eq_true, decide_eq_true_eq] at same
  obtain ⟨whiteKingside, whiteQueenside, blackKingside, blackQueenside⟩ :=
    CastleRights.mk.inj same.2
  cases c <;> cases side
  · exact whiteKingside
  · exact whiteQueenside
  · exact blackKingside
  · exact blackQueenside

theorem Same.sightOn {x y : Board} (same : Same x y) (s : Square) : x.sightOn s = y.sightOn s := by
  unfold Board.sightOn
  rw [← same.occupant]
  cases held : x.occupant s with
  | none => rfl
  | some id => simp [same.piece?_eq id (tracks_of_occupant held)]

theorem Lookalike.of_same {x x' y y' : Board} (left : Same x x') (look : Lookalike x' y')
    (right : Same y y') : Lookalike x y :=
  ⟨fun s => (left.sightOn s).trans ((look.sight s).trans (right.sightOn s).symm),
    left.side.trans (look.side.trans right.side.symm),
    left.enPassant.trans (look.enPassant.trans right.enPassant.symm),
    by rw [left.status, right.status]; exact look.status⟩

theorem lookalike_of_samePosition {x y : Board} (cx : x.Coherent) (cy : y.Coherent)
    (sx : x.Settled) (sy : y.Settled) (same : x.samePosition y = true) : Lookalike x y :=
  Lookalike.of_same sx (lookalike_regenerate cx cy (sameView_of_samePosition same)
    (canCastle_of_samePosition same)) sy

/-! ### What the rules show -/

theorem legalMoves_summary (b : Board) :
    b.legalMoves.map Move.summary =
      ((b.roster b.side).toList.flatMap fun id =>
        (b.piece id).square.elim [] fun origin => (b.piece id).sight.moves b.side origin) ++
      b.status.castleMoves := by
  unfold legalMoves
  rw [List.map_append, List.map_flatMap, List.map_filterMap]
  congr 1
  · congr 1
    funext id
    dsimp only
    cases (b.piece id).square with
    | none => rfl
    | some origin =>
      simp only [Option.elim_some, Sight.moves, List.map_flatMap, Piece.sight]
      congr 1
      funext s
      by_cases promotes : (b.piece id).kind = .pawn ∧ s.rank = Rank.promotion b.side <;>
        simp [promotes, Move.summary_knownLegal]
  · simp only [Status.castleMoves, legalCastle?, Option.map_map]
    congr 1

theorem Coherent.mem_legalMoves_summary {b : Board} (coherent : b.Coherent)
    (m : Square × Square × Option PieceKind × Option CastleSide) :
    m ∈ b.legalMoves.map Move.summary ↔
      (∃ origin id, b.occupant origin = some id ∧
        ((b.piece id).color = b.side ∧ m ∈ (b.piece id).sight.moves b.side origin)) ∨
      m ∈ b.status.castleMoves := by
  rw [legalMoves_summary, List.mem_append, List.mem_flatMap]
  apply or_congr_left
  constructor
  · rintro ⟨id, member, moves⟩
    have member := Array.mem_toList_iff.mp member
    cases square : (b.piece id).square with
    | none => simp [square] at moves
    | some origin =>
      rw [square, Option.elim_some] at moves
      exact ⟨origin, id, coherent.occupant_of_square square, coherent.color_of_roster member, moves⟩
  · rintro ⟨origin, id, held, color, moves⟩
    refine ⟨id, Array.mem_toList_iff.mpr ((coherent.mem_roster_iff_of_occupant held _).mpr color), ?_⟩
    rw [coherent.piece_square_of_occupant held, Option.elim_some]
    exact moves

theorem Coherent.checkers_squares {b : Board} (coherent : b.Coherent) :
    b.checkers.filterMap (fun id => (b.piece id).square) =
      b.status.checkers.toList.filterMap fun s => (b.occupant s).map fun _ => s := by
  rw [checkers, List.filterMap_filterMap]
  refine List.filterMap_congr fun s _ => ?_
  cases held : b.occupant s with
  | none => rfl
  | some id => simp [coherent.piece_square_of_occupant held]

namespace Lookalike

variable {x y : Board}

theorem mem_legalMoves_summary (look : Lookalike x y) (cx : x.Coherent) (cy : y.Coherent)
    (m : Square × Square × Option PieceKind × Option CastleSide) :
    m ∈ x.legalMoves.map Move.summary ↔ m ∈ y.legalMoves.map Move.summary := by
  have castles : x.status.castleMoves = y.status.castleMoves := by
    unfold Status.castleMoves
    congr 1
    funext side
    exact Status.castle_map_of_sight look.status side _ fun _ => rfl
  rw [cx.mem_legalMoves_summary, cy.mem_legalMoves_summary, castles, look.side]
  refine or_congr_left (look.exists_occupant_iff cx cy fun s ix iy hx hy => ?_)
  rw [look.sight_piece cx cy hx hy]
  obtain ⟨-, color, -, -, -, -⟩ := Sight.mk.inj (look.sight_piece cx cy hx hy)
  rw [color]

theorem status_fields (look : Lookalike x y) :
    x.status.hasKing = y.status.hasKing ∧ x.status.checkers = y.status.checkers ∧
      x.status.legalCount = y.status.legalCount := by
  have hasKing := congrArg Status.hasKing look.status
  have checkers := congrArg Status.checkers look.status
  have legalCount := congrArg Status.legalCount look.status
  exact ⟨hasKing, checkers, legalCount⟩

theorem legalMoveCount (look : Lookalike x y) : x.legalMoveCount = y.legalMoveCount :=
  look.status_fields.2.2

theorem isCheck (look : Lookalike x y) : x.isCheck = y.isCheck := by
  rw [Board.isCheck, Board.isCheck, look.status_fields.2.1]

theorem isDoubleCheck (look : Lookalike x y) : x.isDoubleCheck = y.isDoubleCheck := by
  rw [Board.isDoubleCheck, Board.isDoubleCheck, look.status_fields.2.1]

theorem isCheckmate (look : Lookalike x y) : x.isCheckmate = y.isCheckmate := by
  rw [Board.isCheckmate, Board.isCheckmate, look.isCheck, look.status_fields.2.2]

theorem isStalemate (look : Lookalike x y) : x.isStalemate = y.isStalemate := by
  rw [Board.isStalemate, Board.isStalemate, look.isCheck, look.status_fields.1,
    look.status_fields.2.2]

theorem castleDestinations (look : Lookalike x y) : x.castleDestinations = y.castleDestinations := by
  unfold Board.castleDestinations legalCastle?
  congr 1
  funext side
  exact Status.castle_map_of_sight look.status side _ fun _ => rfl

theorem checkers_squares (look : Lookalike x y) (cx : x.Coherent) (cy : y.Coherent) :
    x.checkers.filterMap (fun id => (x.piece id).square) =
      y.checkers.filterMap (fun id => (y.piece id).square) := by
  rw [cx.checkers_squares, cy.checkers_squares, look.status_fields.2.1]
  refine List.filterMap_congr fun s _ => ?_
  cases hx : x.occupant s with
  | none => rw [(look.occupant_eq_none_iff cx cy s).mp hx]
  | some ix =>
    obtain ⟨iy, hy⟩ := look.exists_occupant cx cy hx
    rw [hy]
    rfl

end Lookalike

/-- Boards equal as positions follow the same rules: coherent settled boards with the same side
to move, en-passant file, placement and castling rights have the same legal moves as origin,
target, promotion and castle, the same count of legal moves, check, double check, mate,
stalemate and castle destinations, and their pieces giving check stand on the same squares. -/
theorem rules_of_samePosition {x y : Board} (cx : x.Coherent) (cy : y.Coherent)
    (sx : x.Settled) (sy : y.Settled) (same : x.samePosition y = true) :
    (∀ m, m ∈ x.legalMoves.map Move.summary ↔ m ∈ y.legalMoves.map Move.summary) ∧
      x.legalMoveCount = y.legalMoveCount ∧ x.isCheck = y.isCheck ∧
      x.isDoubleCheck = y.isDoubleCheck ∧ x.isCheckmate = y.isCheckmate ∧
      x.isStalemate = y.isStalemate ∧ x.castleDestinations = y.castleDestinations ∧
      x.checkers.filterMap (fun id => (x.piece id).square) =
        y.checkers.filterMap (fun id => (y.piece id).square) := by
  have look := lookalike_of_samePosition cx cy sx sy same
  exact ⟨look.mem_legalMoves_summary cx cy, look.legalMoveCount, look.isCheck, look.isDoubleCheck,
    look.isCheckmate, look.isStalemate, look.castleDestinations, look.checkers_squares cx cy⟩

/-- The standard board and the board read from its FEN text hold their pieces under other ids
(the knight on b1 is another piece), yet they are the same position, so the rules agree on
them. -/
theorem rules_of_samePosition_fromFen :
    ∃ y, Board.ofFen "rnbqkbnr/pppppppp/8/8/8/8/PPPPPPPP/RNBQKBNR w KQkq - 0 1" = .ok y ∧
      Board.standard.occupant (Square.ofNat 1) ≠ y.occupant (Square.ofNat 1) ∧
      Board.standard.Coherent ∧ y.Coherent ∧ Board.standard.Settled ∧ y.Settled ∧
      Board.standard.samePosition y = true ∧
      ((∀ m, m ∈ Board.standard.legalMoves.map Move.summary ↔ m ∈ y.legalMoves.map Move.summary) ∧
        Board.standard.legalMoveCount = y.legalMoveCount ∧ Board.standard.isCheck = y.isCheck ∧
        Board.standard.isDoubleCheck = y.isDoubleCheck ∧
        Board.standard.isCheckmate = y.isCheckmate ∧ Board.standard.isStalemate = y.isStalemate ∧
        Board.standard.castleDestinations = y.castleDestinations ∧
        Board.standard.checkers.filterMap (fun id => (Board.standard.piece id).square) =
          y.checkers.filterMap (fun id => (y.piece id).square)) := by
  have checked : (Board.ofFen "rnbqkbnr/pppppppp/8/8/8/8/PPPPPPPP/RNBQKBNR w KQkq - 0 1").toOption.map
      (fun y => decide (Board.standard.occupant (Square.ofNat 1) ≠ y.occupant (Square.ofNat 1) ∧
        Board.standard.side = y.side ∧ Board.standard.enPassant = y.enPassant ∧
        (∀ f r : Fin 8, Board.standard.letterOn (Square.make ⟨f⟩ ⟨r⟩) =
          y.letterOn (Square.make ⟨f⟩ ⟨r⟩)) ∧
        Board.standard.castleRights = y.castleRights)) = some true := by
    decide +kernel
  obtain ⟨y, read, checked⟩ := Except.ok_of_toOption_map checked
  obtain ⟨renamed, view⟩ := of_decide_eq_true checked
  have same := samePosition_iff_letterOn.mpr view
  have cy := (Reachable.ofFen read).coherent
  have sy := (Reachable.ofFen read).settled
  exact ⟨y, read, renamed, WellFormed.standard.toCoherent, cy, Settled.standard, sy, same,
    rules_of_samePosition WellFormed.standard.toCoherent cy Settled.standard sy same⟩

end Board

end Chess
