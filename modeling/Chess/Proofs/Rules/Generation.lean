import Chess.Proofs.Rules.Castles
import Chess.Proofs.Move.Listed

namespace Chess

/-! Move generation follows the rules of chess. On a coherent settled board with the king of
the side to move on the board, the moves the board lists, read by origin, destination,
promotion and castle, are exactly the legal moves by the rules (`legalMoves_iff_legal`). -/

namespace Board

variable {b : Board} {o t : Square} {promo : Option PieceKind} {castle : Option CastleSide}

/-- What the board lists, read by origin, destination, promotion and castle: a move of a piece
of the side to move from its square to a target, with a promotion it may choose there, or a
castle the status records. -/
theorem exists_mem_legalMoves_iff :
    (∃ m ∈ b.legalMoves, m.origin = o ∧ m.target = t ∧ m.promotion = promo ∧ m.castle = castle) ↔
      (castle = none ∧ ∃ id ∈ b.roster b.side, (b.piece id).square = some o ∧
        (b.piece id).targets.contains t = true ∧ promo ∈ b.promotionChoices id t) ∨
      (promo = none ∧ ∃ side, castle = some side ∧
        ∃ plan, b.legalCastle? side = some plan ∧ plan.kingFrom = o ∧ plan.kingTo = t) := by
  simp only [mem_legalMoves, Move.knownLegal_eq]
  constructor
  · rintro ⟨m, ⟨id, member, o', at_, t', target, promo', choice, rfl⟩ | ⟨side, plan, found, rfl⟩,
      origin, destination, promotion, castled⟩
    · simp only [Move.origin_build, Move.target_build, Move.promotion_build, Move.castle_build]
        at origin destination promotion castled
      subst origin destination promotion castled
      exact Or.inl ⟨rfl, id, member, at_, target, choice⟩
    · simp only [Move.origin_build, Move.target_build, Move.promotion_build, Move.castle_build]
        at origin destination promotion castled
      subst origin destination promotion castled
      exact Or.inr ⟨rfl, side, rfl, plan, found, rfl, rfl⟩
  · rintro (⟨rfl, id, member, at_, target, choice⟩ | ⟨rfl, side, rfl, plan, found, rfl, rfl⟩)
    · exact ⟨_, Or.inl ⟨id, member, o, at_, t, target, promo, choice, rfl⟩, by simp⟩
    · exact ⟨_, Or.inr ⟨side, plan, found, rfl⟩, by simp⟩

theorem legal_iff :
    b.Legal o t promo castle ↔
      (castle = none ∧ ∃ k, b.pieceOn o = some (k, b.side) ∧ b.Reaches o k t ∧
        ((promo = none ∧ ¬(k = .pawn ∧ t.rank = Rank.promotion b.side) ∧
            (b.moved o t none).KingSafe b.side) ∨
          (k = .pawn ∧ t.rank = Rank.promotion b.side ∧ ∃ k', promo = some k' ∧
            k' ∈ [PieceKind.queen, .rook, .bishop, .knight] ∧ (b.moved o t promo).KingSafe b.side))) ∨
      (promo = none ∧ ∃ side, castle = some side ∧ ∃ r, b.CastleOpen side o r ∧ t = side.kingTo b.side) := by
  constructor
  · rintro (⟨own, reaches, stays, safe⟩ | ⟨own, reaches, last, choice, safe⟩ | ⟨open_⟩)
    · exact Or.inl ⟨rfl, _, own, reaches, Or.inl ⟨rfl, stays, safe⟩⟩
    · exact Or.inl ⟨rfl, _, own, reaches, Or.inr ⟨rfl, last, _, rfl, choice, safe⟩⟩
    · exact Or.inr ⟨rfl, _, rfl, _, open_, rfl⟩
  · rintro (⟨rfl, k, own, reaches, ⟨rfl, stays, safe⟩ | ⟨rfl, last, k', rfl, choice, safe⟩⟩ |
      ⟨rfl, side, rfl, r, open_, rfl⟩)
    · exact .move own reaches stays safe
    · exact .promote own reaches last choice safe
    · exact .castle open_

section Settled

variable (coherent : b.Coherent) (settled : b.Settled) {K id : PieceId} {κ : Square}
  (hasKing : b.king b.side = some K) (stands : (b.piece K).square = some κ)
include coherent settled hasKing stands

theorem Settled.listed_iff (member : id ∈ b.roster b.side) (at_ : (b.piece id).square = some o) :
    ((b.piece id).targets.contains t = true ∧ promo ∈ b.promotionChoices id t) ↔
      b.Reaches o (b.piece id).kind t ∧
        ((promo = none ∧ ¬((b.piece id).kind = .pawn ∧ t.rank = Rank.promotion b.side) ∧
            (b.moved o t none).KingSafe b.side) ∨
          ((b.piece id).kind = .pawn ∧ t.rank = Rank.promotion b.side ∧ ∃ k', promo = some k' ∧
            k' ∈ [PieceKind.queen, .rook, .bishop, .knight] ∧ (b.moved o t promo).KingSafe b.side)) := by
  have safeIff (promo' : Option PieceKind)
      (promoted : promo' = none ∨ ((b.piece id).kind = .pawn ∧ ∃ k', promo' = some k' ∧ k' ≠ .king)) :
      (b.piece id).targets.contains t = true ↔
        b.Reaches o (b.piece id).kind t ∧ (b.moved o t promo').KingSafe b.side := by
    by_cases king : id = K
    · subst king
      cases Option.some.inj (at_.symm.trans stands)
      have kind := ((coherent.king_iff _ id).mp hasKing).2
      rcases promoted with rfl | ⟨pawn, -⟩
      · rw [kind]
        exact Settled.contains_king_targets_iff_kingSafe coherent settled hasKing at_
      · rw [kind] at pawn
        cases pawn
    · refine Settled.contains_targets_iff_kingSafe coherent settled hasKing stands member king at_ ?_
      rcases promoted with rfl | ⟨-, k', rfl, notKing⟩
      · exact Coherent.kind_ne_king coherent hasKing member king
      · exact notKing
  unfold promotionChoices
  split
  · rename_i last
    obtain ⟨pawn, rank⟩ := last
    rw [pawn] at safeIff ⊢
    simp only [List.mem_cons, List.not_mem_nil, or_false, rank, and_self, not_true_eq_false,
      and_false, false_and, false_or, true_and]
    constructor
    · rintro ⟨target, choice⟩
      obtain ⟨k', rfl, listed⟩ : ∃ k', promo = some k' ∧
          (k' = .queen ∨ k' = .rook ∨ k' = .bishop ∨ k' = .knight) := by
        rcases choice with rfl | rfl | rfl | rfl <;> simp
      have notKing : k' ≠ .king := by rcases listed with rfl | rfl | rfl | rfl <;> decide
      obtain ⟨reaches, safe⟩ := (safeIff (some k') (Or.inr ⟨rfl, k', rfl, notKing⟩)).mp target
      exact ⟨reaches, k', rfl, listed, safe⟩
    · rintro ⟨reaches, k', rfl, listed, safe⟩
      have notKing : k' ≠ .king := by rcases listed with rfl | rfl | rfl | rfl <;> decide
      refine ⟨(safeIff (some k') (Or.inr ⟨rfl, k', rfl, notKing⟩)).mpr ⟨reaches, safe⟩, ?_⟩
      rcases listed with rfl | rfl | rfl | rfl <;> simp
  · rename_i stays
    simp only [List.mem_singleton, stays, not_false_eq_true, true_and]
    constructor
    · rintro ⟨target, rfl⟩
      obtain ⟨reaches, safe⟩ := (safeIff none (Or.inl rfl)).mp target
      exact ⟨reaches, Or.inl ⟨rfl, safe⟩⟩
    · rintro ⟨reaches, ⟨rfl, safe⟩ | ⟨pawn, last, -⟩⟩
      · exact ⟨(safeIff none (Or.inl rfl)).mpr ⟨reaches, safe⟩, rfl⟩
      · exact absurd ⟨pawn, last⟩ stays

end Settled

/-- Move generation follows the rules of chess: on a coherent settled board whose side to move
has its king on the board, a move is listed, by origin, destination, promotion and castle,
exactly when the rules make it legal. -/
theorem legalMoves_iff_legal (coherent : b.Coherent) (settled : b.Settled)
    (hasKing : (b.kingSquare b.side).isSome = true) (o t : Square) (promo : Option PieceKind)
    (castle : Option CastleSide) :
    (∃ m ∈ b.legalMoves, m.origin = o ∧ m.target = t ∧ m.promotion = promo ∧ m.castle = castle) ↔
      b.Legal o t promo castle := by
  obtain ⟨κ, kingSq⟩ := Option.isSome_iff_exists.mp hasKing
  obtain ⟨K, king, stands⟩ := Option.bind_eq_some_iff.mp kingSq
  rw [exists_mem_legalMoves_iff, legal_iff]
  refine or_congr (and_congr_right fun _ => ?_) (and_congr_right fun _ => exists_congr fun side =>
    and_congr_right fun _ => Settled.legalCastle?_iff coherent settled)
  constructor
  · rintro ⟨id, member, at_, listed⟩
    refine ⟨(b.piece id).kind, ?_, (Settled.listed_iff coherent settled king stands member at_).mp listed⟩
    simp [pieceOn, coherent.occupant_of_square at_, coherent.color_of_roster member]
  · rintro ⟨k, own, rules⟩
    obtain ⟨id, held, named⟩ := Option.map_eq_some_iff.mp own
    simp only [Prod.mk.injEq] at named
    obtain ⟨rfl, color⟩ := named
    have member := (coherent.mem_roster_iff_of_occupant held _).mpr color
    have at_ := coherent.piece_square_of_occupant held
    exact ⟨id, member, at_, (Settled.listed_iff coherent settled king stands member at_).mpr rules⟩

/-- On the standard start, a move is listed exactly when the rules make it legal. -/
theorem legalMoves_iff_legal_standard :
    Board.standard.Coherent ∧ Board.standard.Settled ∧
      (Board.standard.kingSquare Board.standard.side).isSome = true ∧
      ∀ o t promo castle, (∃ m ∈ Board.standard.legalMoves, m.origin = o ∧ m.target = t ∧
          m.promotion = promo ∧ m.castle = castle) ↔ Board.standard.Legal o t promo castle := by
  have king : (Board.standard.kingSquare Board.standard.side).isSome = true := by decide +kernel
  exact ⟨WellFormed.standard.toCoherent, Settled.standard, king,
    legalMoves_iff_legal WellFormed.standard.toCoherent Settled.standard king⟩

end Board

end Chess
