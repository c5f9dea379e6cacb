import Chess.Proofs.Rules.Passes

namespace Chess

/-! The check and en-passant passes read by the rules. On a settled board the squares recorded
as giving check are those of the pieces the rules say give check; a move the movement rules
allow answers a check in the pass's sense exactly when it answers it by the rules; and the
en-passant pass drops exactly the captures after which the rules find the king attacked. Main
statements: `Settled.contains_checkers_iff_checks`, `resolves_iff_answers` and
`exposesByPassant_iff`. -/

namespace Board

variable {b : Board} {κ o t v x : Square} {k : PieceKind}

theorem eq_of_enPassantVictim? {c : Color} (found : b.enPassantVictim? o t c = some v) :
    v = Square.make t.file o.rank := by
  unfold enPassantVictim? at found
  split at found
  · cases found
  · dsimp only at found
    split at found
    · split at found
      · exact (Option.some.inj found).symm
      · cases found
    · cases found

theorem enPassantVictim?_eq_some_iff :
    b.enPassantVictim? o t b.side = some v ↔ v = Square.make t.file o.rank ∧
      b.enPassant = some t.file ∧ o.rank = Rank.enPassantFrom b.side ∧
      b.pieceOn (Square.make t.file o.rank) = some (.pawn, b.side.opponent) := by
  rw [← isSome_enPassantVictim?_iff]
  constructor
  · intro found
    exact ⟨eq_of_enPassantVictim? found, by simp [found]⟩
  · rintro ⟨rfl, found⟩
    obtain ⟨v', named⟩ := Option.isSome_iff_exists.mp found
    rw [named, eq_of_enPassantVictim? named]

section Settled

variable (coherent : b.Coherent) (settled : b.Settled) {K : PieceId}
  (hasKing : b.king b.side = some K) (stands : (b.piece K).square = some κ)
include coherent settled hasKing stands

theorem Settled.contains_checkers_iff_checks (x : Square) :
    b.status.checkers.contains x = true ↔ b.Checks κ x := by
  rw [Settled.contains_checkers coherent settled hasKing stands]
  constructor
  · rintro ⟨id, held, color, attacks⟩
    exact ⟨(b.piece id).kind, by simp [pieceOn, held, color], color ▸ (attacksFrom_iff _ _ _).mp attacks⟩
  · rintro ⟨k, on, attacks⟩
    obtain ⟨id, held, named⟩ := Option.map_eq_some_iff.mp on
    simp only [Prod.mk.injEq] at named
    obtain ⟨rfl, color⟩ := named
    exact ⟨id, held, color, (attacksFrom_iff _ _ _).mpr (color ▸ attacks)⟩

end Settled

section Move

variable (own : b.pieceOn o = some (k, b.side)) (reaches : b.Reaches o k t)
include own reaches

theorem passant_iff_enPassantVictim? :
    (k = .pawn ∧ b.occupant t = none ∧ b.enPassantVictim? o t b.side = some x) ↔
      b.Passant o t ∧ x = Square.make t.file o.rank := by
  constructor
  · rintro ⟨rfl, empty, found⟩
    obtain ⟨rfl, -, -, beside⟩ := enPassantVictim?_eq_some_iff.mp found
    refine ⟨⟨by simp [own], fun same => ?_, pieceOn_eq_none_iff.mpr empty⟩, rfl⟩
    rw [← same, Square.make_file_rank, own] at beside
    exact Color.ne_opponent _ (Prod.mk.inj (Option.some.inj beside)).2
  · rintro ⟨passant, rfl⟩
    obtain ⟨rfl, -, file, rank, beside⟩ := reaches.of_passant own passant
    exact ⟨rfl, pieceOn_eq_none_iff.mp passant.2.2, enPassantVictim?_eq_some_iff.mpr ⟨rfl, file, rank, beside⟩⟩

theorem resolves_iff_answers (checks : b.Checks κ x) :
    b.Resolves κ x o t k ↔ b.Answers κ o t x := by
  obtain ⟨kx, on, -⟩ := checks
  have slider : ((∃ q, b.pieceAt? x = some q ∧ q.kind.slides = true) ∧ x.StrictlyBetween κ t) ↔
      ∃ k', b.pieceOn x = some (k', b.side.opponent) ∧ k'.slides = true ∧ x.StrictlyBetween κ t := by
    obtain ⟨q, held, kind, color⟩ := pieceOn_eq_some_iff.mp on
    constructor
    · rintro ⟨⟨q', held', slides⟩, between⟩
      cases held.symm.trans held'
      exact ⟨kx, on, kind ▸ slides, between⟩
    · rintro ⟨k', on', slides, between⟩
      cases (Prod.mk.inj (Option.some.inj (on.symm.trans on'))).1
      exact ⟨⟨q, held, kind ▸ slides⟩, between⟩
  rw [Resolves, Answers, slider, passant_iff_enPassantVictim? own reaches]

theorem occupancy_moved_of_passant (passant : b.Passant o t) :
    (b.moved o t none).occupancy =
      ((b.occupancy.erase o).erase (Square.make t.file o.rank)).insert t := by
  refine SquareSet.ext fun u => ?_
  have differ : o ≠ t := fun same => reaches.ne_origin same.symm
  simp only [Placement.contains_occupancy, SquareSet.contains_insert, SquareSet.contains_erase,
    contains_occupancy_eq_isSome, moved]
  by_cases target : u = t
  · simp [target, own]
  · by_cases origin : u = o
    · simp [origin, differ]
    · by_cases taken : u = Square.make t.file o.rank
      · subst taken
        simp [target, passant]
      · simp [target, origin, taken]

theorem isAttackedWith_passant_iff (passant : b.Passant o t) :
    b.isAttackedWith κ b.side.opponent
        (((b.occupancy.erase o).erase (Square.make t.file o.rank)).insert t) = true ↔
      (b.moved o t none).Attacked κ b.side.opponent := by
  refine isAttackedWith_iff_attacked (occupancy_moved_of_passant own reaches passant) (fun u kx => ?_) κ
  have mine : b.pieceOn o ≠ some (kx, b.side.opponent) := by
    rw [own]
    exact fun same => Color.ne_opponent _ (Prod.mk.inj (Option.some.inj same)).2
  rw [moved_eq_opponent_iff own, SquareSet.contains_insert, SquareSet.contains_erase,
    SquareSet.contains_erase, contains_occupancy_eq_isSome]
  by_cases target : u = t
  · subst target
    simp [passant.2.2]
  · by_cases origin : u = o
    · subst origin
      simp [mine]
    · by_cases taken : u = Square.make t.file o.rank
      · subst taken
        simp [passant, target]
      · simp only [target, origin, taken, passant, ne_eq, not_false_eq_true, true_and, and_false,
          decide_false, Bool.not_false, Bool.and_true, Bool.or_eq_true]
        constructor
        · intro on
          exact ⟨by simp [on], on⟩
        · exact fun shown => shown.2

theorem exposesByPassant_iff :
    (k = .pawn ∧ b.ExposesByPassant κ o t) ↔
      b.Passant o t ∧ (b.moved o t none).Attacked κ b.side.opponent := by
  constructor
  · rintro ⟨rfl, -, empty, v, found, attacked⟩
    obtain ⟨passant, rfl⟩ := (passant_iff_enPassantVictim? own reaches).mp ⟨rfl, empty, found⟩
    exact ⟨passant, (isAttackedWith_passant_iff own reaches passant).mp attacked⟩
  · rintro ⟨passant, attacked⟩
    obtain ⟨pawn, empty, found⟩ :=
      (passant_iff_enPassantVictim? own reaches).mpr ⟨passant, rfl⟩
    exact ⟨pawn, Ne.symm passant.2.1, empty, _, found,
      (isAttackedWith_passant_iff own reaches passant).mpr attacked⟩

end Move

end Board

end Chess
