import Chess.Proofs.Rules.Answers

namespace Chess

/-! The targets of a settled board by the rules. A piece of the side to move other than its
king has a target exactly when the movement rules take it there and the move leaves the king
safe, whatever it promotes to; the king has a target exactly when it steps there by the rules
and stands unattacked after the step. Main statements: `Settled.contains_targets_iff_kingSafe`
and `Settled.contains_king_targets_iff_kingSafe`. -/

namespace Board

variable {b : Board} {κ o t : Square} {K id : PieceId}

/-! ### The king's own step -/

section KingStep

variable (own : b.pieceOn κ = some (.king, b.side)) (reaches : b.Reaches κ .king t)
include own reaches

theorem kingSafe_moved_king_iff (lone : ∀ s, b.pieceOn s = some (.king, b.side) → s = κ) :
    (b.moved κ t none).KingSafe b.side ↔ ¬(b.moved κ t none).Attacked t b.side.opponent := by
  have differ := reaches.ne_origin
  refine Placement.kingSafe_iff_of_king (by simp [own]) fun s held => ?_
  by_contra elsewhere
  by_cases origin : s = κ
  · rw [origin, moved_origin (Ne.symm differ)] at held
    cases held
  · rw [moved_of_ne elsewhere origin fun passant => origin (lone s ?_)] at held
    · exact origin (lone s held)
    · obtain ⟨pawn, -⟩ := reaches.of_passant own passant.1
      cases pawn

theorem attacked_moved_king_iff (kingSq : b.kingSquare b.side = some κ) :
    (b.moved κ t none).Attacked t b.side.opponent ↔
      ∃ x k, b.pieceOn x = some (k, b.side.opponent) ∧
        k.Attacks b.side.opponent (b.occupancyWithoutKing b.side) x t := by
  have quiet : ¬b.Passant κ t := fun passant => by
    obtain ⟨pawn, -⟩ := reaches.of_passant own passant
    cases pawn
  have agree (x u : Square) (between : x.StrictlyBetween t u) :
      (b.moved κ t none).occupancy.contains u = (b.occupancyWithoutKing b.side).contains u := by
    have target : u ≠ t := fun same => Square.not_strictlyBetween_right (same ▸ between)
    rw [Placement.contains_occupancy, contains_occupancyWithoutKing, kingSq]
    by_cases origin : u = κ
    · subst origin
      simp [moved_origin (Ne.symm reaches.ne_origin)]
    · rw [moved_of_ne target origin fun passant => quiet passant.1]
      simp [pieceOn, Ne.symm origin]
  constructor
  · rintro ⟨x, k, on, attacks⟩
    obtain ⟨-, -, on'⟩ := (moved_eq_opponent_iff own).mp on
    exact ⟨x, k, on', (PieceKind.attacks_congr (agree x)).mp attacks⟩
  · rintro ⟨x, k, on, attacks⟩
    have away : x ≠ t := fun same => PieceKind.not_attacks_self k _ _ t (same ▸ attacks)
    exact ⟨x, k, (moved_eq_opponent_iff own).mpr ⟨away, fun passant => quiet passant.1, on⟩,
      (PieceKind.attacks_congr (agree x)).mpr attacks⟩

end KingStep

/-! ### Targets on a settled board -/

section Settled

variable (coherent : b.Coherent) (settled : b.Settled) (hasKing : b.king b.side = some K)
  (stands : (b.piece K).square = some κ)
include coherent settled hasKing stands

omit settled in
theorem Coherent.lone_king :
    b.pieceOn κ = some (.king, b.side) ∧ ∀ s, b.pieceOn s = some (.king, b.side) → s = κ := by
  have kingSq : b.kingSquare b.side = some κ := by simp [kingSquare, hasKing, stands]
  have kinds := coherent.kingSquare_eq_some_iff b.side
  constructor
  · obtain ⟨k, held, kind, color⟩ := (kinds κ).mp kingSq
    simp [pieceOn, held, kind, color]
  · intro s on
    obtain ⟨k, held, named⟩ := Option.map_eq_some_iff.mp on
    simp only [Prod.mk.injEq] at named
    exact Option.some.inj (((kinds s).mpr ⟨k, held, named⟩).symm.trans kingSq)

omit settled stands in
theorem Coherent.kind_ne_king (member : id ∈ b.roster b.side) (other : id ≠ K) :
    (b.piece id).kind ≠ .king := fun king =>
  other (coherent.one_king _ id K member ((coherent.king_iff _ K).mp hasKing).1 king
    ((coherent.king_iff _ K).mp hasKing).2)

theorem Settled.contains_targets_iff_passes (member : id ∈ b.roster b.side) (other : id ≠ K)
    (at_ : (b.piece id).square = some o) :
    (b.piece id).targets.contains t = true ↔
      (b.rawReach (b.piece id)).targets.contains t = true ∧
      ((b.roster b.side.opponent).toList.all fun e =>
        (b.pinOf? κ b.side.opponent e).all fun pin => pin.1 ≠ id || pin.2.contains t) = true ∧
      (∀ x, b.status.checkers.contains x = true → b.Resolves κ x o t (b.piece id).kind) ∧
      (∀ x y, b.status.checkers.contains x = true → b.status.checkers.contains y = true → x = y) ∧
      ((b.piece id).kind = .pawn → ¬b.ExposesByPassant κ o t) := by
  have raw := bare_rawReached b
  have final : (b.piece id).targets = ((b.rawReached.settle K κ).piece id).targets := by
    rw [settled.piece_eq (tracks_of_roster member), regenerate_eq_settle hasKing stands]
  have recorded : (b.rawReached.settle K κ).status.checkers = b.status.checkers := by
    rw [← regenerate_eq_settle hasKing stands, ← settled.status]
  have nodupR : (b.rawReached.roster b.rawReached.side).toList.Nodup := by
    rw [roster_of_bare raw, side_of_bare raw]
    exact coherent.nodup _
  have memberR : id ∈ b.rawReached.roster b.rawReached.side := by
    rw [roster_of_bare raw, side_of_bare raw]
    exact member
  have atR : (b.rawReached.piece id).square = some o := by
    rw [square_piece_of_bare raw]
    exact at_
  rw [final, contains_targets_settle _ nodupR memberR other atR, recorded, piece_rawReached,
    roster_of_bare raw, side_of_bare raw]
  simp only [pinOf?_of_bare _ raw, resolves_of_bare raw, exposesByPassant_of_bare raw]

theorem Settled.contains_targets_iff_kept (member : id ∈ b.roster b.side) (other : id ≠ K)
    (at_ : (b.piece id).square = some o) :
    (b.piece id).targets.contains t = true ↔ b.Reaches o (b.piece id).kind t ∧ b.Kept κ o t := by
  have held := coherent.occupant_of_square at_
  have color := coherent.color_of_roster member
  have own : b.pieceOn o = some ((b.piece id).kind, b.side) := by simp [pieceOn, held, color]
  have checks := Settled.contains_checkers_iff_checks coherent settled hasKing stands
  rw [Settled.contains_targets_iff_passes coherent settled hasKing stands member other at_,
    contains_rawReach_iff coherent member at_, unpinned_iff coherent held color]
  simp only [checks]
  constructor
  · rintro ⟨reaches, pins, answers, single, passant⟩
    refine ⟨reaches, pins, fun x check => (resolves_iff_answers own reaches check).mp (answers x check),
      single, fun taking attacked => ?_⟩
    obtain ⟨pawn, exposes⟩ := (exposesByPassant_iff own reaches).mpr ⟨taking, attacked⟩
    exact passant pawn exposes
  · rintro ⟨reaches, pins, answers, single, passant⟩
    refine ⟨reaches, pins, fun x check => (resolves_iff_answers own reaches check).mpr (answers x check),
      single, fun pawn exposes => ?_⟩
    obtain ⟨taking, attacked⟩ := (exposesByPassant_iff own reaches).mp ⟨pawn, exposes⟩
    exact passant taking attacked

theorem Settled.contains_targets_iff_kingSafe (member : id ∈ b.roster b.side) (other : id ≠ K)
    (at_ : (b.piece id).square = some o) {promo : Option PieceKind}
    (promoted : promo.getD (b.piece id).kind ≠ .king) :
    (b.piece id).targets.contains t = true ↔
      b.Reaches o (b.piece id).kind t ∧ (b.moved o t promo).KingSafe b.side := by
  have own : b.pieceOn o = some ((b.piece id).kind, b.side) := by
    simp [pieceOn, coherent.occupant_of_square at_, coherent.color_of_roster member]
  obtain ⟨king, lone⟩ := Coherent.lone_king coherent hasKing stands
  rw [Settled.contains_targets_iff_kept coherent settled hasKing stands member other at_]
  exact and_congr_right fun reaches => (kingSafe_moved_iff_kept own reaches
    (Coherent.kind_ne_king coherent hasKing member other) promoted king lone).symm

theorem Settled.contains_king_targets_iff_kingSafe :
    (b.piece K).targets.contains t = true ↔
      b.Reaches κ .king t ∧ (b.moved κ t none).KingSafe b.side := by
  have raw := bare_rawReached b
  obtain ⟨member, kind⟩ := (coherent.king_iff _ K).mp hasKing
  obtain ⟨own, lone⟩ := Coherent.lone_king coherent hasKing stands
  have kingSq : b.kingSquare b.side = some κ := by simp [kingSquare, hasKing, stands]
  have final : (b.piece K).targets = ((b.rawReached.settle K κ).piece K).targets := by
    rw [settled.piece_eq (tracks_of_roster member), regenerate_eq_settle hasKing stands]
  have hasKingR : b.rawReached.king b.rawReached.side = some K := by
    rw [king_of_bare raw, side_of_bare raw]
    exact hasKing
  have standsR : (b.rawReached.piece K).square = some κ := by
    rw [square_piece_of_bare raw]
    exact stands
  have bears : (∃ e ∈ b.roster b.side.opponent, ∃ x, (b.piece e).square = some x ∧
      (b.piece e).Bears (b.occupancyWithoutKing b.side) x t) ↔
        ∃ x k, b.pieceOn x = some (k, b.side.opponent) ∧
          k.Attacks b.side.opponent (b.occupancyWithoutKing b.side) x t := by
    constructor
    · rintro ⟨e, member, x, square, bearing⟩
      have color := coherent.color_of_roster member
      refine ⟨x, (b.piece e).kind, by simp [pieceOn, coherent.occupant_of_square square, color], ?_⟩
      rw [← color]
      exact bearing
    · rintro ⟨x, k, on, attacks⟩
      obtain ⟨e, held, named⟩ := Option.map_eq_some_iff.mp on
      simp only [Prod.mk.injEq] at named
      obtain ⟨rfl, color⟩ := named
      refine ⟨e, (coherent.mem_roster_iff_of_occupant held _).mpr color, x,
        coherent.piece_square_of_occupant held, ?_⟩
      rw [Piece.bears_iff_attacks, color]
      exact attacks
  have recorded : (b.rawReached.isThreatened t b.side.opponent = false ∧
      b.rawReached.isGuarded t b.side.opponent = false) ↔
        ¬∃ x k, b.pieceOn x = some (k, b.side.opponent) ∧
          k.Attacks b.side.opponent (b.occupancyWithoutKing b.side) x t := by
    unfold isThreatened isGuarded
    rw [roster_of_bare raw, ← Array.any_toList, ← Array.any_toList, List.any_eq_false,
      List.any_eq_false, ← forall₂_and, ← bears]
    simp only [Array.mem_toList_iff, not_exists, not_and]
    refine forall₂_congr fun e member => ?_
    rw [← piece_eq_rawReached_of_opponent coherent settled member, ← not_or, ← Bool.or_eq_true,
      Settled.attacks_or_guards_iff_bears coherent settled member]
    simp
  rw [final, contains_king_targets_settle _ (Coherent.of_bare raw coherent) hasKingR standsR,
    piece_rawReached, side_of_bare raw]
  dsimp only
  rw [contains_rawReach_iff coherent member stands, kind, recorded]
  exact and_congr_right fun reaches => by
    rw [kingSafe_moved_king_iff own reaches lone, attacked_moved_king_iff own reaches kingSq]

end Settled

end Board

end Chess
