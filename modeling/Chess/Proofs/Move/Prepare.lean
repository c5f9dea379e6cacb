import Chess.Proofs.Board.Origin
import Chess.Proofs.Board.FromSetup
import Chess.Proofs.Move.Rules

namespace Chess

/-! Moves made from their squares. `prepare` turns an origin, a destination and a promotion
into a move of the board, reading a king's move onto its castle square or onto its own castle
rook as that castle, and `Move.new` tries the move on a copy. On a coherent, settled board the
squares of a listed move give back that move, castles included, and its trial passes with a
move that plays the same. Listed moves are told apart by what they play. -/

namespace Board

variable {b : Board}

theorem kingRank_of_mem_wingRooks {c : Color} {side : CastleSide} {r : PieceId}
    (member : r ∈ b.wingRooks c side) : ∃ ks, b.kingSquare c = some ks ∧ ks.rank = Rank.back c := by
  unfold wingRooks at member
  split at member
  · cases member
  rename_i ks kingSq
  split at member
  · cases member
  rename_i back
  exact ⟨ks, kingSq, not_not.mp back⟩

theorem Coherent.side_eq_of_castleRook? (coherent : b.Coherent) {c : Color} {side side' : CastleSide}
    {r : PieceId} (first : b.castleRook? c side = some r) (second : b.castleRook? c side' = some r) :
    side = side' := by
  by_contra differ
  exact coherent.not_mem_wingRooks (by simpa using differ) (List.mem_of_head? first)
    (List.mem_of_head? second)

/-- What an open castle of the side to move is made of: its king and its castle rook stand on
their squares of the back rank, and the king is bound for its castle file there. -/
structure OpenCastle (b : Board) (side : CastleSide) (plan : CastlePlan) : Prop where
  planned : b.castlePlan? b.side side = some plan
  legal : b.castleIsLegal plan b.side = true
  king : b.king b.side = some plan.king
  rook : b.castleRook? b.side side = some plan.rook
  kingHeld : b.occupant plan.kingFrom = some plan.king
  rookHeld : b.occupant plan.rookFrom = some plan.rook
  kingKind : (b.piece plan.king).kind = .king
  rookKind : (b.piece plan.rook).kind = .rook
  rookColor : (b.piece plan.rook).color = b.side
  kingRank : plan.kingFrom.rank = Rank.back b.side
  rookRank : plan.rookFrom.rank = Rank.back b.side
  kingTo : plan.kingTo = Square.make side.kingFile (Rank.back b.side)

theorem mem_castleDestinations {e : CastleSide × Square} :
    e ∈ b.castleDestinations ↔ ∃ plan', b.legalCastle? e.1 = some plan' ∧ e.2 = plan'.kingTo := by
  unfold castleDestinations
  simp only [List.mem_filterMap, Option.map_eq_some_iff]
  constructor
  · rintro ⟨side', -, plan', open', rfl⟩
    exact ⟨plan', open', rfl⟩
  · rintro ⟨plan', open', dest⟩
    exact ⟨e.1, by cases e.1 <;> simp [CastleSide.all], plan', open', by rw [← dest]⟩

variable (coherent : b.Coherent) (settled : b.Settled)
include coherent settled

theorem openCastle_of_legalCastle? {side : CastleSide} {plan : CastlePlan}
    (found : b.legalCastle? side = some plan) : OpenCastle b side plan := by
  obtain ⟨planned, legal⟩ := settled.castle found
  obtain ⟨king, rook, kingAt, rookAt, -, kingTo, -⟩ := castlePlan?_eq_some planned
  obtain ⟨s, rookHeld, rookRank, rookColor, rookKind⟩ := occupant_of_castleRook? rook
  have rookSquare := coherent.piece_square_of_occupant rookHeld
  rw [rookAt, Option.some.injEq] at rookSquare
  subst rookSquare
  have member := ((coherent.king_iff _ _).mp king).1
  obtain ⟨ks, kingSq, kingRank⟩ := kingRank_of_mem_wingRooks (List.mem_of_head? rook)
  have kingSquare : ks = plan.kingFrom := by
    simp only [kingSquare, king, Option.bind_some, kingAt, Option.some.injEq] at kingSq
    exact kingSq.symm
  subst kingSquare
  exact ⟨planned, legal, king, rook, occupant_of_square coherent member kingAt, rookHeld,
    ((coherent.king_iff _ _).mp king).2, rookKind, rookColor, kingRank, rookRank, kingTo⟩

variable {side : CastleSide} {plan : CastlePlan} (found : b.legalCastle? side = some plan)
include found

theorem castleSquare_not_target {target : Square}
    (aim : (target = plan.kingTo ∧
        ((plan.kingTo.file.index.val : Int) - plan.kingFrom.file.index.val).natAbs = 2) ∨
      target = plan.rookFrom) :
    (b.piece plan.king).targets.contains target = false := by
  have castle := openCastle_of_legalCastle? coherent settled found
  cases reach : (b.piece plan.king).targets.contains target with
  | false => rfl
  | true =>
    have tracked := tracks_of_king castle.king
    rcases aim with ⟨rfl, twoFiles⟩ | rfl
    · have step := settled.mem_kingSteps tracked castle.kingKind
        (coherent.piece_square_of_occupant castle.kingHeld) reach
      have near := Square.file_of_mem_kingSteps step
      omega
    · have friend := settled.target_avoids_friends tracked reach
        (by rw [pieceAt?, castle.rookHeld]; rfl)
      have kingColor := (kind_of_legalCastle? coherent settled found).2
      exact absurd (castle.rookColor.trans kingColor.symm) friend

end Board

namespace Move

variable {m n : Move} {b : Board}

theorem playsSame_comm : m.playsSame n = n.playsSame m := by
  unfold playsSame
  simp only [eq_comm]

theorem playsSame_trans {k : Move} (first : k.playsSame m = true) (second : m.playsSame n = true) :
    k.playsSame n = true := by
  simp only [playsSame, Bool.and_eq_true, decide_eq_true_eq] at first second ⊢
  obtain ⟨⟨⟨o1, t1⟩, c1⟩, p1⟩ := first
  obtain ⟨⟨⟨o2, t2⟩, c2⟩, p2⟩ := second
  exact ⟨⟨⟨o1.trans o2, t1.trans t2⟩, c1.trans c2⟩, p1.trans p2⟩

theorem promotionPiece_complete (hop : Option RookHop) :
    (m.complete b hop).promotionPiece = m.promotionPiece := by
  unfold promotionPiece
  rw [promotion_complete, kind_complete, target_complete, color_complete]
  split
  · cases m.promotion <;> simp_all
  · rfl

theorem playsSame_execute {r : Move × Board} (run : m.execute b = .ok r) : r.1.playsSame m = true := by
  obtain ⟨hop, -, -, outcome, move⟩ := execute_eq_ok run
  obtain ⟨promoted, fields⟩ := playSteps_fst (m := m) (w := b) hop
  have piece : r.1.promotionPiece = m.promotionPiece := by
    rw [← promotionPiece_complete (m := m) (b := b) hop, move, fields]
    rfl
  simp only [playsSame, piece, decide_true, Bool.and_true]
  rw [move, fields]
  simp

theorem checkPlayable_verified (m : Move) (v : Bool) (b : Board) :
    { m with verified := v }.checkPlayable b = m.checkPlayable b := rfl

theorem Fits.of_verified {v : Bool} (fits : { m with verified := v }.Fits b) : m.Fits b :=
  ⟨fits.kind, fits.color, fits.castle, fits.promotion, fits.promoted⟩

theorem new_eq_ok {origin target : Square} {promotion : Option PieceKind} {t : Trial}
    (prepared : prepare b origin target promotion = .ok m) (trial : m.rehearse b = .ok t) :
    Move.new b origin target promotion = .ok t.result := by
  simp [Move.new, prepared, trial]

section Trial

variable (coherent : b.Coherent) (settled : b.Settled)
include coherent settled

theorem rehearse_of_checkPlayable (fits : m.Fits b) {hop : Option RookHop}
    (checked : m.checkPlayable b = .ok hop) :
    ∃ t, m.rehearse b = .ok t ∧ t.result.playsSame m = true := by
  obtain ⟨r, run⟩ := execute_ok_iff.mpr ⟨hop, checked⟩
  have undoable := undoable_execute coherent settled fits run
  obtain ⟨t, undone, taken, -⟩ := undoable.unexecute coherent settled (Board.Restores.refl r.2)
  refine ⟨⟨r.1, r.2, t.1, t.2⟩, by simp [rehearse, run, undone], ?_⟩
  have same := playsSame_execute run
  simp only [Trial.result, taken]
  exact same

end Trial

section Squares

theorem castleIntent?_of_target {id : PieceId} {o t : Square}
    (reaches : (b.piece id).targets.contains t = true) : castleIntent? b id o t = none := by
  simp [castleIntent?, reaches]

variable (coherent : b.Coherent) (settled : b.Settled)
include coherent settled

omit settled in
theorem find?_castleRook? {c : Color} {side : CastleSide} {r : PieceId}
    (rook : b.castleRook? c side = some r) :
    CastleSide.all.find? (fun s => b.castleRook? c s = some r) = some side := by
  cases side with
  | kingside => simp [CastleSide.all, rook]
  | queenside =>
    have other : b.castleRook? c .kingside ≠ some r := fun kingside =>
      absurd (coherent.side_eq_of_castleRook? kingside rook) (by decide)
    simp [CastleSide.all, rook, other]

variable {side : CastleSide} {plan : CastlePlan} (found : b.legalCastle? side = some plan)
include found

theorem castleIntent?_of_legalCastle? {target : Square}
    (aim : (target = plan.kingTo ∧
        ((plan.kingTo.file.index.val : Int) - plan.kingFrom.file.index.val).natAbs = 2) ∨
      target = plan.rookFrom) :
    castleIntent? b plan.king plan.kingFrom target = some (side, plan.kingTo) := by
  have castle := Board.openCastle_of_legalCastle? coherent settled found
  have kingColor := (Board.kind_of_legalCastle? coherent settled found).2
  have only : ∀ side' plan', b.legalCastle? side' = some plan' → plan'.kingTo = target →
      side' = side := by
    intro side' plan' found' lands
    have castle' := Board.openCastle_of_legalCastle? coherent settled found'
    rcases aim with ⟨rfl, -⟩ | rfl
    · rw [castle.kingTo, castle'.kingTo] at lands
      have files := congrArg Square.file lands
      simp only [Square.file_make] at files
      cases side <;> cases side' <;> first | rfl | cases files
    · obtain ⟨kingClear, -⟩ := Board.clear_of_castleIsLegal castle'.legal
      rw [lands, castle.rookHeld] at kingClear
      rcases kingClear with empty | isKing | isRook
      · cases empty
      · have kind := castle'.kingKind
        rw [← Option.some.inj isKing, castle.rookKind] at kind
        cases kind
      · have rook := castle'.rook
        rw [← Option.some.inj isRook] at rook
        exact coherent.side_eq_of_castleRook? rook castle.rook
  unfold castleIntent?
  dsimp only
  rw [Board.castleSquare_not_target coherent settled found aim]
  simp only [Bool.false_eq_true, if_false]
  split
  · rename_i e lookup
    have hit := List.find?_some lookup
    obtain ⟨plan', found', dest⟩ := Board.mem_castleDestinations.mp (List.mem_of_find?_eq_some lookup)
    obtain ⟨s, d⟩ := e
    simp only [decide_eq_true_eq] at hit dest found'
    subst hit
    obtain rfl := only s plan' found' dest.symm
    rw [found, Option.some.injEq] at found'
    rw [found', dest]
  · rename_i lookup
    rcases aim with ⟨rfl, -⟩ | rfl
    · have listed := (Board.mem_castleDestinations (e := (side, plan.kingTo))).mpr ⟨plan, found, rfl⟩
      have missed := List.find?_eq_none.mp lookup _ listed
      simp at missed
    · rw [kingColor, if_neg (by simp [castle.kingRank, castle.rookRank]), castle.rookHeld]
      simp only [find?_castleRook? coherent castle.rook, Option.map_some, castle.kingTo]

theorem prepare_castle {target : Square}
    (aim : (target = plan.kingTo ∧
        ((plan.kingTo.file.index.val : Int) - plan.kingFrom.file.index.val).natAbs = 2) ∨
      target = plan.rookFrom) :
    prepare b plan.kingFrom target none = .ok (build b plan.king plan.kingFrom plan.kingTo none (some side)) := by
  have castle := Board.openCastle_of_legalCastle? coherent settled found
  simp [prepare, castle.kingHeld, castle.kingKind, castleIntent?_of_legalCastle? coherent settled found aim]

end Squares

section Listed

variable (coherent : b.Coherent) (settled : b.Settled)
include coherent settled

omit settled in
theorem prepare_of_target {id : PieceId} {o t : Square} {promo : Option PieceKind}
    (member : id ∈ b.roster b.side) (at_ : (b.piece id).square = some o)
    (reaches : (b.piece id).targets.contains t = true) (choice : promo ∈ b.promotionChoices id t) :
    prepare b o t promo = .ok (build b id o t promo none) := by
  have held := Board.occupant_of_square coherent member at_
  have color := coherent.color_of_roster member
  rcases Board.promotion_of_mem_promotionChoices choice with ⟨rfl, -⟩ | ⟨pawn, last, k, rfl, target⟩
  · simp [prepare, held, castleIntent?_of_target reaches]
  · simp [prepare, held, target, pawn, last, color]

theorem checkPlayable_of_mem_legalMoves (listed : m ∈ b.legalMoves) :
    ∃ hop, m.checkPlayable b = .ok hop := by
  rcases Board.mem_legalMoves.mp listed with
    ⟨id, member, o, at_, t, reaches, promo, -, rfl⟩ | ⟨side, plan, found, rfl⟩
  · refine ⟨none, checkPlayable_eq_ok.mpr ⟨by simp [knownLegal_eq], by simp [knownLegal_eq], ?_, ?_,
      Or.inl ⟨by simp [knownLegal_eq], ?_, ?_⟩⟩⟩
    · simpa [knownLegal_eq] using Board.occupant_of_square coherent member at_
    · simpa [knownLegal_eq] using (coherent.color_of_roster member).symm
    · simpa [knownLegal_eq] using reaches
    · simp [knownLegal_eq, castleRook_build]
  · have castle := Board.openCastle_of_legalCastle? coherent settled found
    have kingColor := (Board.kind_of_legalCastle? coherent settled found).2
    exact ⟨_, checkPlayable_eq_ok.mpr ⟨by simp [knownLegal_eq], by simp [knownLegal_eq],
      by simpa [knownLegal_eq] using castle.kingHeld, by simpa [knownLegal_eq] using kingColor.symm,
      Or.inr ⟨side, plan, by simp [knownLegal_eq], found, by simp [knownLegal_eq], rfl⟩⟩⟩

omit settled in
theorem eq_of_playsSame (listedM : m ∈ b.legalMoves) (listedN : n ∈ b.legalMoves)
    (same : m.playsSame n = true) : m = n := by
  rcases Board.mem_legalMoves.mp listedN with
    ⟨id, member, o, at_, t, -, promo, choice, rfl⟩ | ⟨side, plan, found, rfl⟩ <;>
  rcases Board.mem_legalMoves.mp listedM with
    ⟨id', member', o', at', t', -, promo', choice', rfl⟩ | ⟨side', plan', found', rfl⟩ <;>
  simp only [playsSame_knownLegal, Bool.and_eq_true, decide_eq_true_eq] at same <;>
  obtain ⟨⟨⟨origin, target⟩, castle⟩, piece⟩ := same <;>
  simp only [knownLegal_eq, origin_build, target_build, castle_build, reduceCtorEq,
    Option.some.injEq] at origin target castle
  case inl.inl =>
    subst origin target
    have sameId : id' = id := Option.some.inj ((Board.occupant_of_square coherent member' at').symm.trans
      (Board.occupant_of_square coherent member at_))
    subst sameId
    have color := coherent.color_of_roster member
    rcases Board.promotion_of_mem_promotionChoices choice with ⟨rfl, plain⟩ | ⟨pawn, last, k, rfl, -⟩ <;>
      rcases Board.promotion_of_mem_promotionChoices choice' with
        ⟨rfl, plain'⟩ | ⟨pawn', last', k', rfl, -⟩
    · rfl
    · exact absurd ⟨pawn', last'⟩ plain
    · exact absurd ⟨pawn, last⟩ plain'
    · simp [promotionPiece, knownLegal_eq, pawn, last, color] at piece
      rw [piece]
  case inr.inr =>
    subst castle
    rw [found, Option.some.injEq] at found'
    rw [found']

theorem rehearse_of_listed {m : Move} (listed : { m with verified := true } ∈ b.legalMoves) :
    ∃ t, m.rehearse b = .ok t ∧ t.result.playsSame m = true := by
  obtain ⟨hop, checked⟩ := checkPlayable_of_mem_legalMoves coherent settled listed
  exact rehearse_of_checkPlayable coherent settled
    (Fits.of_verified (Board.fits_of_mem_legalMoves coherent settled listed))
    ((checkPlayable_verified _ _ _).symm.trans checked)

theorem new_of_target {id : PieceId} {o t : Square} {promo : Option PieceKind}
    (member : id ∈ b.roster b.side) (at_ : (b.piece id).square = some o)
    (reaches : (b.piece id).targets.contains t = true) (choice : promo ∈ b.promotionChoices id t) :
    ∃ n, Move.new b o t promo = .ok n ∧ n.playsSame (knownLegal b id o t promo none) = true := by
  obtain ⟨trial, rehearsed, same⟩ := rehearse_of_listed coherent settled
    (Board.mem_legalMoves.mpr (Or.inl ⟨id, member, o, at_, t, reaches, promo, choice, rfl⟩))
  exact ⟨trial.result, new_eq_ok (prepare_of_target coherent member at_ reaches choice) rehearsed, same⟩

variable {side : CastleSide} {plan : CastlePlan} (found : b.legalCastle? side = some plan)
include found

theorem new_of_legalCastle? {target : Square}
    (aim : (target = plan.kingTo ∧
        ((plan.kingTo.file.index.val : Int) - plan.kingFrom.file.index.val).natAbs = 2) ∨
      target = plan.rookFrom) :
    ∃ n, Move.new b plan.kingFrom target none = .ok n ∧
      n.playsSame (knownLegal b plan.king plan.kingFrom plan.kingTo none (some side)) = true := by
  obtain ⟨trial, rehearsed, same⟩ := rehearse_of_listed coherent settled
    (Board.mem_legalMoves.mpr (Or.inr ⟨side, plan, found, rfl⟩))
  exact ⟨trial.result, new_eq_ok (prepare_castle coherent settled found aim) rehearsed, same⟩

theorem castleOn_of_legalCastle? :
    ∃ n, castleOn b side = .ok n ∧
      n.playsSame (knownLegal b plan.king plan.kingFrom plan.kingTo none (some side)) = true := by
  have castle := Board.openCastle_of_legalCastle? coherent settled found
  obtain ⟨trial, rehearsed, same⟩ := rehearse_of_listed coherent settled
    (Board.mem_legalMoves.mpr (Or.inr ⟨side, plan, found, rfl⟩))
  refine ⟨trial.result, ?_, same⟩
  have kingAt := coherent.piece_square_of_occupant castle.kingHeld
  simp [castleOn, castle.king, kingAt, ← castle.kingTo, rehearsed]

end Listed

end Move

end Chess
