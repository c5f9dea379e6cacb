import Chess.Proofs.Rules.Targets

namespace Chess

/-! The castles a settled board lists, read by the rules. The board plans a castle when the
side keeps the right and has its king and the wing's castle rook on the board; the plan is
legal when the squares the two cross and land on hold only them and, both lifted, no square
of the king's way is attacked; regeneration records it when the side is not in check, which a
legal plan already ensures. Main statement: a settled board lists the castle on a wing with
the king on `k` exactly when the rules say that castle is open (`Settled.legalCastle?_iff`). -/

namespace Board

variable {b : Board} {side : CastleSide} {plan : CastlePlan} {c : Color} {K R : PieceId}
  {k r : Square}

/-! ### The castle pass -/

theorem castle_castleStep_self (planned : b.castlePlan? b.side side = some plan)
    (legal : b.castleIsLegal plan b.side = true) :
    (castleStep K b side).status.castle side = some plan := by
  unfold castleStep
  rw [planned]
  dsimp only
  rw [if_pos legal]
  cases side <;> rfl

theorem castle_castleStep_of_ne {side' : CastleSide} (differ : side' ≠ side) :
    (castleStep K b side').status.castle side = b.status.castle side := by
  unfold castleStep
  split
  · split
    · cases side' <;> cases side <;> first | rfl | exact absurd rfl differ
    · rfl
  · rfl

theorem castle_addCastles_of_legal (planned : b.castlePlan? b.side side = some plan)
    (legal : b.castleIsLegal plan b.side = true) : (b.addCastles K).status.castle side = some plan := by
  rw [addCastles_eq, CastleSide.all, List.foldl_cons, List.foldl_cons, List.foldl_nil]
  cases side with
  | kingside =>
    rw [castle_castleStep_of_ne (by decide), castle_castleStep_self planned legal]
  | queenside =>
    have agree := Agree.of_bare (bare_castleStep b K .kingside)
    rw [← agree.side, ← agree.castlePlan?] at planned
    rw [← agree.side, ← agree.castleIsLegal] at legal
    exact castle_castleStep_self planned legal

theorem castle_settle_of_legal (x : Board) (K : PieceId) (κ : Square)
    (calm : ∀ s, (x.settle K κ).status.checkers.contains s = false)
    (planned : x.castlePlan? x.side side = some plan) (legal : x.castleIsLegal plan x.side = true) :
    (x.settle K κ).status.castle side = some plan := by
  rw [(status_settle x K κ).2] at calm
  unfold settle
  dsimp only
  generalize pinned : (x.keepKingSafe K x.side.opponent).restrictPins κ x.side.opponent = a
  have bare : a.bare = x.bare := pinned ▸ (bare_restrictPins _ _ _).trans (bare_keepKingSafe _ _ _)
  rw [pinned] at calm
  generalize SquareSet.ofList ((a.threatsTo κ x.side.opponent).filterMap
    fun id => (a.piece id).square) = checkers at calm
  have none : checkers.toList = [] :=
    List.eq_nil_iff_forall_not_mem.mpr fun s member => by
      rw [SquareSet.mem_toList, calm] at member
      cases member
  simp only [none, (SquareSet.isEmpty_iff checkers).mpr calm, if_true]
  generalize staged : ({ a with status := { a.status with hasKing := true, checkers } } : Board) = y
  have bareStaged : y.bare = x.bare := staged ▸ (bare_setStatus _ _).trans bare
  have agree := Agree.of_bare ((bare_dropExposingEnPassant y κ).trans bareStaged)
  rw [← agree.side, ← agree.castlePlan?] at planned
  rw [← agree.side, ← agree.castleIsLegal] at legal
  have recorded := castle_addCastles_of_legal (K := K) planned legal
  cases side <;> exact recorded

/-! ### Plans and legality by the rules -/

theorem canCastle_of_castlePlan? (planned : b.castlePlan? c side = some plan) :
    b.canCastle c side = true := by
  unfold castlePlan? at planned
  split at planned
  · cases planned
  · rename_i kept
    simpa using kept

theorem castlePlan?_of_squares (right : b.canCastle c side = true) (king : b.king c = some K)
    (rook : b.castleRook? c side = some R) (kingAt : (b.piece K).square = some k)
    (rookAt : (b.piece R).square = some r) :
    ∃ plan, b.castlePlan? c side = some plan ∧ plan.king = K ∧ plan.rook = R ∧
      plan.kingFrom = k ∧ plan.rookFrom = r ∧ plan.kingTo = side.kingTo c ∧
      plan.rookTo = side.rookTo c := by
  refine ⟨CastlePlan.mk side K k (side.kingTo c) R r (side.rookTo c), ?_, rfl, rfl, rfl, rfl, rfl, rfl⟩
  simp [castlePlan?, right, king, rook, kingAt, rookAt, CastleSide.kingTo, CastleSide.rookTo]

theorem occupancy_lifted : (b.lifted k r).occupancy = (b.occupancy.erase k).erase r :=
  SquareSet.ext fun u => by
    simp only [Placement.contains_occupancy, SquareSet.contains_erase, contains_occupancy_eq_isSome,
      lifted]
    by_cases king : u = k <;> by_cases rook : u = r <;> simp [king, rook]

theorem isAttackedWith_lifted_iff (s : Square) (c : Color) :
    b.isAttackedWith s c ((b.occupancy.erase k).erase r) = true ↔ (b.lifted k r).Attacked s c := by
  refine isAttackedWith_iff_attacked occupancy_lifted (fun u kind => ?_) s
  simp only [lifted, SquareSet.contains_erase, contains_occupancy_eq_isSome]
  by_cases king : u = k <;> by_cases rook : u = r <;> simp [king, rook]
  exact fun on => by simp [on]

variable (coherent : b.Coherent) (kingAt : b.occupant plan.kingFrom = some plan.king)
  (rookAt : b.occupant plan.rookFrom = some plan.rook)
include coherent kingAt rookAt

/-- A plan is legal exactly when the rules open its castle: the squares the king and the rook
cross and land on hold nothing but the two, and with both lifted no square of the king's way,
its start included, is attacked. -/
theorem castleIsLegal_iff :
    b.castleIsLegal plan c = true ↔
      (∀ u, (u = plan.kingTo ∨ plan.kingFrom.StrictlyBetween plan.kingTo u ∨ u = plan.rookTo ∨
          plan.rookFrom.StrictlyBetween plan.rookTo u) →
        u = plan.kingFrom ∨ u = plan.rookFrom ∨ b.pieceOn u = none) ∧
      ∀ u, (u = plan.kingFrom ∨ u = plan.kingTo ∨ plan.kingFrom.StrictlyBetween plan.kingTo u) →
        ¬(b.lifted plan.kingFrom plan.rookFrom).Attacked u c.opponent := by
  unfold castleIsLegal
  simp only [Bool.and_eq_true, List.all_eq_true, SquareSet.mem_toList, SquareSet.contains_union,
    SquareSet.contains_single, Square.contains_between_iff, Bool.or_eq_true, decide_eq_true_eq]
  refine and_congr (forall_congr' fun u => imp_congr (by tauto) ?_)
    (forall_congr' fun u => imp_congr (by tauto) ?_)
  · split
    · rename_i id held
      simp only [decide_eq_true_eq, pieceOn, held, Option.map_some, reduceCtorEq, or_false]
      rw [coherent.eq_iff_of_occupant held kingAt, coherent.eq_iff_of_occupant held rookAt]
    · rename_i held
      simp [pieceOn, held]
  · rw [Bool.not_eq_true', ← Bool.not_eq_true, isAttackedWith_lifted_iff]

omit kingAt rookAt in
theorem castleOpen_of_castlePlan? (planned : b.castlePlan? b.side side = some plan)
    (legal : b.castleIsLegal plan b.side = true) :
    b.CastleOpen side plan.kingFrom plan.rookFrom ∧ plan.kingTo = side.kingTo b.side := by
  obtain ⟨king, rook, kingAt, rookAt, -, kingTo, rookTo⟩ := castlePlan?_eq_some planned
  obtain ⟨clear, safe⟩ := (castleIsLegal_iff coherent (coherent.occupant_of_square kingAt)
    (coherent.occupant_of_square rookAt)).mp legal
  rw [kingTo, rookTo] at clear
  rw [kingTo] at safe
  exact ⟨⟨canCastle_of_castlePlan? planned, by simp [kingSquare, king, kingAt],
    by simp [rook, rookAt], clear, safe⟩, kingTo⟩

omit kingAt rookAt in
theorem castlePlan?_of_castleOpen (open_ : b.CastleOpen side k r) :
    ∃ plan, b.castlePlan? b.side side = some plan ∧ b.castleIsLegal plan b.side = true ∧
      plan.kingFrom = k ∧ plan.kingTo = side.kingTo b.side := by
  obtain ⟨K, king, kingAt⟩ := Option.bind_eq_some_iff.mp open_.king
  obtain ⟨R, rook, rookAt⟩ := Option.bind_eq_some_iff.mp open_.rook
  obtain ⟨plan, planned, rfl, rfl, rfl, rfl, kingTo, rookTo⟩ :=
    castlePlan?_of_squares open_.right king rook kingAt rookAt
  refine ⟨plan, planned, (castleIsLegal_iff coherent (coherent.occupant_of_square kingAt)
    (coherent.occupant_of_square rookAt)).mpr ⟨?_, ?_⟩, rfl, kingTo⟩
  · rw [kingTo, rookTo]
    exact open_.clear
  · rw [kingTo]
    exact open_.safe

omit kingAt rookAt in
theorem not_checks_of_castleOpen (open_ : b.CastleOpen side k r) (x : Square) : ¬b.Checks k x := by
  rintro ⟨kx, on, attacks⟩
  obtain ⟨K, king, kingAt⟩ := Option.bind_eq_some_iff.mp open_.king
  obtain ⟨R, rook, rookAt⟩ := Option.bind_eq_some_iff.mp open_.rook
  have own (u : Square) (id : PieceId) (held : b.occupant u = some id)
      (color : (b.piece id).color = b.side) : x ≠ u := by
    rintro rfl
    simp only [pieceOn, held, Option.map_some, Option.some.injEq, Prod.mk.injEq, color] at on
    exact Color.ne_opponent _ on.2
  have notKing := own k K (coherent.occupant_of_square kingAt)
    (coherent.color_of_roster ((coherent.king_iff _ K).mp king).1)
  obtain ⟨-, -, -, rookColor, -⟩ := occupant_of_castleRook? rook
  have notRook := own r R (coherent.occupant_of_square rookAt) rookColor
  refine open_.safe k (Or.inl rfl) ⟨x, kx, ?_, attacks.mono fun u _ lifted => ?_⟩
  · simp [Board.lifted, notKing, notRook, on]
  · rw [occupancy_lifted] at lifted
    simp only [SquareSet.contains_erase, Bool.and_eq_true] at lifted
    exact lifted.1.1

omit kingAt rookAt in
theorem Settled.legalCastle?_iff (settled : b.Settled) {o t : Square} :
    (∃ plan, b.legalCastle? side = some plan ∧ plan.kingFrom = o ∧ plan.kingTo = t) ↔
      ∃ r, b.CastleOpen side o r ∧ t = side.kingTo b.side := by
  constructor
  · rintro ⟨plan, found, rfl, rfl⟩
    obtain ⟨planned, legal⟩ := settled.castle found
    obtain ⟨open_, kingTo⟩ := castleOpen_of_castlePlan? coherent planned legal
    exact ⟨plan.rookFrom, open_, kingTo⟩
  · rintro ⟨r, open_, rfl⟩
    obtain ⟨plan, planned, legal, rfl, kingTo⟩ := castlePlan?_of_castleOpen coherent open_
    obtain ⟨K, hasKing, stands⟩ := Option.bind_eq_some_iff.mp open_.king
    refine ⟨plan, ?_, rfl, kingTo⟩
    have raw := Agree.of_bare (bare_rawReached b)
    have calm (s : Square) : (b.rawReached.settle K plan.kingFrom).status.checkers.contains s = false := by
      rw [← regenerate_eq_settle hasKing stands, ← settled.status, Bool.eq_false_iff]
      exact fun checking => not_checks_of_castleOpen coherent open_ s
        ((Settled.contains_checkers_iff_checks coherent settled hasKing stands s).mp checking)
    rw [← raw.side, ← raw.castlePlan?] at planned
    rw [← raw.side, ← raw.castleIsLegal] at legal
    rw [legalCastle?, settled.status, regenerate_eq_settle hasKing stands]
    exact castle_settle_of_legal _ K _ calm planned legal

end Board

end Chess
