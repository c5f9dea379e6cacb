import Chess.Proofs.Move.Play
import Chess.Proofs.Board.Setup

namespace Chess

namespace Board

theorem PawnsOffEdge.lift_put {y : Board} (pawns : y.PawnsOffEdge) {id : PieceId} {t : Square}
    (present : (y.piece? id).isSome) (f : Piece → Piece) (keeps : ∀ p, (f p).kind = p.kind)
    (stays : ∀ p, (f p).square = p.square) : (((y.put id t).modifyPiece id f).lift id).PawnsOffEdge := by
  obtain ⟨q, found⟩ := Option.isSome_iff_exists.mp present
  have square : (((y.put id t).modifyPiece id f).piece id).square = some t := by
    simp [Board.piece, found, stays]
  apply pawns.of_occupants
  intro s x held pawn
  rw [occupant_lift, square] at held
  simp only [occupant_modifyPiece, occupant_put] at held
  by_cases here : s = t
  · subst here
    simp at held
  · simp only [here, if_false, Option.some.injEq, Ne.symm here, false_and] at held
    refine Or.inl ⟨held, ?_⟩
    rwa [kind_piece_lift, kind_piece_modifyPiece _ _ _ _ keeps, kind_piece_put] at pawn

end Board

namespace Move

/-! Playing a move keeps a board well formed. The casualty is an enemy piece, the square a
piece moves to is empty once the casualty is off, a castle's king and rook land on squares
that only they held, and a pawn reaching its last rank gives way to a piece that is no pawn
and no king. -/

section Views

variable (m : Move) (b : Board)

@[simp] theorem occupant_advanceClocks (s : Square) : (m.advanceClocks b).occupant s = b.occupant s :=
  rfl

@[simp] theorem piece?_advanceClocks (id : PieceId) : (m.advanceClocks b).piece? id = b.piece? id :=
  rfl

@[simp] theorem piece_advanceClocks (id : PieceId) : (m.advanceClocks b).piece id = b.piece id := rfl

@[simp] theorem roster_advanceClocks (c : Color) : (m.advanceClocks b).roster c = b.roster c := rfl

@[simp] theorem king_advanceClocks (c : Color) : (m.advanceClocks b).king c = b.king c := rfl

@[simp] theorem side_advanceClocks : (m.advanceClocks b).side = b.side := rfl

@[simp] theorem occupant_passTurn (s : Square) : (m.passTurn b).occupant s = b.occupant s := by
  unfold passTurn
  split <;> rfl

@[simp] theorem piece?_passTurn (id : PieceId) : (m.passTurn b).piece? id = b.piece? id := by
  unfold passTurn
  split <;> rfl

@[simp] theorem roster_passTurn (c : Color) : (m.passTurn b).roster c = b.roster c := by
  unfold passTurn
  split <;> cases c <;> rfl

@[simp] theorem king_passTurn (c : Color) : (m.passTurn b).king c = b.king c := by
  unfold passTurn
  split <;> cases c <;> rfl

@[simp] theorem lineage_passTurn : (m.passTurn b).lineage = b.lineage := by
  unfold passTurn
  split <;> rfl

@[simp] theorem played_passTurn : (m.passTurn b).played = b.played.push (m.origin, m.target) := by
  unfold passTurn
  split <;> rfl

@[simp] theorem pieces_passTurn : (m.passTurn b).pieces = b.pieces := by
  unfold passTurn
  split <;> rfl

theorem wellFormed_passTurn (wellFormed : b.WellFormed) : (m.passTurn b).WellFormed :=
  Board.WellFormed.of_views (y := b) (occupant_passTurn m b) (roster_passTurn m b)
    (king_passTurn m b) (fun id => by rw [piece?_passTurn]) wellFormed

theorem coherent_passTurn (coherent : b.Coherent) : (m.passTurn b).Coherent :=
  Board.Coherent.of_views (y := b) (occupant_passTurn m b) (roster_passTurn m b)
    (king_passTurn m b) (fun id => by rw [piece?_passTurn]) coherent

end Views

section Steps

variable (m : Move) (x : Board)

theorem place_of_castle_none (castle : m.castle = none) :
    m.place x = (((m.takeCasualty x).lift m.piece).put m.piece m.target).modifyPiece m.piece
      fun p => { p with moveCount := p.moveCount + 1 } := by
  unfold place movePieces
  split
  · rename_i found
    simp [castle] at found
  · rfl

@[simp] theorem kind_piece_takeCasualty (id : PieceId) :
    ((m.takeCasualty x).piece id).kind = (x.piece id).kind := by
  unfold takeCasualty Board.capture
  split <;> simp [Board.kind_piece_modifyPiece]

@[simp] theorem color_piece_takeCasualty (id : PieceId) :
    ((m.takeCasualty x).piece id).color = (x.piece id).color := by
  unfold takeCasualty Board.capture
  split <;> simp [Board.color_piece_modifyPiece]

@[simp] theorem kind_piece_place (id : PieceId) : ((m.place x).piece id).kind = (x.piece id).kind := by
  unfold place movePieces
  split <;> simp [Board.kind_piece_modifyPiece]

@[simp] theorem color_piece_place (id : PieceId) :
    ((m.place x).piece id).color = (x.piece id).color := by
  unfold place movePieces
  split <;> simp [Board.color_piece_modifyPiece]

theorem pawnsOffEdge_takeCasualty (pawns : x.PawnsOffEdge) : (m.takeCasualty x).PawnsOffEdge := by
  unfold takeCasualty
  cases m.casualty with
  | none => exact pawns
  | some c =>
    obtain ⟨v, s⟩ := c
    exact (pawns.lift v).modifyPiece v _ fun _ => rfl

theorem pawnsOffEdge_place_of_castle_none (pawns : x.PawnsOffEdge) (castle : m.castle = none)
    (allowed : (x.piece m.piece).kind = .pawn →
      m.target.rank ≠ Rank.back .white ∧ m.target.rank ≠ Rank.back .black) :
    (m.place x).PawnsOffEdge := by
  rw [place_of_castle_none m x castle]
  refine (((m.pawnsOffEdge_takeCasualty x pawns).lift m.piece).put m.piece m.target
    fun pawn => ?_).modifyPiece
    m.piece _ fun _ => rfl
  rw [Board.kind_piece_lift, kind_piece_takeCasualty] at pawn
  exact allowed pawn

theorem pawnsOffEdge_lift_place_of_castle_none (pawns : x.PawnsOffEdge) (castle : m.castle = none)
    (present : (x.piece? m.piece).isSome) : ((m.place x).lift m.piece).PawnsOffEdge := by
  rw [place_of_castle_none m x castle]
  have present' : (((m.takeCasualty x).lift m.piece).piece? m.piece).isSome := by
    unfold takeCasualty
    cases m.casualty with
    | none => simpa using present
    | some c =>
      obtain ⟨v, s⟩ := c
      by_cases same : m.piece = v <;> simpa [same] using present
  exact ((m.pawnsOffEdge_takeCasualty x pawns).lift m.piece).lift_put present' _ (fun _ => rfl)
    fun _ => rfl

end Steps

variable {m : Move} {b : Board}

theorem enPassantVictim?_eq_some {origin target s : Square} {c : Color}
    (found : b.enPassantVictim? origin target c = some s) :
    ∃ p, b.pieceAt? s = some p ∧ p.kind = .pawn ∧ p.color ≠ c := by
  unfold Board.enPassantVictim? at found
  split at found
  · cases found
  · dsimp only at found
    split at found
    · rename_i p held
      split at found
      · rename_i victim
        cases found
        exact ⟨p, held, victim.1, victim.2⟩
      · cases found
    · cases found

theorem findCasualty_eq_some {v : PieceId} {s : Square} (found : m.findCasualty b = some (v, s)) :
    m.castle = none ∧ b.occupant s = some v ∧ (b.piece v).color ≠ m.color ∧
      (s = m.target ∨ b.occupant m.target = none) := by
  unfold findCasualty at found
  split at found
  · cases found
  · rename_i castle
    simp only [Option.isSome_iff_ne_none, not_not] at castle
    split at found
    · rename_i id held
      split at found
      · rename_i enemy
        cases found
        exact ⟨castle, held, enemy, Or.inl rfl⟩
      · cases found
    · rename_i empty
      split at found
      · simp only [Option.bind_eq_some_iff, Option.map_eq_some_iff, Prod.mk.injEq] at found
        obtain ⟨s', victim, v', held, rfl, rfl⟩ := found
        obtain ⟨p, standing, -, enemy⟩ := enPassantVictim?_eq_some victim
        simp only [Board.pieceAt?, held, Option.map_some, Option.some.injEq] at standing
        exact ⟨castle, held, standing ▸ enemy, Or.inr empty⟩
      · cases found

theorem occupant_target_of_findCasualty_eq_none (castle : m.castle = none)
    (none_ : m.findCasualty b = none) {id : PieceId} (held : b.occupant m.target = some id) :
    (b.piece id).color = m.color := by
  unfold findCasualty at none_
  simp only [castle, Option.isSome_none, Bool.false_eq_true, if_false, held] at none_
  by_contra enemy
  simp [enemy] at none_

theorem place_of_castle {side : CastleSide} {hop : RookHop} (castle : m.castle = some side)
    (x : Board) :
    (m.complete b (some hop)).place x =
      (((((x.lift m.piece).lift hop.rook).put m.piece m.target).put hop.rook hop.target).modifyPiece
        hop.rook fun p => { p with moveCount := p.moveCount + 1 }).modifyPiece m.piece
        fun p => { p with moveCount := p.moveCount + 1 } := by
  have untouched : (m.complete b (some hop)).takeCasualty x = x := by
    unfold takeCasualty
    simp [findCasualty, castle]
  unfold place
  rw [untouched]
  simp [movePieces, castle]

section Place

variable (coherent : b.Coherent) (settled : b.Settled) (fits : m.Fits b)
  (held : b.occupant m.origin = some m.piece)
include coherent settled fits held

theorem takeCasualty_clears (hop : Option RookHop) (castle : m.castle = none)
    (reach : (b.piece m.piece).targets.contains m.target = true) :
    ((m.complete b hop).takeCasualty ((m.complete b hop).advanceClocks b)).Coherent ∧
      ((m.complete b hop).takeCasualty ((m.complete b hop).advanceClocks b)).occupant m.target =
        none ∧
      ((m.complete b hop).takeCasualty ((m.complete b hop).advanceClocks b)).occupant m.origin =
        some m.piece := by
  have coherentX : ((m.complete b hop).advanceClocks b).Coherent :=
    Board.Coherent.of_views (y := b) (fun _ => rfl) (fun _ => rfl) (fun _ => rfl) (fun _ => rfl)
      coherent
  unfold takeCasualty
  rw [casualty_complete]
  cases found : m.findCasualty b with
  | none =>
    refine ⟨coherentX, ?_, held⟩
    cases target : b.occupant m.target with
    | none => exact target
    | some id =>
      have friend := occupant_target_of_findCasualty_eq_none castle found target
      have enemy := settled.target_avoids_friends (Board.tracks_of_occupant held) reach
        (q := b.piece id) (by simp [Board.pieceAt?, target])
      exact absurd (friend.trans fits.color.symm) enemy
  | some casualty =>
    obtain ⟨v, s⟩ := casualty
    obtain ⟨-, victim, enemy, lands⟩ := findCasualty_eq_some found
    have apart : m.piece ≠ v := fun same => enemy (same ▸ fits.color)
    have standing := coherent.piece_square_of_occupant victim
    refine ⟨coherentX.capture victim, ?_, ?_⟩
    · rw [Board.occupant_capture, Board.occupant_lift]
      rcases lands with rfl | empty
      · simp [standing, victim]
      · simp [empty]
    · rw [Board.occupant_capture, Board.occupant_lift]
      simp [held, apart]

theorem coherent_place_of_castle_none (hop : Option RookHop) (castle : m.castle = none)
    (reach : (b.piece m.piece).targets.contains m.target = true) :
    ((m.complete b hop).place ((m.complete b hop).advanceClocks b)).Coherent ∧
      ((m.complete b hop).place ((m.complete b hop).advanceClocks b)).occupant m.target =
        some m.piece := by
  obtain ⟨coherentT, empty, held'⟩ :=
    takeCasualty_clears coherent settled fits held hop castle reach
  rw [place_of_castle_none _ _ (by rwa [castle_complete]), piece_complete, target_complete]
  refine ⟨(coherentT.relocate held' empty).modifyPiece _ _ (fun _ => rfl) (fun _ => rfl)
    (fun _ => rfl) (fun _ => rfl), ?_⟩
  simp

/-- What an open castle of the move's piece guarantees of the board: the rook stands on its
origin and is a rook, the two destinations differ, and each holds nothing or one of the two
pieces. -/
structure CastleSquares (b : Board) (m : Move) (plan : CastlePlan) : Prop where
  rookHeld : b.occupant plan.rookFrom = some plan.rook
  rook : (b.piece plan.rook).kind = .rook
  apart : m.piece ≠ plan.rook
  targets : m.target ≠ plan.rookTo
  kingClear : b.occupant m.target = none ∨ b.occupant m.target = some m.piece ∨
    b.occupant m.target = some plan.rook
  rookClear : b.occupant plan.rookTo = none ∨ b.occupant plan.rookTo = some m.piece ∨
    b.occupant plan.rookTo = some plan.rook

theorem king_of_open {side : CastleSide} {plan : CastlePlan} (castle : m.castle = some side)
    (turn : b.side = m.color) (open_ : b.legalCastle? side = some plan) : plan.king = m.piece := by
  obtain ⟨planned, -⟩ := settled.castle open_
  obtain ⟨kingRef, -⟩ := Board.castlePlan?_eq_some planned
  have isKing : (b.piece m.piece).kind = .king := fits.kind.trans (fits.castle (by simp [castle]))
  obtain ⟨p, found, square⟩ := coherent.piece?_of_occupant held
  have member := (coherent.standing _ p _ found square).2
  rw [← Board.piece_eq_of_piece? b found, fits.color, ← turn] at member
  exact Option.some.inj (kingRef.symm.trans ((coherent.king_iff _ _).mpr ⟨member, isKing⟩))

theorem castleSquares_of_open {side : CastleSide} {plan : CastlePlan}
    (castle : m.castle = some side) (turn : b.side = m.color)
    (open_ : b.legalCastle? side = some plan) (lands : plan.kingTo = m.target) :
    CastleSquares b m plan := by
  obtain ⟨planned, legal⟩ := settled.castle open_
  obtain ⟨-, rookRef, -, rookFrom, -, kingTo, rookTo⟩ := Board.castlePlan?_eq_some planned
  obtain ⟨kingClear, rookClear⟩ := Board.clear_of_castleIsLegal legal
  have isKing : (b.piece m.piece).kind = .king := fits.kind.trans (fits.castle (by simp [castle]))
  rw [king_of_open coherent settled fits held castle turn open_] at kingClear rookClear
  rw [lands] at kingClear
  obtain ⟨s, rookHeld, -, -, isRook⟩ := Board.occupant_of_castleRook? rookRef
  have rookSquare := coherent.piece_square_of_occupant rookHeld
  rw [rookFrom, Option.some.injEq] at rookSquare
  subst rookSquare
  have apart : m.piece ≠ plan.rook := by
    intro same
    rw [same, isRook] at isKing
    cases isKing
  have targets : m.target ≠ plan.rookTo := by
    rw [← lands, kingTo, rookTo]
    intro same
    have files := congrArg Square.file same
    cases side <;> simp [CastleSide.kingFile, CastleSide.rookFile] at files
  exact ⟨rookHeld, isRook, apart, targets, kingClear, rookClear⟩

theorem place_of_castle_keeps {side : CastleSide} {plan : CastlePlan}
    (castle : m.castle = some side) (turn : b.side = m.color)
    (open_ : b.legalCastle? side = some plan) (lands : plan.kingTo = m.target) :
    let hop : RookHop := { rook := plan.rook, origin := plan.rookFrom, target := plan.rookTo }
    ((m.complete b (some hop)).place ((m.complete b (some hop)).advanceClocks b)).Coherent ∧
      (b.PawnsOffEdge →
        ((m.complete b (some hop)).place ((m.complete b (some hop)).advanceClocks b)).PawnsOffEdge) := by
  intro hop
  obtain ⟨rookHeld, isRook, apart, targets, kingClear, rookClear⟩ :=
    castleSquares_of_open coherent settled fits held castle turn open_ lands
  have isKing : (b.piece m.piece).kind = .king := fits.kind.trans (fits.castle (by simp [castle]))
  have coherentX : ((m.complete b (some hop)).advanceClocks b).Coherent :=
    Board.Coherent.of_views (y := b) (fun _ => rfl) (fun _ => rfl) (fun _ => rfl) (fun _ => rfl)
      coherent
  rw [place_of_castle castle]
  have castled := coherentX.castle held rookHeld apart targets kingClear rookClear
  have counted := castled.modifyPiece plan.rook (fun p => { p with moveCount := p.moveCount + 1 })
    (fun _ => rfl) (fun _ => rfl) (fun _ => rfl) (fun _ => rfl)
  refine ⟨counted.modifyPiece m.piece (fun p => { p with moveCount := p.moveCount + 1 })
    (fun _ => rfl) (fun _ => rfl) (fun _ => rfl) (fun _ => rfl), fun pawns => ?_⟩
  have pawnsX : ((m.complete b (some hop)).advanceClocks b).PawnsOffEdge :=
    Board.PawnsOffEdge.of_views (y := b) (fun _ => rfl) (fun _ => rfl) pawns
  have kingPut := ((pawnsX.lift m.piece).lift plan.rook).put m.piece m.target
    fun pawn => by simp [isKing] at pawn
  have rookPut := kingPut.put plan.rook plan.rookTo fun pawn => by
    simp [isRook] at pawn
  exact (rookPut.modifyPiece plan.rook (fun p => { p with moveCount := p.moveCount + 1 })
    fun _ => rfl).modifyPiece m.piece (fun p => { p with moveCount := p.moveCount + 1 }) fun _ => rfl

end Place

section Promotion

variable {x : Board}

theorem promotedPiece_cases (kind : PieceKind) :
    (m.promotedPiece x kind).1 = x ∨ m.promotedPiece x kind = x.createPiece kind m.color := by
  unfold promotedPiece
  split
  · split
    · exact Or.inl rfl
    · exact Or.inr rfl
  · exact Or.inr rfl

theorem promotedPiece_free (coherent : x.Coherent) (kind : PieceKind) :
    ∃ r, (m.promotedPiece x kind).1.piece? (m.promotedPiece x kind).2 = some r ∧
      r.kind = kind ∧ r.color = m.color ∧ r.square = none ∧ r.captured = false ∧
      (m.promotedPiece x kind).2 ∉ (m.promotedPiece x kind).1.roster m.color := by
  have created : ∃ r, (x.createPiece kind m.color).1.piece? (x.createPiece kind m.color).2 = some r ∧
      r.kind = kind ∧ r.color = m.color ∧ r.square = none ∧ r.captured = false ∧
      (x.createPiece kind m.color).2 ∉ (x.createPiece kind m.color).1.roster m.color := by
    refine ⟨{ kind, color := m.color }, ?_, rfl, rfl, rfl, rfl, ?_⟩
    · rw [Board.piece?_createPiece]
      simp [Board.createPiece]
    rw [Board.roster_createPiece]
    exact coherent.fresh_not_mem_roster m.color
  unfold promotedPiece
  split
  · rename_i id _
    split
    · rename_i orphan
      unfold isOrphan at orphan
      split at orphan
      · rename_i r found
        simp only [Bool.and_eq_true, decide_eq_true_eq, Bool.not_eq_true', Piece.onBoard,
          Option.isSome_eq_false_iff, Option.isNone_iff_eq_none] at orphan
        obtain ⟨⟨⟨⟨kind', color'⟩, off⟩, uncaptured⟩, outside⟩ := orphan
        refine ⟨r, found, kind', color', off, uncaptured, fun member => ?_⟩
        have listed : (x.roster m.color).contains id = true := Array.contains_eq_true_of_mem member
        rw [outside] at listed
        cases listed
      · cases orphan
    · exact created
  · exact created

theorem pawnsOffEdge_lift_createPiece (coherent : x.Coherent) (pawns : (x.lift m.piece).PawnsOffEdge)
    {s : Square} (held : x.occupant s = some m.piece) (kind : PieceKind) :
    ((x.createPiece kind m.color).1.lift m.piece).PawnsOffEdge := by
  have old : m.piece.index ≠ x.pieces.size := Nat.ne_of_lt (coherent.lt_size_of_occupant held)
  apply pawns.of_occupants
  intro t id held' pawn
  have same : ((x.createPiece kind m.color).1.lift m.piece).occupant t = (x.lift m.piece).occupant t := by
    simp only [Board.occupant_lift, Board.piece, Board.piece?_createPiece, old, if_false]
    rfl
  rw [same] at held'
  have stood : x.occupant t = some id := by
    rw [Board.occupant_lift] at held'
    split at held'
    · cases held'
    · exact held'
  have idOld : id.index ≠ x.pieces.size := Nat.ne_of_lt (coherent.lt_size_of_occupant stood)
  refine Or.inl ⟨held', ?_⟩
  simpa [Board.piece, idOld] using pawn

theorem promote_keeps {kind : PieceKind} (coherent : x.Coherent)
    (held : x.occupant m.target = some m.piece) (promotion : m.promotion = some kind)
    (target : kind.isPromotionTarget = true) (color : (x.piece m.piece).color = m.color)
    (notKing : (x.piece m.piece).kind ≠ .king) :
    (m.promote x).2.Coherent ∧ ((x.lift m.piece).PawnsOffEdge → (m.promote x).2.PawnsOffEdge) := by
  obtain ⟨r, found, kindR, colorR, off, uncaptured, outside⟩ :=
    promotedPiece_free (m := m) coherent kind
  have sameBoard := promotedPiece_cases (m := m) (x := x) kind
  unfold promote
  rw [promotion]
  dsimp only
  generalize m.promotedPiece x kind = pair at found outside sameBoard ⊢
  obtain ⟨x', q⟩ := pair
  dsimp only at found outside sameBoard ⊢
  have keeps : x'.Coherent ∧ x'.occupant m.target = some m.piece ∧
      x'.piece m.piece = x.piece m.piece ∧
      ((x.lift m.piece).PawnsOffEdge → (x'.lift m.piece).PawnsOffEdge) := by
    rcases sameBoard with rfl | created
    · exact ⟨coherent, held, rfl, id⟩
    · obtain ⟨rfl, rfl⟩ := Prod.ext_iff.mp created
      have old : m.piece.index ≠ x.pieces.size := Nat.ne_of_lt (coherent.lt_size_of_occupant held)
      exact ⟨coherent.createPiece kind m.color, held, by simp [Board.piece, old],
        fun pawns => pawnsOffEdge_lift_createPiece coherent pawns held kind⟩
  obtain ⟨coherent', held', piece', pawns'⟩ := keeps
  have newKind : r.kind ≠ .king := by
    rw [kindR]
    intro king
    rw [king] at target
    cases target
  have notPawn : r.kind ≠ .pawn := by
    rw [kindR]
    intro pawn
    rw [pawn] at target
    cases target
  rw [Board.replaceInRoster_modifyPiece _ _ _ _ (fun p => { p with moveCount := 1 }) fun _ => rfl]
  have swapped := coherent'.swap held' found off uncaptured (by rw [colorR, piece', color])
    (by rwa [colorR]) newKind (by rwa [piece'])
  refine ⟨swapped.modifyPiece q _ (fun _ => rfl) (fun _ => rfl) (fun _ => rfl) (fun _ => rfl),
    fun pawns => ?_⟩
  have placed := (pawns' pawns).put q m.target fun pawn => by
    rw [Board.kind_piece_lift, Board.piece_eq_of_piece? _ found] at pawn
    exact absurd pawn notPawn
  exact (placed.replaceInRoster m.piece q).modifyPiece q _ fun _ => rfl

end Promotion

section Execute

theorem promotion_complete_eq_some (fits : m.Fits b) {hop : Option RookHop} {k : PieceKind}
    (promo : (m.complete b hop).promotion = some k) :
    k.isPromotionTarget = true ∧ m.kind = .pawn ∧ m.target.rank = Rank.promotion m.color := by
  rw [promotion_complete] at promo
  split at promo
  · rename_i promotes
    cases promo
    exact ⟨rfl, promotes.1, promotes.2.1⟩
  · exact fits.promotion k promo

theorem not_last_of_promotion_complete_eq_none {hop : Option RookHop}
    (promo : (m.complete b hop).promotion = none) :
    ¬(m.kind = .pawn ∧ m.target.rank = Rank.promotion m.color) := by
  rw [promotion_complete] at promo
  rintro ⟨pawn, last⟩
  split at promo
  · cases promo
  · rename_i kept
    exact kept ⟨pawn, last, by simp [promo]⟩

theorem promotion_complete_of_castle (fits : m.Fits b) (castle : m.castle.isSome)
    (hop : Option RookHop) : (m.complete b hop).promotion = none := by
  have king := fits.castle castle
  rw [promotion_complete, if_neg (by simp [king])]
  cases given : m.promotion with
  | none => rfl
  | some k =>
    have pawn := (fits.promotion k given).2.1
    rw [king] at pawn
    cases pawn

theorem off_edge_of_ne {s : Square} {c : Color} (back : s.rank ≠ Rank.back c)
    (last : s.rank ≠ Rank.promotion c) : s.rank ≠ Rank.back .white ∧ s.rank ≠ Rank.back .black := by
  cases c with
  | white => exact ⟨back, last⟩
  | black => exact ⟨last, back⟩

theorem promote_place_keeps (coherent : b.Coherent) (settled : b.Settled) (fits : m.Fits b)
    {hop : Option RookHop} (checked : m.checkPlayable b = .ok hop) :
    (m.playSteps b hop).2.Coherent ∧ (b.PawnsOffEdge → (m.playSteps b hop).2.PawnsOffEdge) := by
  obtain ⟨-, -, held, turn, legal⟩ := checkPlayable_eq_ok.mp checked
  unfold playSteps
  rcases legal with ⟨castle, reach, -⟩ | ⟨side, plan, castle, open_, lands, rfl⟩
  case inl =>
    obtain ⟨coherentX, landed⟩ :=
      coherent_place_of_castle_none coherent settled fits held hop castle reach
    have pawnsX : b.PawnsOffEdge → ((m.complete b hop).advanceClocks b).PawnsOffEdge :=
      Board.PawnsOffEdge.of_views (y := b) (fun _ => rfl) (fun _ => rfl)
    have castle' : (m.complete b hop).castle = none := by rwa [castle_complete]
    cases promo : (m.complete b hop).promotion with
    | none =>
      have notLast := not_last_of_promotion_complete_eq_none promo
      have allowed : (((m.complete b hop).advanceClocks b).piece (m.complete b hop).piece).kind =
          .pawn → m.target.rank ≠ Rank.back .white ∧ m.target.rank ≠ Rank.back .black := by
        intro pawn
        simp only [piece_advanceClocks, piece_complete] at pawn
        have back := settled.pawn_target_ne_back (Board.tracks_of_occupant held) pawn reach
        rw [fits.color] at back
        exact off_edge_of_ne back fun last => notLast ⟨fits.kind ▸ pawn, last⟩
      simp only [promote, promo]
      exact ⟨coherentX, fun pawns => pawnsOffEdge_place_of_castle_none _ _ (pawnsX pawns) castle'
        (by simpa only [target_complete] using allowed)⟩
    | some k =>
      obtain ⟨target, pawn, -⟩ := promotion_complete_eq_some fits promo
      have present : (((m.complete b hop).advanceClocks b).piece? (m.complete b hop).piece).isSome := by
        obtain ⟨p, found, -⟩ := coherent.piece?_of_occupant held
        simp [found]
      obtain ⟨coherentY, pawnsY⟩ := promote_keeps coherentX
        (by rw [target_complete, piece_complete]; exact landed) promo target
        (by simp [fits.color]) (by simp [fits.kind, pawn])
      exact ⟨coherentY, fun pawns =>
        pawnsY (pawnsOffEdge_lift_place_of_castle_none _ _ (pawnsX pawns) castle' present)⟩
  case inr =>
    simp only [promote, promotion_complete_of_castle fits (by simp [castle])]
    exact place_of_castle_keeps coherent settled fits held castle turn open_ lands

end Execute

end Move

namespace Board

variable {b : Board} {m : Move}

theorem Coherent.execute (coherent : b.Coherent) (settled : b.Settled) (fits : m.Fits b)
    {r : Move × Board} (run : m.execute b = .ok r) : r.2.Coherent := by
  obtain ⟨hop, checked, board, -⟩ := Move.execute_eq_ok run
  rw [board]
  have placed := (Move.promote_place_keeps coherent settled fits checked).1
  generalize m.playSteps b hop = p at placed ⊢
  exact Board.Coherent.of_views (y := (p.1.passTurn p.2).regenerate) (fun _ => rfl)
    (fun c => by cases c <;> rfl) (fun c => by cases c <;> rfl) (fun _ => rfl)
    (Move.coherent_passTurn p.1 p.2 placed).regenerate

theorem WellFormed.execute (wellFormed : b.WellFormed) (settled : b.Settled) (fits : m.Fits b)
    {r : Move × Board} (run : m.execute b = .ok r) : r.2.WellFormed := by
  obtain ⟨hop, checked, board, -⟩ := Move.execute_eq_ok run
  rw [board]
  obtain ⟨coherentY, pawnsY⟩ := Move.promote_place_keeps wellFormed.toCoherent settled fits checked
  have placed : (m.playSteps b hop).2.WellFormed := ⟨coherentY, pawnsY wellFormed.pawns⟩
  generalize m.playSteps b hop = p at placed ⊢
  exact Board.WellFormed.of_views (y := (p.1.passTurn p.2).regenerate) (fun _ => rfl)
    (fun c => by cases c <;> rfl) (fun c => by cases c <;> rfl) (fun _ => rfl)
    (Move.wellFormed_passTurn p.1 p.2 placed).regenerate

theorem Settled.execute {r : Move × Board} (run : m.execute b = .ok r) : r.2.Settled := by
  obtain ⟨hop, -, board, -⟩ := Move.execute_eq_ok run
  rw [board]
  exact (Board.Settled.regenerate _).started true

end Board

end Chess
