import Chess.Proofs.Move.Walk

namespace Chess

/-! The piece a promotion brings in, brought back. A move remembers the piece its promotion
put on the board, and playing the move again brings that piece back when it is an orphan: in
the arena, of the promotion's kind and the move's colour, off the board, not captured and in
no roster of its colour. Taking the promotion back leaves its piece an orphan, and moves
played and taken back in between, each take-back undoing the last move played, keep every
orphan one: a move either leaves the piece alone, or brings it in itself and takes it out
again. Playing the promotion again therefore puts the same piece on the same square, in the
same roster slot, and the arena does not grow. Moves made by `Move.new` and `Move.castleOn`
hold no promoted piece, so their trial on a copy of the board lends the board none. -/

namespace Board

/-- A piece is an orphan of a kind and colour: in the arena with that kind and colour, off the
board, not captured and in no roster of its colour. -/
def Orphan (b : Board) (id : PieceId) (kind : PieceKind) (color : Color) : Prop :=
  ∃ p, b.piece? id = some p ∧ p.kind = kind ∧ p.color = color ∧ p.square = none ∧
    p.captured = false ∧ id ∉ b.roster color

variable {b x y : Board} {id : PieceId} {kind : PieceKind} {color : Color}

theorem isOrphan_iff : Move.isOrphan b id kind color = true ↔ b.Orphan id kind color := by
  unfold Move.isOrphan Orphan
  cases found : b.piece? id with
  | none => simp
  | some p =>
    simp [Piece.onBoard, and_assoc]

theorem Orphan.not_tracks (orphan : b.Orphan id kind color) (coherent : b.Coherent) :
    ¬b.Tracks id := by
  obtain ⟨p, found, -, rfl, off, -, outside⟩ := orphan
  intro tracked
  obtain ⟨c, listed⟩ := coherent.listed tracked
  obtain ⟨p', found', colored, -⟩ := coherent.enrolled c id listed
  rw [found, Option.some.injEq] at found'
  subst found'
  exact outside (colored ▸ listed)

theorem Orphan.of_same (orphan : x.Orphan id kind color)
    (piece : (y.piece? id).map Piece.bare = (x.piece? id).map Piece.bare)
    (roster : id ∈ y.roster color ↔ id ∈ x.roster color) : y.Orphan id kind color := by
  obtain ⟨p, found, rfl, rfl, off, uncaptured, outside⟩ := orphan
  rw [found, Option.map_some] at piece
  obtain ⟨q, found', bare⟩ := Option.map_eq_some_iff.mp piece
  obtain ⟨kindQ, colorQ, capturedQ, -, squareQ⟩ := (Piece.bare_eq_iff q p).mp bare
  exact ⟨q, found', kindQ, colorQ, squareQ.trans off, capturedQ.trans uncaptured,
    fun member => outside (colorQ ▸ roster.mp (colorQ ▸ member))⟩

end Board

namespace Move

variable {m : Move} {w x y : Board} {id : PieceId}

section Frame

/-! Playing and taking back touch only the pieces of the move: the mover, a castle's rook, the
casualty and the promoted piece. Every other piece keeps its record, reach sets apart, and its
places in the rosters. -/

theorem piece?_place_of_ne (mover : id ≠ m.piece)
    (rook : ∀ hop side, m.castleRook = some hop → m.castle = some side → id ≠ hop.rook)
    (casualty : ∀ v, m.casualty = some v → id ≠ v.1) :
    (m.place x).piece? id = x.piece? id := by
  unfold place movePieces takeCasualty
  split <;> split <;> simp_all

theorem piece?_promote_of_ne (mover : id ≠ m.piece) (old : id.index < x.pieces.size)
    (promoted : (m.promote x).1.promoted ≠ some id) :
    (m.promote x).2.piece? id = x.piece? id := by
  cases promotion : m.promotion with
  | none => rw [promote_of_promotion_none promotion]
  | some kind =>
    rw [promote_of_promotion_some promotion] at promoted ⊢
    have apart : id ≠ (m.promotedPiece x kind).2 := fun same => promoted (by rw [same])
    have arena : (m.promotedPiece x kind).1.piece? id = x.piece? id := by
      rcases promotedPiece_cases (m := m) (x := x) kind with same | created
      · rw [same]
      · rw [created, Board.piece?_createPiece, if_neg (Nat.ne_of_lt old)]
    simp [apart, mover, arena]

theorem mem_roster_promote_iff (mover : id ≠ m.piece)
    (promoted : (m.promote x).1.promoted ≠ some id) (c : Color) :
    id ∈ (m.promote x).2.roster c ↔ id ∈ x.roster c := by
  cases promotion : m.promotion with
  | none => rw [promote_of_promotion_none promotion]
  | some kind =>
    rw [promote_of_promotion_some promotion] at promoted ⊢
    have apart : id ≠ (m.promotedPiece x kind).2 := fun same => promoted (by rw [same])
    have arena : (m.promotedPiece x kind).1.roster c = x.roster c := by
      rcases promotedPiece_cases (m := m) (x := x) kind with same | created
      · rw [same]
      · rw [created, Board.roster_createPiece]
    simp only [Board.roster_replaceInRoster, Board.roster_modifyPiece, Board.roster_put,
      Board.roster_lift]
    split
    · rw [Board.mem_replace, arena]
      simp [apart, mover]
    · rw [arena]

@[simp] theorem roster_unplace (c : Color) : (m.unplace x).roster c = x.roster c := by
  unfold unplace returnPieces restoreCasualty
  split <;> split <;> simp

theorem mem_roster_unpromote_iff (mover : id ≠ m.piece) (promoted : m.promoted ≠ some id)
    (c : Color) : id ∈ (m.unpromote x).roster c ↔ id ∈ x.roster c := by
  unfold unpromote
  split
  · rename_i q found
    have apart : id ≠ q := fun same => promoted (by rw [found, same])
    simp only [Board.roster_put, Board.roster_replaceInRoster, Board.roster_lift]
    split
    · rw [Board.mem_replace]
      simp [apart, mover]
    · rfl
  · rfl

theorem tracks_moved (coherent : w.Coherent) (settled : w.Settled) (fits : m.Fits w)
    {r : Move × Board} (run : m.execute w = .ok r) :
    w.Tracks r.1.piece ∧
      (∀ hop side, r.1.castleRook = some hop → r.1.castle = some side → w.Tracks hop.rook) ∧
      ∀ v, r.1.casualty = some v → w.Tracks v.1 := by
  obtain ⟨hop, checked, -, outcome, move⟩ := execute_eq_ok run
  obtain ⟨-, -, held, -⟩ := checkPlayable_eq_ok.mp checked
  obtain ⟨promoted, fields⟩ := playSteps_fst (m := m) (w := w) hop
  refine ⟨?_, fun hop' side rook castle => ?_, fun v casualty => ?_⟩
  · have piece : r.1.piece = m.piece := by simp [move, fields]
    exact piece ▸ Board.tracks_of_occupant held
  · have rook' : hop = some hop' := by simpa [move, fields] using rook
    have castle' : m.castle = some side := by simpa [move, fields] using castle
    exact rook_playSteps coherent settled fits checked rook' castle'
  · have found : m.findCasualty w = some v := by simpa [move, fields] using casualty
    exact Board.tracks_of_occupant (findCasualty_eq_some found).2.1

theorem untouched_execute {r : Move × Board} (run : m.execute w = .ok r)
    (mover : id ≠ r.1.piece)
    (rook : ∀ hop side, r.1.castleRook = some hop → r.1.castle = some side → id ≠ hop.rook)
    (casualty : ∀ v, r.1.casualty = some v → id ≠ v.1) (promoted : r.1.promoted ≠ some id)
    (old : id.index < w.pieces.size) :
    (r.2.piece? id).map Piece.bare = (w.piece? id).map Piece.bare ∧
      ∀ c, id ∈ r.2.roster c ↔ id ∈ w.roster c := by
  obtain ⟨hop, -, board, outcome, move⟩ := execute_eq_ok run
  obtain ⟨promotedP, fields⟩ := playSteps_fst (m := m) (w := w) hop
  simp only [move, fields] at mover rook casualty promoted
  have promotedStep : ((m.complete w hop).promote
      ((m.complete w hop).place ((m.complete w hop).advanceClocks w))).1.promoted ≠ some id := by
    have same := congrArg Move.promoted fields
    unfold playSteps at same
    rw [same]
    exact promoted
  rw [board]
  refine ⟨?_, fun c => ?_⟩
  · rw [show ({ ((m.playSteps w hop).1.passTurn (m.playSteps w hop).2).regenerate with
        started := true } : Board).piece? id =
        ((m.playSteps w hop).1.passTurn (m.playSteps w hop).2).regenerate.piece? id from rfl,
      Board.piece?_of_bare (Board.bare_regenerate _) id, piece?_passTurn]
    unfold playSteps
    rw [piece?_promote_of_ne mover (by rw [size_place]; exact old) promotedStep,
      piece?_place_of_ne mover rook casualty, piece?_advanceClocks]
  · rw [show ({ ((m.playSteps w hop).1.passTurn (m.playSteps w hop).2).regenerate with
        started := true } : Board).roster c =
        ((m.playSteps w hop).1.passTurn (m.playSteps w hop).2).regenerate.roster c from rfl,
      Board.roster_regenerate, roster_passTurn]
    unfold playSteps
    rw [mem_roster_promote_iff mover promotedStep, roster_place, roster_advanceClocks]

theorem untouched_unexecute {t : Move × Board} (back : m.unexecute y = .ok t)
    (mover : id ≠ m.piece)
    (rook : ∀ hop side, m.castleRook = some hop → m.castle = some side → id ≠ hop.rook)
    (casualty : ∀ v, m.casualty = some v → id ≠ v.1) (promoted : m.promoted ≠ some id) :
    (t.2.piece? id).map Piece.bare = (y.piece? id).map Piece.bare ∧
      ∀ c, id ∈ t.2.roster c ↔ id ∈ y.roster c := by
  obtain ⟨-, -, -, rfl⟩ := unexecute_eq_ok.mp back
  refine ⟨?_, fun c => ?_⟩
  · rw [Board.piece?_of_bare (Board.bare_regenerate _) id]
    show ((m.unplace (m.unpromote { y with played := y.played.pop, side := m.color })).piece? id).map
      Piece.bare = _
    rw [piece?_unplace_of_ne mover rook casualty,
      piece?_unpromote_of_ne (fun q found same => promoted (by rw [found, same])) mover]
    rfl
  · rw [Board.roster_regenerate]
    show id ∈ (m.unplace (m.unpromote { y with played := y.played.pop, side := m.color })).roster c ↔ _
    rw [roster_unplace, mem_roster_unpromote_iff mover promoted]
    rfl

end Frame

section Promotion

/-! The piece a promotion brings in, and the roster slot it takes. -/

variable {kind : PieceKind}

theorem promotedPiece_of_orphan {q : PieceId} (promoted : m.promoted = some q)
    (orphan : x.Orphan q kind m.color) : m.promotedPiece x kind = (x, q) := by
  simp [promotedPiece, promoted, Board.isOrphan_iff.mpr orphan]

theorem promotedPiece_of_none (promoted : m.promoted = none) :
    m.promotedPiece x kind = x.createPiece kind m.color := by
  simp [promotedPiece, promoted]

theorem piece_promoted_promote (promotion : m.promotion = some kind) (coherent : x.Coherent) :
    ((m.promote x).2.piece (m.promotedPiece x kind).2).kind = kind ∧
      ((m.promote x).2.piece (m.promotedPiece x kind).2).color = m.color := by
  obtain ⟨p, found, kindP, colorP, -⟩ := promotedPiece_free (m := m) coherent kind
  rw [promote_of_promotion_some promotion]
  have kept : ∀ (z : Board) (new id : PieceId), (z.replaceInRoster m.piece new).piece id = z.piece id :=
    fun z new id => by simp [Board.piece]
  rw [kept, Board.kind_piece_modifyPiece _ _ _ (fun p => { p with moveCount := 1 }) fun _ => rfl,
    Board.color_piece_modifyPiece _ _ _ (fun p => { p with moveCount := 1 }) fun _ => rfl,
    Board.kind_piece_put, Board.color_piece_put,
    Board.kind_piece_lift, Board.color_piece_lift, Board.piece_eq_of_piece? _ found]
  exact ⟨kindP, colorP⟩

theorem roster_promote_of_promotion_some (promotion : m.promotion = some kind)
    (color : (x.piece m.piece).color = m.color) (old : m.piece.index < x.pieces.size) :
    (m.promote x).2.roster m.color =
      (x.roster m.color).map fun id => if id = m.piece then (m.promotedPiece x kind).2 else id := by
  have arena : ∀ c, (m.promotedPiece x kind).1.roster c = x.roster c := fun c => by
    rcases promotedPiece_cases (m := m) (x := x) kind with same | created
    · rw [same]
    · rw [created, Board.roster_createPiece]
  have pawn : ((m.promotedPiece x kind).1.piece m.piece).color = (x.piece m.piece).color := by
    rcases promotedPiece_cases (m := m) (x := x) kind with same | created
    · rw [same]
    · simp [created, Board.piece, Nat.ne_of_lt old]
  rw [promote_of_promotion_some promotion]
  simp only [Board.roster_replaceInRoster, Board.roster_modifyPiece, Board.roster_put,
    Board.roster_lift, arena]
  rw [if_pos]
  rw [Board.color_piece_modifyPiece _ _ _ (fun p => { p with moveCount := 1 }) fun _ => rfl,
    Board.color_piece_put, Board.color_piece_lift, pawn, color]

end Promotion

section Orphans

variable {kind : PieceKind} {color : Color}

theorem apart_moved (coherent : w.Coherent) (settled : w.Settled) (fits : m.Fits w)
    {r : Move × Board} (run : m.execute w = .ok r) (untracked : ¬w.Tracks id) :
    id ≠ r.1.piece ∧
      (∀ hop side, r.1.castleRook = some hop → r.1.castle = some side → id ≠ hop.rook) ∧
      ∀ v, r.1.casualty = some v → id ≠ v.1 := by
  obtain ⟨mover, rook, casualty⟩ := tracks_moved coherent settled fits run
  exact ⟨fun same => untracked (by rw [same]; exact mover),
    fun hop side hopped castled same => untracked (by rw [same]; exact rook hop side hopped castled),
    fun v taken same => untracked (by rw [same]; exact casualty v taken)⟩

theorem orphan_execute (coherent : w.Coherent) (settled : w.Settled) (fits : m.Fits w)
    {r : Move × Board} (run : m.execute w = .ok r) (orphan : w.Orphan id kind color)
    (promoted : r.1.promoted ≠ some id) : r.2.Orphan id kind color := by
  obtain ⟨mover, rook, casualty⟩ := apart_moved coherent settled fits run (orphan.not_tracks coherent)
  have old : id.index < w.pieces.size := by
    obtain ⟨p, found, -⟩ := orphan
    exact Board.Coherent.lt_size_of_piece? found
  obtain ⟨piece, roster⟩ := untouched_execute run mover rook casualty promoted old
  exact orphan.of_same piece (roster color)

theorem orphan_unexecute {t : Move × Board} (back : m.unexecute y = .ok t) (mover : id ≠ m.piece)
    (rook : ∀ hop side, m.castleRook = some hop → m.castle = some side → id ≠ hop.rook)
    (casualty : ∀ v, m.casualty = some v → id ≠ v.1) (promoted : m.promoted ≠ some id)
    (orphan : y.Orphan id kind color) : t.2.Orphan id kind color := by
  obtain ⟨piece, roster⟩ := untouched_unexecute back mover rook casualty promoted
  exact orphan.of_same piece (roster color)

theorem orphan_unexecute_promoted {t : Move × Board} (back : m.unexecute y = .ok t)
    (coherent : y.Coherent) (promoted : m.promoted = some id) (mover : id ≠ m.piece)
    (rook : ∀ hop side, m.castleRook = some hop → m.castle = some side → id ≠ hop.rook)
    (casualty : ∀ v, m.casualty = some v → id ≠ v.1) {p : Piece} (found : y.piece? id = some p)
    {s : Square} (standing : p.square = some s) : t.2.Orphan id p.kind p.color := by
  obtain ⟨uncaptured, -⟩ := coherent.standing id p s found standing
  obtain ⟨-, -, -, taken⟩ := unexecute_eq_ok.mp back
  have base : ({ y with played := y.played.pop, side := m.color } : Board).piece? id = some p :=
    found
  have lifted : (m.unpromote { y with played := y.played.pop, side := m.color }).piece? id =
      some { p with square := none } := by
    unfold unpromote
    rw [promoted]
    simp [mover, base]
  have record : (t.2.piece? id).map Piece.bare = some { p with square := none }.bare := by
    rw [taken, Board.piece?_of_bare (Board.bare_regenerate _) id]
    show ((m.unplace (m.unpromote { y with played := y.played.pop, side := m.color })).piece?
      id).map Piece.bare = _
    rw [piece?_unplace_of_ne mover rook casualty, lifted, Option.map_some]
  obtain ⟨p', found', bare⟩ := Option.map_eq_some_iff.mp record
  obtain ⟨kindP, colorP, capturedP, -, squareP⟩ := (Piece.bare_eq_iff p' _).mp bare
  refine ⟨p', found', kindP, colorP, squareP, capturedP.trans uncaptured, fun member => ?_⟩
  rw [taken, Board.roster_regenerate] at member
  change id ∈ (m.unplace (m.unpromote { y with played := y.played.pop, side := m.color })).roster
    p.color at member
  rw [roster_unplace] at member
  unfold unpromote at member
  rw [promoted] at member
  simp only [Board.roster_put, Board.roster_replaceInRoster, Board.roster_lift] at member
  split at member
  · rw [Board.mem_replace] at member
    simp [mover] at member
  · rename_i other
    exact other (by simp [Board.piece, base])

theorem settled_unexecute {t : Move × Board} (back : m.unexecute y = .ok t) : t.2.Settled := by
  obtain ⟨-, -, -, rfl⟩ := unexecute_eq_ok.mp back
  exact Board.Settled.regenerate _

end Orphans

theorem occupant_promoted_execute (coherent : w.Coherent) (settled : w.Settled) (fits : m.Fits w)
    {r : Move × Board} (run : m.execute w = .ok r) (promoted : r.1.promoted = some id) :
    r.2.occupant m.target = some id := by
  obtain ⟨hop, checked, board, outcome, move⟩ := execute_eq_ok run
  have promotedP : (m.playSteps w hop).1.promoted = some id := by
    rw [← promoted, move]
  have landed := (promoted_playSteps coherent settled fits checked promotedP).1
  rw [board, (@alikeBut_passTurn_regenerate (fun _ => False) _ _ true).occupant]
  exact landed

section Replay

variable {kind : PieceKind}

theorem roster_promote_complete (coherent : w.Coherent) (fits : m.Fits w) {hop : Option RookHop}
    (held : w.occupant m.origin = some m.piece) (promo : (m.complete w hop).promotion = some kind) :
    ((m.complete w hop).promote ((m.complete w hop).place ((m.complete w hop).advanceClocks w))).2.roster
        m.color = (w.roster m.color).map fun id => if id = m.piece then
          ((m.complete w hop).promotedPiece ((m.complete w hop).place
            ((m.complete w hop).advanceClocks w)) kind).2 else id := by
  have pawnColor : (((m.complete w hop).place ((m.complete w hop).advanceClocks w)).piece
      (m.complete w hop).piece).color = (m.complete w hop).color := by
    rw [color_piece_place, piece_advanceClocks, piece_complete, color_complete]
    exact fits.color
  have old : (m.complete w hop).piece.index <
      ((m.complete w hop).place ((m.complete w hop).advanceClocks w)).pieces.size := by
    rw [size_place, piece_complete]
    exact coherent.lt_size_of_tracks (Board.tracks_of_occupant held)
  have slot := roster_promote_of_promotion_some promo pawnColor old
  rwa [color_complete, piece_complete, roster_place, roster_advanceClocks] at slot

/-- A pawn move to its last rank promotes. The move holds the piece it brought in: of the
promotion's kind and the move's colour, a piece the board played on did not keep, a new one
when the move held none, and in the pawn's slot of its roster. -/
theorem promotes_execute (coherent : w.Coherent) (settled : w.Settled) (fits : m.Fits w)
    (pawn : m.kind = .pawn) (last : m.target.rank = Rank.promotion m.color)
    {r : Move × Board} (run : m.execute w = .ok r) :
    ∃ q kind, r.1.promotion = some kind ∧ r.1.promoted = some q ∧ ¬w.Keeps q ∧
      (r.2.piece q).kind = kind ∧ (r.2.piece q).color = m.color ∧
      (m.promoted = none → q.index = w.pieces.size) ∧
      r.2.roster m.color = (w.roster m.color).map fun id => if id = m.piece then q else id := by
  obtain ⟨hop, checked, board, outcome, move⟩ := execute_eq_ok run
  obtain ⟨kind, promo⟩ : ∃ kind, (m.complete w hop).promotion = some kind := by
    cases given : (m.complete w hop).promotion with
    | some kind => exact ⟨kind, rfl⟩
    | none => exact absurd ⟨pawn, last⟩ (not_last_of_promotion_complete_eq_none given)
  obtain ⟨-, coherentX, -⟩ := placed_of_promotion coherent settled fits checked promo
  obtain ⟨-, -, held, -⟩ := checkPlayable_eq_ok.mp checked
  have steps : m.playSteps w hop = (m.complete w hop).promote
      ((m.complete w hop).place ((m.complete w hop).advanceClocks w)) := rfl
  have promotedSteps : (m.playSteps w hop).1.promoted = some ((m.complete w hop).promotedPiece
      ((m.complete w hop).place ((m.complete w hop).advanceClocks w)) kind).2 := by
    rw [steps, promote_of_promotion_some promo]
  have alike := @alikeBut_passTurn_regenerate (fun _ => False) (m.playSteps w hop).1
    (m.playSteps w hop).2 true
  rw [← board] at alike
  have record := piece_promoted_promote promo coherentX
  rw [← steps, color_complete] at record
  have slot := roster_promote_complete coherent fits held promo
  rw [← steps] at slot
  refine ⟨_, kind, by rw [move, (playSteps_fst (m := m) (w := w) hop).choose_spec]; exact promo,
    by rw [move]; exact promotedSteps,
    (promoted_playSteps coherent settled fits checked promotedSteps).2, ?_, ?_, fun none_ => ?_, ?_⟩
  · rw [← Piece.bare_kind, alike.piece_bare not_false, Piece.bare_kind]
    exact record.1
  · rw [← Piece.bare_color, alike.piece_bare not_false, Piece.bare_color]
    exact record.2
  · rw [promotedPiece_of_none (by rw [promoted_complete]; exact none_)]
    simp [Board.createPiece]
    rfl
  · rw [alike.roster, slot]

/-- A move played and taken back passes its checks again on every board that restores the
board it was played on: the same piece on its origin, the same side to move, and the same
reach or the same open castle. -/
theorem checkPlayable_played_again {hop : Option RookHop} (checked : m.checkPlayable w = .ok hop)
    {r : Move × Board} (run : m.execute w = .ok r) {z : Board} (restores : w.Restores z) :
    { r.1 with executed := false }.checkPlayable z = .ok hop := by
  obtain ⟨hop', checked', -, outcome, move⟩ := execute_eq_ok run
  rw [checked] at checked'
  cases checked'
  obtain ⟨promoted, fields⟩ := playSteps_fst (m := m) (w := w) hop
  obtain ⟨lineage, -, held, side, legal⟩ := checkPlayable_eq_ok.mp checked
  apply checkPlayable_eq_ok.mpr
  simp only [move, fields, lineage_complete, piece_complete, origin_complete, color_complete,
    castle_complete, target_complete, castleRook_complete]
  refine ⟨by rw [← restores.lineage, lineage], trivial, by rw [← restores.toAgree.occupant, held],
    by rw [← restores.toAgree.side, side], ?_⟩
  rcases legal with ⟨castle, reach, -⟩ | ⟨side', plan, castle, open_, lands, rfl⟩
  · refine Or.inl ⟨castle, ?_, trivial⟩
    rw [← restores.toSame.piece_eq (Board.tracks_of_occupant held)]
    exact reach
  · refine Or.inr ⟨side', plan, castle, ?_, lands, rfl⟩
    rw [Board.legalCastle?, ← restores.status]
    exact open_

theorem Fits.restores (fits : m.Fits w) (restores : w.Restores y) (tracked : w.Tracks m.piece) :
    m.Fits y :=
  ⟨by rw [← restores.toSame.piece_eq tracked]; exact fits.kind,
    by rw [← restores.toSame.piece_eq tracked]; exact fits.color, fits.castle, fits.promotion,
    fits.promoted⟩

theorem execute_orphan_promoted (coherent : w.Coherent) (settled : w.Settled) (fits : m.Fits w)
    {hop : Option RookHop} (checked : m.checkPlayable w = .ok hop) {q : PieceId}
    (promotion : m.promotion = some kind) (promoted : m.promoted = some q)
    (orphan : w.Orphan q kind m.color) :
    ∃ s, m.execute w = .ok s ∧ s.1.promoted = some q ∧ s.2.occupant m.target = some q ∧
      s.2.roster m.color = (w.roster m.color).map (fun id => if id = m.piece then q else id) ∧
      s.2.pieces.size = w.pieces.size := by
  obtain ⟨s, run⟩ := execute_ok_iff.mpr ⟨hop, checked⟩
  obtain ⟨hop', checked', board, outcome, move⟩ := execute_eq_ok run
  rw [checked] at checked'
  cases checked'
  have promo : (m.complete w hop).promotion = some kind := by
    rw [promotion_complete, if_neg (by simp [promotion])]
    exact promotion
  obtain ⟨castle, -, -⟩ := placed_of_promotion coherent settled fits checked promo
  obtain ⟨-, -, held, -⟩ := checkPlayable_eq_ok.mp checked
  have untracked := orphan.not_tracks coherent
  have orphanX : ((m.complete w hop).place ((m.complete w hop).advanceClocks w)).Orphan q kind
      (m.complete w hop).color := by
    rw [color_complete]
    refine orphan.of_same ?_ (by rw [roster_place, roster_advanceClocks])
    rw [piece?_place_of_ne ?mover ?rook ?casualty, piece?_advanceClocks]
    case mover =>
      rw [piece_complete]
      exact fun same => untracked (by rw [same]; exact Board.tracks_of_occupant held)
    case rook =>
      intro hop side _ castled
      rw [castle_complete, castle] at castled
      cases castled
    case casualty =>
      rintro ⟨v, s⟩ taken same
      rw [casualty_complete] at taken
      exact untracked (by rw [same]; exact Board.tracks_of_occupant (findCasualty_eq_some taken).2.1)
  have picked := promotedPiece_of_orphan (by rw [promoted_complete]; exact promoted) orphanX
  have promotedS : s.1.promoted = some q := by
    rw [move]
    show ((m.complete w hop).promote
      ((m.complete w hop).place ((m.complete w hop).advanceClocks w))).1.promoted = some q
    rw [promote_of_promotion_some promo, picked]
  have slot := roster_promote_complete coherent fits held promo
  rw [picked] at slot
  refine ⟨s, run, promotedS, occupant_promoted_execute coherent settled fits run promotedS, ?_, ?_⟩
  · rw [board, (@alikeBut_passTurn_regenerate (fun _ => False) _ _ true).roster]
    exact slot
  · rw [board]
    show ((m.playSteps w hop).1.passTurn (m.playSteps w hop).2).regenerate.pieces.size = _
    rw [Board.size_regenerate, size_passTurn]
    show ((m.complete w hop).promote
      ((m.complete w hop).place ((m.complete w hop).advanceClocks w))).2.pieces.size = _
    rw [promote_of_promotion_some promo, picked]
    simp
    rfl

end Replay

theorem promoted_new {b : Board} {o d : Square} {promo : Option PieceKind} {n : Move}
    (made : Move.new b o d promo = .ok n) : n.promoted = none := by
  obtain ⟨m, -, rehearsed⟩ := Except.bind_eq_ok.mp made
  obtain ⟨trial, -, result⟩ := Except.bind_eq_ok.mp rehearsed
  cases result
  rfl

theorem promoted_castleOn {b : Board} {side : CastleSide} {n : Move}
    (made : Move.castleOn b side = .ok n) : n.promoted = none := by
  unfold castleOn at made
  dsimp only at made
  split at made
  · split at made
    · obtain ⟨trial, -, result⟩ := Except.bind_eq_ok.mp made
      cases result
      rfl
    · cases made
  · cases made

section Balanced

/-- Moves played and taken back from a board, each take-back undoing the last move played and
not yet taken back, every move fitting the board it is played on. -/
inductive Balanced : Board → Board → Prop
  | rest (b : Board) : Balanced b b
  | pair {x y z : Board} {m : Move} {r t : Move × Board} (fits : m.Fits x)
      (run : m.execute x = .ok r) (inner : Balanced r.2 y) (back : r.1.unexecute y = .ok t)
      (after : Balanced t.2 z) : Balanced x z

variable {x z : Board}

theorem Balanced.restores (balanced : Balanced x z) :
    x.Coherent → x.Settled → x.Restores z ∧ z.Coherent ∧ z.Settled := by
  induction balanced with
  | rest b => exact fun coherent settled => ⟨Board.Restores.refl b, coherent, settled⟩
  | pair fits run inner back after ihInner ihAfter =>
    intro coherent settled
    obtain ⟨restoresY, coherentY, -⟩ :=
      ihInner (coherent.execute settled fits run) (Board.Settled.execute run)
    obtain ⟨t', back', -, restoresT, -, -, coherentT⟩ :=
      (undoable_execute coherent settled fits run).unexecute coherent settled restoresY
    rw [back] at back'
    cases back'
    obtain ⟨restoresZ, coherentZ, settledZ⟩ := ihAfter (coherentT coherentY) (settled_unexecute back)
    exact ⟨restoresT.trans restoresZ, coherentZ, settledZ⟩

theorem orphan_unexecute_balanced (coherent : w.Coherent) (settled : w.Settled) (fits : m.Fits w)
    {r t : Move × Board} (run : m.execute w = .ok r) (inner : Balanced r.2 y)
    (back : r.1.unexecute y = .ok t) (untracked : ¬w.Tracks id)
    (promoted : r.1.promoted = some id) :
    t.2.Orphan id (r.2.piece id).kind (r.2.piece id).color := by
  obtain ⟨restoresY, coherentY, -⟩ :=
    inner.restores (coherent.execute settled fits run) (Board.Settled.execute run)
  obtain ⟨mover, rook, casualty⟩ := apart_moved coherent settled fits run untracked
  have landed := occupant_promoted_execute coherent settled fits run promoted
  have heldY : y.occupant m.target = some id := by
    rw [← restoresY.toAgree.occupant]
    exact landed
  obtain ⟨p, found, standing⟩ := (coherentY.occupant_iff m.target id).mp heldY
  have record : r.2.piece id = p := Board.piece_eq_of_piece? _
    ((restoresY.piece?_eq id (Board.tracks_of_occupant landed)).trans found)
  rw [record]
  exact orphan_unexecute_promoted back coherentY promoted mover rook casualty found standing

/-- Moves played and taken back keep every orphan of a coherent, settled board one. A move in
between leaves the orphan alone, or brings it in as its promoted piece and, taken back, leaves
it an orphan again. -/
theorem Balanced.orphan {kind : PieceKind} {color : Color} (balanced : Balanced x z) :
    x.Coherent → x.Settled → x.Orphan id kind color → z.Orphan id kind color := by
  induction balanced with
  | rest b => exact fun _ _ orphan => orphan
  | @pair x y z m r t fits run inner back after ihInner ihAfter =>
    intro coherent settled orphan
    have coherentR := coherent.execute settled fits run
    have settledR := Board.Settled.execute run
    obtain ⟨restoresY, coherentY, -⟩ := inner.restores coherentR settledR
    obtain ⟨t', back', -, -, -, -, coherentT⟩ :=
      (undoable_execute coherent settled fits run).unexecute coherent settled restoresY
    rw [back] at back'
    cases back'
    refine ihAfter (coherentT coherentY) (settled_unexecute back) ?_
    have untracked := orphan.not_tracks coherent
    by_cases adopted : r.1.promoted = some id
    · have orphanT := orphan_unexecute_balanced coherent settled fits run inner back untracked adopted
      obtain ⟨q, found, kindQ, colorQ, -⟩ := orphan
      have grows := arenaGrows_execute run
      have old := Board.Coherent.lt_size_of_piece? found
      rw [grows.kind id old, grows.color id old, Board.piece_eq_of_piece? _ found, kindQ, colorQ]
        at orphanT
      exact orphanT
    · obtain ⟨mover, rook, casualty⟩ := apart_moved coherent settled fits run untracked
      exact orphan_unexecute back mover rook casualty adopted
        (ihInner coherentR settledR (orphan_execute coherent settled fits run orphan adopted))

/-- A promotion played again brings back the piece it brought in. A pawn move to its last rank,
played on a coherent, settled board, stands a piece on its destination, in the pawn's slot of
its roster: a new piece when the move held none. Taken back after moves played and taken back,
and played again after more of them, it brings back the same piece, onto the same square and
into the same roster slot, and the arena does not grow. The moves `Move.new` and
`Move.castleOn` make on the board hold no promoted piece. -/
theorem promotion_replays_same_piece {b y z : Board} {r t : Move × Board} (coherent : b.Coherent)
    (settled : b.Settled) (fits : m.Fits b) (pawn : m.kind = .pawn)
    (last : m.target.rank = Rank.promotion m.color) (first : m.execute b = .ok r)
    (between : Balanced r.2 y) (back : r.1.unexecute y = .ok t) (after : Balanced t.2 z) :
    (∃ P, r.1.promoted = some P ∧ r.2.occupant m.target = some P ∧
      r.2.roster m.color = (b.roster m.color).map (fun id => if id = m.piece then P else id) ∧
      (m.promoted = none → P.index = b.pieces.size) ∧
      ∃ s, t.1.execute z = .ok s ∧ s.1.promoted = some P ∧ s.2.occupant m.target = some P ∧
        s.2.roster m.color = r.2.roster m.color ∧ s.2.pieces.size = z.pieces.size) ∧
    (∀ o d promo n, Move.new b o d promo = .ok n → n.promoted = none) ∧
    ∀ side n, Move.castleOn b side = .ok n → n.promoted = none := by
  obtain ⟨P, kind, promotion, promoted, unkept, kindP, colorP, fresh, slot⟩ :=
    promotes_execute coherent settled fits pawn last first
  refine ⟨⟨P, promoted, occupant_promoted_execute coherent settled fits first promoted, slot, fresh,
    ?_⟩, fun o d promo n made => promoted_new made, fun side n made => promoted_castleOn made⟩
  have orphanT := orphan_unexecute_balanced coherent settled fits first between back
    (fun tracked => unkept (Or.inl tracked)) promoted
  rw [kindP, colorP] at orphanT
  obtain ⟨restoresY, coherentY, -⟩ :=
    between.restores (coherent.execute settled fits first) (Board.Settled.execute first)
  obtain ⟨t', back', taken, restoresT, -, -, coherentT⟩ :=
    (undoable_execute coherent settled fits first).unexecute coherent settled restoresY
  rw [back] at back'
  cases back'
  have settledT := settled_unexecute back
  obtain ⟨restoresZ, coherentZ, settledZ⟩ := after.restores (coherentT coherentY) settledT
  have orphanZ := after.orphan (coherentT coherentY) settledT orphanT
  have restores := restoresT.trans restoresZ
  obtain ⟨hop, checked, -, outcome, move⟩ := execute_eq_ok first
  obtain ⟨promotedSteps, fields⟩ := playSteps_fst (m := m) (w := b) hop
  have target : r.1.target = m.target := by simp [move, fields]
  have color : r.1.color = m.color := by simp [move, fields]
  have piece : r.1.piece = m.piece := by simp [move, fields]
  obtain ⟨-, -, held, -⟩ := checkPlayable_eq_ok.mp checked
  have fitsZ : { r.1 with executed := false }.Fits z :=
    ((fits.played first).executed false).restores restores
      (by rw [piece]; exact Board.tracks_of_occupant held)
  rw [← color] at orphanZ
  obtain ⟨s, again, promotedS, occupantS, rosterS, sizeS⟩ := execute_orphan_promoted coherentZ
    settledZ fitsZ (checkPlayable_played_again checked first restores) promotion promoted
    orphanZ
  refine ⟨s, by rw [taken]; exact again, promotedS, by rw [← target]; exact occupantS, ?_, sizeS⟩
  change s.2.roster r.1.color = (z.roster r.1.color).map fun id => if id = r.1.piece then P else id
    at rosterS
  rw [color, piece] at rosterS
  rw [rosterS, slot, ← restores.roster]

/-- A white pawn on a7 promotes on a8, the promotion is taken back and played again. -/
theorem promotion_replays_same_piece_a7 :
    ∃ (b : Board) (m : Move) (r t : Move × Board),
      Board.ofFen "4k3/P7/8/8/8/8/8/4K3 w - - 0 1" = .ok b ∧ b.Coherent ∧ b.Settled ∧ m.Fits b ∧
      m.kind = .pawn ∧ m.target.rank = Rank.promotion m.color ∧
      m.execute b = .ok r ∧ Balanced r.2 r.2 ∧ r.1.unexecute r.2 = .ok t ∧ Balanced t.2 t.2 ∧
      ((∃ P, r.1.promoted = some P ∧ r.2.occupant m.target = some P ∧
        r.2.roster m.color = (b.roster m.color).map (fun id => if id = m.piece then P else id) ∧
        (m.promoted = none → P.index = b.pieces.size) ∧
        ∃ s, t.1.execute t.2 = .ok s ∧ s.1.promoted = some P ∧ s.2.occupant m.target = some P ∧
          s.2.roster m.color = r.2.roster m.color ∧ s.2.pieces.size = t.2.pieces.size) ∧
      (∀ o d promo n, Move.new b o d promo = .ok n → n.promoted = none) ∧
      ∀ side n, Move.castleOn b side = .ok n → n.promoted = none) := by
  have promotes : (Board.ofFen "4k3/P7/8/8/8/8/8/4K3 w - - 0 1").toOption.map (fun b =>
      b.legalMoves.any fun m => decide (m.kind = .pawn ∧ m.target.rank = Rank.promotion m.color)) =
      some true := by
    decide +kernel
  cases built : Board.ofFen "4k3/P7/8/8/8/8/8/4K3 w - - 0 1" with
  | error e =>
    rw [built] at promotes
    cases promotes
  | ok b =>
    rw [built] at promotes
    obtain ⟨m, listed, found⟩ := List.any_eq_true.mp (Option.some.inj promotes)
    obtain ⟨pawn, last⟩ := of_decide_eq_true found
    have coherent := (Board.WellFormed.ofFen built).toCoherent
    have settled := Board.Settled.ofFen built
    have fits := Board.fits_of_mem_legalMoves coherent settled listed
    obtain ⟨hop, checked⟩ := checkPlayable_of_mem_legalMoves coherent settled listed
    obtain ⟨r, run⟩ := execute_ok_iff.mpr ⟨hop, checked⟩
    obtain ⟨t, back, -⟩ := (undoable_execute coherent settled fits run).unexecute coherent settled
      (Board.Restores.refl r.2)
    exact ⟨b, m, r, t, rfl, coherent, settled, fits, pawn, last, run, .rest _, back, .rest _,
      promotion_replays_same_piece coherent settled fits pawn last run (.rest _) back (.rest _)⟩

end Balanced

end Move

end Chess
