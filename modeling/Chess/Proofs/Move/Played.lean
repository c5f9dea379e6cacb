import Chess.Proofs.Move.Rules
import Chess.Proofs.Move.Listed
import Chess.Proofs.Move.Walk
import Chess.Proofs.Board.Lookalike

namespace Chess

/-! Playing a move by the rules. `execute` accepts a move exactly when its piece stands on its
origin, its side is to move and it plays as one of the board's listed moves. It then leaves the
placement the rules give: the piece moved, the piece it takes off, a pawn reaching its last rank
replaced by its promotion, and for a castle the king and its rook on their castle files. It
passes the turn, sets the en-passant file after a pawn's double step and clears it otherwise,
and runs the clocks. -/

namespace Board

variable {b : Board}

theorem enPassantVictim?_square {origin target s : Square} {c : Color}
    (found : b.enPassantVictim? origin target c = some s) :
    s = Square.make target.file origin.rank := by
  unfold enPassantVictim? at found
  split at found
  · cases found
  · dsimp only at found
    split at found
    · split at found
      · cases found
        rfl
      · cases found
    · cases found

theorem Coherent.pieceOn_createPiece (coherent : b.Coherent) (kind : PieceKind) (color : Color)
    (s : Square) : (b.createPiece kind color).1.pieceOn s = b.pieceOn s := by
  unfold pieceOn
  rw [occupant_createPiece]
  cases held : b.occupant s with
  | none => rfl
  | some id =>
    have old : id.index ≠ b.pieces.size := Nat.ne_of_lt (coherent.lt_size_of_occupant held)
    simp [Board.piece, old]

theorem PawnReaches.open_of_file_ne {o t : Square} {c : Color} (reaches : PawnReaches b o c t)
    (empty : b.pieceAt? t = none) (other : o.file ≠ t.file) :
    b.side ≠ c ∨ (b.enPassantVictim? o t c).isSome := by
  cases reaches with
  | push ahead _ =>
    exact absurd (File.eq_of_index (by have := Square.file_of_offset? ahead; omega)) other
  | double ahead _ _ beyond _ =>
    refine absurd (File.eq_of_index ?_) other
    have first := Square.file_of_offset? ahead
    have second := Square.file_of_offset? beyond
    omega
  | take _ standing _ => simp [standing] at empty
  | passant _ _ open_ => exact open_

end Board

theorem CastleSide.kingSquare_ne_rookSquare (side : CastleSide) (r : Rank) :
    Square.make side.kingFile r ≠ Square.make side.rookFile r := by
  intro same
  have files := congrArg Square.file same
  cases side <;> simp [CastleSide.kingFile, CastleSide.rookFile] at files

namespace Move

theorem promotionPiece_listed (m : Move) :
    m.promotionPiece = if m.kind = .pawn ∧ m.target.rank = Rank.promotion m.color then
      some (m.promotionPiece.getD .queen) else none := by
  unfold promotionPiece
  by_cases last : m.kind = .pawn ∧ m.target.rank = Rank.promotion m.color <;> simp [last]

section Accepted

variable {b : Board} {m : Move}

theorem promotionPiece_mem_promotionChoices (fits : m.Fits b) (turn : b.side = m.color) :
    m.promotionPiece ∈ b.promotionChoices m.piece m.target := by
  unfold promotionPiece Board.promotionChoices
  rw [fits.kind, turn]
  by_cases last : m.kind = .pawn ∧ m.target.rank = Rank.promotion m.color
  · rw [if_pos last, if_pos last]
    cases named : m.promotion with
    | none => simp
    | some k =>
      have target := (fits.promotion k named).1
      cases k <;> simp_all [PieceKind.isPromotionTarget]
  · rw [if_neg last, if_neg last]
    exact List.mem_singleton_self none

theorem exists_listed_of_checkPlayable (coherent : b.Coherent) (settled : b.Settled)
    (fits : m.Fits b) {hop : Option RookHop} (checked : m.checkPlayable b = .ok hop) :
    ∃ l ∈ b.legalMoves, m.playsSame l = true := by
  obtain ⟨-, -, held, turn, legal⟩ := checkPlayable_eq_ok.mp checked
  have square := coherent.piece_square_of_occupant held
  rcases legal with ⟨castle, reach, -⟩ | ⟨side, plan, castle, open_, lands, -⟩
  case inl =>
    obtain ⟨p, found, standing⟩ := coherent.piece?_of_occupant held
    have member := (coherent.standing _ p _ found standing).2
    rw [← Board.piece_eq_of_piece? b found, fits.color, ← turn] at member
    refine ⟨knownLegal b m.piece m.origin m.target m.promotionPiece none,
      Board.mem_legalMoves.mpr (.inl ⟨m.piece, member, m.origin, square, m.target, reach,
        m.promotionPiece, promotionPiece_mem_promotionChoices fits turn, rfl⟩), ?_⟩
    rw [playsSame_knownLegal, fits.kind, fits.color, ← promotionPiece_listed]
    simp [castle]
  case inr =>
    have king := king_of_open coherent settled fits held castle turn open_
    obtain ⟨planned, -⟩ := settled.castle open_
    obtain ⟨-, -, kingFrom, -⟩ := Board.castlePlan?_eq_some planned
    rw [king, square, Option.some.injEq] at kingFrom
    have isKing : m.kind = .king := fits.castle (by simp [castle])
    refine ⟨knownLegal b plan.king plan.kingFrom plan.kingTo none (some side),
      Board.mem_legalMoves.mpr (.inr ⟨side, plan, open_, rfl⟩), ?_⟩
    rw [playsSame_knownLegal, king, fits.kind]
    simp [kingFrom, lands, castle, promotionPiece, isKing]

theorem checkPlayable_of_playsSame (coherent : b.Coherent) (lineage : m.lineage = b.lineage)
    (fresh : m.executed = false) (held : b.occupant m.origin = some m.piece)
    (turn : m.color = b.side) {l : Move} (listed : l ∈ b.legalMoves) (same : m.playsSame l = true) :
    ∃ hop, m.checkPlayable b = .ok hop := by
  rcases Board.mem_legalMoves.mp listed with
    ⟨id, -, o, square, t, reach, promo, -, rfl⟩ | ⟨side, plan, open_, rfl⟩
  case inl =>
    simp only [playsSame_knownLegal, Bool.and_eq_true, decide_eq_true_eq] at same
    obtain ⟨⟨⟨rfl, rfl⟩, castle⟩, -⟩ := same
    have piece : m.piece = id :=
      Option.some.inj (held.symm.trans (coherent.occupant_of_square square))
    subst piece
    exact ⟨_, checkPlayable_eq_ok.mpr ⟨lineage.symm, fresh, held, turn.symm, .inl ⟨castle, reach, rfl⟩⟩⟩
  case inr =>
    simp only [playsSame_knownLegal, Bool.and_eq_true, decide_eq_true_eq] at same
    obtain ⟨⟨⟨-, lands⟩, castle⟩, -⟩ := same
    exact ⟨_, checkPlayable_eq_ok.mpr ⟨lineage.symm, fresh, held, turn.symm,
      .inr ⟨side, plan, castle, open_, lands.symm, rfl⟩⟩⟩

theorem execute_ok_iff_playsSame_listed (coherent : b.Coherent) (settled : b.Settled)
    (fits : m.Fits b) (lineage : m.lineage = b.lineage) (fresh : m.executed = false) :
    (∃ r, m.execute b = .ok r) ↔
      b.occupant m.origin = some m.piece ∧ m.color = b.side ∧
        ∃ l ∈ b.legalMoves, m.playsSame l = true := by
  rw [execute_ok_iff]
  constructor
  · rintro ⟨hop, checked⟩
    obtain ⟨-, -, held, turn, -⟩ := checkPlayable_eq_ok.mp checked
    exact ⟨held, turn.symm, exists_listed_of_checkPlayable coherent settled fits checked⟩
  · rintro ⟨held, turn, l, listed, same⟩
    exact checkPlayable_of_playsSame coherent lineage fresh held turn listed same

end Accepted

/-! ### Where the pieces stand after a move -/

/-- The placement the rules give once `m` is played on `b`, as the kind and colour standing
on each square. A castle puts the king on its wing's king file and the castle rook on the
wing's rook file of the back rank, and empties the squares they left. Any other move empties
its origin and, for a pawn going to another file onto an empty square, which takes en passant,
the square beside its origin on the destination's file; it puts on its destination its piece,
or for a pawn reaching its last rank the piece it promotes to. Every other square keeps what it
holds. -/
def placement (m : Move) (b : Board) (s : Square) : Option (PieceKind × Color) :=
  match m.castle with
  | some side =>
    if s = Square.make side.kingFile (Rank.back m.color) then some (.king, m.color)
    else if s = Square.make side.rookFile (Rank.back m.color) then some (.rook, m.color)
    else if s = m.origin ∨ some s = (b.castleRook? m.color side).bind fun r => (b.piece r).square
    then none
    else b.pieceOn s
  | none =>
    if s = m.target then some (m.promotionPiece.getD m.kind, m.color)
    else if s = m.origin ∨ (m.kind = .pawn ∧ m.origin.file ≠ m.target.file ∧
        b.occupant m.target = none ∧ s = Square.make m.target.file m.origin.rank)
    then none
    else b.pieceOn s

section Placement

variable {b : Board} {m : Move}

@[simp] theorem pieceOn_advanceClocks (x : Board) (s : Square) :
    (m.advanceClocks x).pieceOn s = x.pieceOn s := rfl

@[simp] theorem pieceOn_passTurn (x : Board) (s : Square) :
    (m.passTurn x).pieceOn s = x.pieceOn s := by
  simp [Board.pieceOn, Board.piece]

variable (coherent : b.Coherent) (settled : b.Settled) (fits : m.Fits b)
  (held : b.occupant m.origin = some m.piece)

include coherent settled fits held in
/-- Where a move that is no castle takes, when its destination is a target of its piece: on its
destination when that holds a piece, beside its origin on the destination's file when a pawn
goes to another file onto an empty square, nowhere otherwise. -/
theorem casualtySquare (turn : b.side = m.color) (castle : m.castle = none)
    (reach : (b.piece m.piece).targets.contains m.target = true) :
    (m.findCasualty b).map Prod.snd =
      if (b.occupant m.target).isSome then some m.target
      else if m.kind = .pawn ∧ m.origin.file ≠ m.target.file then
        some (Square.make m.target.file m.origin.rank)
      else none := by
  have tracked := Board.tracks_of_occupant held
  unfold findCasualty
  simp only [castle, Option.isSome_none, Bool.false_eq_true, if_false]
  cases target : b.occupant m.target with
  | some id =>
    have enemy := settled.target_avoids_friends tracked reach (q := b.piece id)
      (by simp [Board.pieceAt?, target])
    rw [fits.color] at enemy
    simp [enemy]
  | none =>
    simp only [Option.isSome_none, Bool.false_eq_true, if_false]
    by_cases diagonal : m.kind = .pawn ∧ m.origin.file ≠ m.target.file
    · rw [if_pos diagonal, if_pos diagonal]
      have pawn : (b.piece m.piece).kind = .pawn := fits.kind.trans diagonal.1
      have reaches := settled.pawnReaches tracked pawn (coherent.piece_square_of_occupant held) reach
      have open_ := (reaches.open_of_file_ne (by simp [Board.pieceAt?, target]) diagonal.2).resolve_left
        (by rw [fits.color, turn]; exact not_not.mpr rfl)
      rw [fits.color] at open_
      obtain ⟨s, victim⟩ := Option.isSome_iff_exists.mp open_
      obtain ⟨p, standing, -, -⟩ := enPassantVictim?_eq_some victim
      simp only [Board.pieceAt?, Option.map_eq_some_iff] at standing
      obtain ⟨v, occupied, -⟩ := standing
      obtain rfl := Board.enPassantVictim?_square victim
      simp [victim, occupied]
    · rw [if_neg diagonal, if_neg diagonal]
      rfl

include coherent in
theorem pieceOn_takeCasualty_complete (hop : Option RookHop) (t : Square) :
    ((m.complete b hop).takeCasualty ((m.complete b hop).advanceClocks b)).pieceOn t =
      if (m.findCasualty b).map Prod.snd = some t then none else b.pieceOn t := by
  unfold takeCasualty
  rw [casualty_complete]
  cases found : m.findCasualty b with
  | none => simp
  | some casualty =>
    obtain ⟨v, s⟩ := casualty
    obtain ⟨-, victim, -⟩ := findCasualty_eq_some found
    have linked : ((m.complete b hop).advanceClocks b).Linked := coherent.linked
    rw [linked.pieceOn_capture]
    simp only [occupant_advanceClocks, pieceOn_advanceClocks, coherent.occupant_eq_iff victim t]
    by_cases here : t = s <;> simp [here, eq_comm]

include coherent settled fits held in
theorem pieceOn_place_of_castle_none (hop : Option RookHop) (castle : m.castle = none)
    (reach : (b.piece m.piece).targets.contains m.target = true) (t : Square) :
    ((m.complete b hop).place ((m.complete b hop).advanceClocks b)).pieceOn t =
      if t = m.target then some (m.kind, m.color)
      else if t = m.origin ∨ (m.findCasualty b).map Prod.snd = some t then none
      else b.pieceOn t := by
  obtain ⟨coherentT, -, held'⟩ := takeCasualty_clears coherent settled fits held hop castle reach
  rw [place_of_castle_none _ _ (by rwa [castle_complete]), piece_complete, target_complete,
    Board.pieceOn_modifyPiece (f := fun p => { p with moveCount := p.moveCount + 1 }) _
      (fun _ => rfl) (fun _ => rfl), Board.pieceOn_put, coherentT.linked.pieceOn_lift]
  simp only [coherentT.occupant_eq_iff held' t, pieceOn_takeCasualty_complete coherent,
    Board.kind_piece_lift, kind_piece_takeCasualty, Board.color_piece_lift,
    color_piece_takeCasualty, piece_advanceClocks, fits.kind, fits.color]
  by_cases here : t = m.origin
  · simp [here]
  · simp only [here, false_or, if_false]

theorem pieceOn_promote {x : Board} {kind : PieceKind} (coherentX : x.Coherent)
    (landed : x.occupant m.target = some m.piece) (promotion : m.promotion = some kind)
    (t : Square) :
    (m.promote x).2.pieceOn t = if t = m.target then some (kind, m.color) else x.pieceOn t := by
  obtain ⟨r, found, kindR, colorR, -, -, -⟩ := promotedPiece_free (m := m) coherentX kind
  have sameBoard := promotedPiece_cases (m := m) (x := x) kind
  unfold promote
  rw [promotion]
  dsimp only
  generalize m.promotedPiece x kind = pair at found sameBoard ⊢
  obtain ⟨x', q⟩ := pair
  dsimp only at found sameBoard ⊢
  have keeps : x'.Coherent ∧ x'.occupant m.target = some m.piece ∧ ∀ s, x'.pieceOn s = x.pieceOn s := by
    rcases sameBoard with rfl | created
    · exact ⟨coherentX, landed, fun _ => rfl⟩
    · obtain ⟨rfl, rfl⟩ := Prod.ext_iff.mp created
      exact ⟨coherentX.createPiece kind m.color, landed, coherentX.pieceOn_createPiece kind m.color⟩
  obtain ⟨coherent', landed', same⟩ := keeps
  rw [Board.pieceOn_replaceInRoster, Board.pieceOn_modifyPiece (f := fun p => { p with moveCount := 1 })
    _ (fun _ => rfl) (fun _ => rfl), Board.pieceOn_put, coherent'.linked.pieceOn_lift]
  simp only [coherent'.occupant_eq_iff landed' t, same, Board.kind_piece_lift, Board.color_piece_lift,
    Board.piece_eq_of_piece? _ found, kindR, colorR]
  by_cases here : t = m.target <;> simp [here]

include coherent settled fits held in
theorem pieceOn_place_of_castle {side : CastleSide} {plan : CastlePlan}
    (castle : m.castle = some side) (turn : b.side = m.color)
    (open_ : b.legalCastle? side = some plan) (lands : plan.kingTo = m.target) (t : Square) :
    let hop : RookHop := { rook := plan.rook, origin := plan.rookFrom, target := plan.rookTo }
    ((m.complete b (some hop)).place ((m.complete b (some hop)).advanceClocks b)).pieceOn t =
      if t = plan.rookTo then some (.rook, m.color)
      else if t = m.target then some (.king, m.color)
      else if t = m.origin ∨ t = plan.rookFrom then none
      else b.pieceOn t := by
  intro hop
  obtain ⟨rookHeld, isRook, apart, -, -, -⟩ :=
    castleSquares_of_open coherent settled fits held castle turn open_ lands
  have isKing : (b.piece m.piece).kind = .king := fits.kind.trans (fits.castle (by simp [castle]))
  obtain ⟨planned, -⟩ := settled.castle open_
  obtain ⟨-, rookRef, -⟩ := Board.castlePlan?_eq_some planned
  obtain ⟨-, -, -, rookColor, -⟩ := Board.occupant_of_castleRook? rookRef
  have linked : ((m.complete b (some hop)).advanceClocks b).Linked := coherent.linked
  rw [place_of_castle castle,
    Board.pieceOn_modifyPiece (f := fun p => { p with moveCount := p.moveCount + 1 }) _
      (fun _ => rfl) (fun _ => rfl),
    Board.pieceOn_modifyPiece (f := fun p => { p with moveCount := p.moveCount + 1 }) _
      (fun _ => rfl) (fun _ => rfl),
    Board.pieceOn_put, Board.pieceOn_put, (linked.lift m.piece).pieceOn_lift, linked.pieceOn_lift,
    linked.occupant_lift]
  simp only [hop, occupant_advanceClocks, pieceOn_advanceClocks, piece_advanceClocks, Board.kind_piece_put,
    Board.color_piece_put, Board.kind_piece_lift, Board.color_piece_lift, isRook, isKing, rookColor,
    fits.color, turn, coherent.occupant_eq_iff held t]
  by_cases rookTo : t = plan.rookTo
  · simp [rookTo]
  by_cases kingTo : t = m.target
  · simp [kingTo]
  rw [if_neg rookTo, if_neg rookTo, if_neg kingTo, if_neg kingTo]
  by_cases origin : t = m.origin <;> simp [origin, coherent.occupant_eq_iff rookHeld t]

theorem promotion_complete_eq_promotionPiece (fits : m.Fits b) (hop : Option RookHop) :
    (m.complete b hop).promotion = m.promotionPiece := by
  rw [promotion_complete]
  unfold promotionPiece
  by_cases last : m.kind = .pawn ∧ m.target.rank = Rank.promotion m.color
  · rw [if_pos last]
    cases named : m.promotion <;> simp [last]
  · rw [if_neg last, if_neg fun promotes => last ⟨promotes.1, promotes.2.1⟩]
    cases named : m.promotion with
    | none => rfl
    | some k => exact absurd ⟨(fits.promotion k named).2.1, (fits.promotion k named).2.2⟩ last

include coherent settled fits in
theorem pieceOn_playSteps {hop : Option RookHop} (checked : m.checkPlayable b = .ok hop)
    (t : Square) : (m.playSteps b hop).2.pieceOn t = m.placement b t := by
  obtain ⟨-, -, held, turn, legal⟩ := checkPlayable_eq_ok.mp checked
  have promotion := promotion_complete_eq_promotionPiece fits hop
  unfold playSteps
  rcases legal with ⟨castle, reach, -⟩ | ⟨side, plan, castle, open_, lands, rfl⟩
  case inl =>
    have placed := pieceOn_place_of_castle_none coherent settled fits held hop castle reach
    obtain ⟨coherentX, landed⟩ :=
      coherent_place_of_castle_none coherent settled fits held hop castle reach
    have promoted : ((m.complete b hop).promote
        ((m.complete b hop).place ((m.complete b hop).advanceClocks b))).2.pieceOn t =
          if t = m.target then some (m.promotionPiece.getD m.kind, m.color)
          else if t = m.origin ∨ (m.findCasualty b).map Prod.snd = some t then none
          else b.pieceOn t := by
      cases promo : (m.complete b hop).promotion with
      | none =>
        rw [promo] at promotion
        rw [promote_of_promotion_none promo, placed, ← promotion]
        rfl
      | some k =>
        rw [promo] at promotion
        rw [pieceOn_promote coherentX (by simpa using landed) promo, placed, ← promotion,
          target_complete, color_complete]
        by_cases here : t = m.target <;> simp [here]
    rw [promoted]
    unfold placement
    rw [castle, casualtySquare coherent settled fits held turn castle reach]
    by_cases here : t = m.target
    · simp [here]
    rw [if_neg here, if_neg here]
    cases target : b.occupant m.target with
    | some id => simp [Ne.symm here]
    | none =>
      by_cases diagonal : m.kind = .pawn ∧ m.origin.file ≠ m.target.file
      · simp [diagonal, eq_comm]
      · have quiet : ¬(m.kind = .pawn ∧ m.origin.file ≠ m.target.file ∧
            t = Square.make m.target.file m.origin.rank) :=
          fun passant => diagonal ⟨passant.1, passant.2.1⟩
        simp [diagonal, quiet]
  case inr =>
    rw [promotion_complete_of_castle fits (by simp [castle]) _] at promotion
    rw [promote_of_promotion_none (promotion_complete_of_castle fits (by simp [castle]) _),
      pieceOn_place_of_castle coherent settled fits held castle turn open_ lands]
    obtain ⟨planned, -⟩ := settled.castle open_
    obtain ⟨-, rookRef, -, rookFrom, -, kingTo, rookTo⟩ := Board.castlePlan?_eq_some planned
    unfold placement
    rw [castle]
    dsimp only
    rw [← turn, rookRef, ← lands, kingTo, rookTo]
    simp only [Option.bind_some, rookFrom]
    by_cases rook : t = Square.make side.rookFile (Rank.back b.side)
    · simp [rook, (side.kingSquare_ne_rookSquare _).symm]
    · by_cases king : t = Square.make side.kingFile (Rank.back b.side)
      · simp [king, side.kingSquare_ne_rookSquare]
      · simp [rook, king]

/-! ### The turn and the clocks after a move -/

section Clocks

variable {r : Move × Board} (run : m.execute b = .ok r)
include run

theorem enPassant_execute : r.2.enPassant =
    if m.kind = .pawn ∧ ((m.target.rank.index.val : Int) - m.origin.rank.index.val).natAbs = 2
    then some m.origin.file else none := by
  obtain ⟨hop, -, board, -⟩ := execute_eq_ok run
  have record := congrArg Board.enPassant (record_playSteps (m := m) (w := b) hop)
  simp only [Board.record_enPassant] at record
  rw [board]
  simp [record, advanceClocks]

include coherent settled fits in
/-- Playing resets the half-move clock after a pawn move or a capture, and advances it
otherwise. A castle captures nothing; any other move captures exactly when its destination
holds a piece, or when it is a pawn's, which resets the clock anyway. -/
theorem halfmove_execute : r.2.halfmove =
    if m.kind = .pawn ∨ (m.castle = none ∧ (b.occupant m.target).isSome) then 0
    else b.halfmove + 1 := by
  obtain ⟨hop, checked, board, -⟩ := execute_eq_ok run
  obtain ⟨-, -, held, turn, legal⟩ := checkPlayable_eq_ok.mp checked
  have record := congrArg Board.halfmove (record_playSteps (m := m) (w := b) hop)
  simp only [Board.record_halfmove] at record
  rw [board]
  simp only [halfmove_passTurn, Board.halfmove_regenerate, record, advanceClocks, kind_complete,
    casualty_complete]
  have capture : m.kind ≠ .pawn →
      ((m.findCasualty b).isSome ↔ m.castle = none ∧ (b.occupant m.target).isSome) := by
    intro notPawn
    rcases legal with ⟨castle, reach, -⟩ | ⟨side, plan, castle, -⟩
    · have square := congrArg Option.isSome (casualtySquare coherent settled fits held turn castle reach)
      rw [Option.isSome_map] at square
      rw [square, castle]
      cases (b.occupant m.target).isSome <;> simp [notPawn]
    · simp [findCasualty, castle]
  by_cases pawn : m.kind = .pawn
  · simp [pawn]
  · simp [pawn, capture pawn]

end Clocks

include coherent settled fits in
theorem pieceOn_execute {r : Move × Board} (run : m.execute b = .ok r) (t : Square) :
    r.2.pieceOn t = m.placement b t := by
  obtain ⟨hop, checked, board, -⟩ := execute_eq_ok run
  rw [board]
  change ((m.playSteps b hop).1.passTurn (m.playSteps b hop).2).regenerate.pieceOn t = _
  rw [Board.pieceOn_regenerate, pieceOn_passTurn, pieceOn_playSteps coherent settled fits checked]

end Placement

/-- What playing `m` on `b` must give by the rules: the placement the rules give, the turn
passed, an en-passant file exactly after a pawn's double step, the half-move clock reset after
a pawn move or a capture and advanced otherwise, and the full-move number advanced after
Black's move. -/
structure FollowsRules (m : Move) (b after : Board) : Prop where
  placement : ∀ s, after.pieceOn s = m.placement b s
  side : after.side = b.side.opponent
  enPassant : after.enPassant =
    if m.kind = .pawn ∧ ((m.target.rank.index.val : Int) - m.origin.rank.index.val).natAbs = 2
    then some m.origin.file else none
  halfmove : after.halfmove =
    if m.kind = .pawn ∨ (m.castle = none ∧ (b.occupant m.target).isSome) then 0
    else b.halfmove + 1
  fullmove : after.fullmove = if b.side = .black then b.fullmove + 1 else b.fullmove

section Rules

variable {b : Board} {m : Move}

/-- A move of the board that was never played is played exactly when its piece stands on its
origin, its side is to move and it plays as one of the board's listed moves; played, it
follows the rules. -/
theorem execute_plays_listed_moves_by_rules (coherent : b.Coherent) (settled : b.Settled)
    (fits : m.Fits b) (lineage : m.lineage = b.lineage) (fresh : m.executed = false) :
    ((∃ r, m.execute b = .ok r) ↔
      b.occupant m.origin = some m.piece ∧ m.color = b.side ∧
        ∃ l ∈ b.legalMoves, m.playsSame l = true) ∧
    ∀ r, m.execute b = .ok r → m.FollowsRules b r.2 := by
  refine ⟨execute_ok_iff_playsSame_listed coherent settled fits lineage fresh, fun r run => ?_⟩
  exact ⟨pieceOn_execute coherent settled fits run, side_execute run, enPassant_execute run,
    halfmove_execute coherent settled fits run, fullmove_execute run⟩

/-- On the standard board, a listed move is played, and by the rules. -/
theorem execute_plays_listed_moves_by_rules_standard :
    ∃ m ∈ Board.standard.legalMoves, Board.standard.Coherent ∧ Board.standard.Settled ∧
      m.Fits Board.standard ∧ m.lineage = Board.standard.lineage ∧ m.executed = false ∧
      ((∃ r, m.execute Board.standard = .ok r) ↔
        Board.standard.occupant m.origin = some m.piece ∧ m.color = Board.standard.side ∧
          ∃ l ∈ Board.standard.legalMoves, m.playsSame l = true) ∧
      ∀ r, m.execute Board.standard = .ok r → m.FollowsRules Board.standard r.2 := by
  obtain ⟨m, listed⟩ :=
    List.exists_mem_of_length_pos (by decide +kernel : 0 < Board.standard.legalMoves.length)
  have coherent := Board.WellFormed.standard.toCoherent
  have fits := Board.fits_of_mem_legalMoves coherent Board.Settled.standard listed
  obtain ⟨hop, checked⟩ := checkPlayable_of_mem_legalMoves coherent Board.Settled.standard listed
  obtain ⟨lineage, fresh, -⟩ := checkPlayable_eq_ok.mp checked
  exact ⟨m, listed, coherent, Board.Settled.standard, fits, lineage.symm, fresh,
    execute_plays_listed_moves_by_rules coherent Board.Settled.standard fits lineage.symm fresh⟩

end Rules

end Move

end Chess
