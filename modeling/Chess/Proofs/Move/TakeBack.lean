import Chess.Proofs.Move.Invariant
import Chess.Proofs.Board.Alike

namespace Chess

/-! Taking a move back. `unexecute` undoes the steps of `execute` in the opposite order: the
turn, the promotion, the move counts, the pieces and the casualty. Each undo gives back the
board before its step, placed alike up to the reach sets and the promoted piece, and every
undo keeps boards alike, so the steps chain. Taking a move back right after playing it
restores the position, regenerated state included, with at most one new piece in the arena;
the same holds from any board that restores the one the move was played to, which carries the
result through a line of moves taken back in turn. -/

namespace Board

/-- A board keeps a piece for taking back when it tracks it or holds it as a pawn: a board
that restores it holds that piece alike. -/
def Keeps (b : Board) (id : PieceId) : Prop :=
  b.Tracks id ∨ ∃ p, b.piece? id = some p ∧ p.kind = .pawn

theorem AlikeBut.keeps {skip : PieceId → Prop} {x y : Board} (alike : AlikeBut skip x y)
    {id : PieceId} (kept : ¬skip id) (keeps : y.Keeps id) : x.Keeps id := by
  rcases keeps with tracked | ⟨p, found, pawn⟩
  · exact Or.inl ((alike.tracks_iff id).mpr tracked)
  · obtain ⟨p', found', bare⟩ := alike.symm.exists_piece? kept found
    exact Or.inr ⟨p', found', by rw [← Piece.bare_kind, bare, Piece.bare_kind, pawn]⟩

/-- A board restores another: it shows the same position, regenerated state included, with
the same clocks, moves played and lineage, and holds every pawn of the other's arena alike. -/
structure Restores (x y : Board) : Prop extends Same x y where
  halfmove : x.halfmove = y.halfmove
  fullmove : x.fullmove = y.fullmove
  played : x.played = y.played
  lineage : x.lineage = y.lineage
  pawn : ∀ id p, x.piece? id = some p → p.kind = .pawn → (y.piece? id).map Piece.bare = some p.bare

theorem Restores.refl (x : Board) : x.Restores x :=
  ⟨Same.refl x, rfl, rfl, rfl, rfl, fun _ _ found _ => by simp [found]⟩

theorem Restores.alikeBut {x y : Board} (restores : x.Restores y) :
    AlikeBut (fun id => ¬x.Keeps id) y x := by
  refine ⟨fun s => (restores.toAgree.occupant s).symm, fun c => (restores.roster c).symm,
    fun c => (restores.king c).symm, fun id kept => ?_⟩
  rcases not_not.mp kept with tracked | ⟨p, found, pawn⟩
  · rw [restores.piece?_eq id tracked]
  · rw [restores.pawn id p found pawn, found, Option.map_some]

theorem Coherent.listed {b : Board} (coherent : b.Coherent) {id : PieceId} (tracked : b.Tracks id) :
    ∃ c, id ∈ b.roster c := by
  rcases tracked with ⟨s, held⟩ | listed | ⟨c, king⟩
  · obtain ⟨p, found, square⟩ := coherent.piece?_of_occupant held
    exact ⟨p.color, (coherent.standing id p s found square).2⟩
  · exact listed
  · exact ⟨c, ((coherent.king_iff c id).mp king).1⟩

theorem map_replace_replace {roster : Array PieceId} {old new : PieceId} (outside : new ∉ roster) :
    (roster.map fun y => if y = old then new else y).map (fun y => if y = new then old else y) =
      roster := by
  rw [Array.map_map]
  refine (Array.map_congr_left fun y member => ?_).trans (Array.map_id roster)
  have fresh : y ≠ new := fun same => outside (same ▸ member)
  by_cases here : y = old <;> simp [here, fresh]

end Board

namespace Board.AlikeBut

/-! The steps of taking back keep boards alike, so long as the pieces they lift are kept. -/

variable {skip : PieceId → Prop} {x y : Board} (m : Move)

theorem restoreCasualty (alike : AlikeBut skip x y) :
    AlikeBut skip (m.restoreCasualty x) (m.restoreCasualty y) := by
  unfold Move.restoreCasualty
  split
  · exact alike.uncapture _ _
  · exact alike

theorem returnPieces (alike : AlikeBut skip x y) (kept : ¬skip m.piece)
    (rookKept : ∀ hop side, m.castleRook = some hop → m.castle = some side → ¬skip hop.rook) :
    AlikeBut skip (m.returnPieces x) (m.returnPieces y) := by
  unfold Move.returnPieces
  split
  · rename_i hop side rook castle
    exact (((((alike.lift kept).lift (rookKept hop side rook castle)).put _ _).put _ _).modifyPiece _
      (Piece.RespectsBare.of_bare fun _ => rfl))
  · exact (alike.lift kept).put _ _

theorem unplace (alike : AlikeBut skip x y) (kept : ¬skip m.piece)
    (rookKept : ∀ hop side, m.castleRook = some hop → m.castle = some side → ¬skip hop.rook) :
    AlikeBut skip (m.unplace x) (m.unplace y) :=
  ((alike.modifyPiece m.piece (f := fun p => { p with moveCount := p.moveCount - 1 })
    (Piece.RespectsBare.of_bare fun _ => rfl)).returnPieces m kept rookKept).restoreCasualty m

theorem unpromote (alike : AlikeBut skip x y)
    (kept : ∀ q, m.promoted = some q → ¬skip q) :
    AlikeBut skip (m.unpromote x) (m.unpromote y) := by
  unfold Move.unpromote
  split
  · rename_i q promoted
    exact (((alike.lift (kept q promoted)).replaceInRoster (by simpa using kept q promoted) _).put
      _ _)
  · exact alike

end Board.AlikeBut

namespace Move

open Board

section History

variable (m : Move) (x : Board)

/-! Playing and taking back move pieces only: the board's record of the game stays with the
steps, and the steps of taking back keep the arena's size. -/

@[simp] theorem record_place : (m.place x).record = x.record := by
  unfold place movePieces takeCasualty
  split <;> split <;> simp [Board.capture, Board.put]

@[simp] theorem record_promote : (m.promote x).2.record = x.record := by
  unfold promote promotedPiece
  split
  · dsimp only
    split
    · split <;> simp [Board.put]
    · simp [Board.put]
  · rfl

@[simp] theorem record_unpromote : (m.unpromote x).record = x.record := by
  unfold unpromote
  split <;> simp [Board.put]

@[simp] theorem record_unplace : (m.unplace x).record = x.record := by
  unfold unplace returnPieces restoreCasualty
  split <;> split <;> simp [Board.uncapture, Board.put]

@[simp] theorem size_unpromote : (m.unpromote x).pieces.size = x.pieces.size := by
  unfold unpromote
  split <;> simp

@[simp] theorem size_unplace : (m.unplace x).pieces.size = x.pieces.size := by
  unfold unplace returnPieces restoreCasualty
  split <;> split <;> simp

end History

section Frame

variable {m : Move} {x : Board} {id : PieceId}

/-! Taking back touches only the pieces of the move: the promoted piece, the mover, a
castle's rook and the casualty. -/

theorem piece?_unpromote_of_ne (promoted : ∀ q, m.promoted = some q → id ≠ q)
    (mover : id ≠ m.piece) : (m.unpromote x).piece? id = x.piece? id := by
  unfold unpromote
  split
  · rename_i q found
    simp [promoted q found, mover]
  · rfl

theorem square_unpromote_promoted {q : PieceId} (promoted : m.promoted = some q)
    (mover : q ≠ m.piece) {p : Piece} (found : (m.unpromote x).piece? q = some p) :
    p.square = none := by
  unfold unpromote at found
  simp only [promoted] at found
  simp [mover] at found
  obtain ⟨p', -, rfl⟩ := found
  rfl

theorem piece?_unplace_of_ne (mover : id ≠ m.piece)
    (rook : ∀ hop side, m.castleRook = some hop → m.castle = some side → id ≠ hop.rook)
    (casualty : ∀ c, m.casualty = some c → id ≠ c.1) :
    (m.unplace x).piece? id = x.piece? id := by
  unfold unplace returnPieces restoreCasualty
  split <;> split <;> simp_all

end Frame


section Promote

variable {m : Move} {x b : Board}

theorem promote_of_promotion_none (none_ : m.promotion = none) (x : Board) :
    m.promote x = (m, x) := by
  simp [promote, none_]

theorem promote_of_promotion_some {kind : PieceKind} (promotion : m.promotion = some kind)
    (x : Board) :
    m.promote x = ({ m with promoted := some (m.promotedPiece x kind).2 },
      ((((m.promotedPiece x kind).1.lift m.piece).put (m.promotedPiece x kind).2 m.target).modifyPiece
        (m.promotedPiece x kind).2 fun p => { p with moveCount := 1 }).replaceInRoster m.piece
        (m.promotedPiece x kind).2) := by
  simp only [promote, promotion]

theorem promote_fst (x : Board) : ∃ promoted, (m.promote x).1 = { m with promoted } := by
  by_cases none_ : m.promotion = none
  · rw [promote_of_promotion_none none_]
    exact ⟨m.promoted, rfl⟩
  · obtain ⟨kind, promotion⟩ := Option.ne_none_iff_exists'.mp none_
    rw [promote_of_promotion_some promotion]
    exact ⟨_, rfl⟩

theorem unplace_promote_fst (x : Board) : (m.promote x).1.unplace = m.unplace := by
  obtain ⟨promoted, same⟩ := promote_fst (m := m) x
  rw [same]
  rfl

@[simp] theorem size_place (x : Board) : (m.place x).pieces.size = x.pieces.size := by
  unfold place movePieces takeCasualty
  split <;> split <;> simp

@[simp] theorem roster_place (x : Board) (c : Color) : (m.place x).roster c = x.roster c := by
  unfold place movePieces takeCasualty
  split <;> split <;> simp

theorem size_promote (x : Board) :
    x.pieces.size ≤ (m.promote x).2.pieces.size ∧ (m.promote x).2.pieces.size ≤ x.pieces.size + 1 := by
  cases promotion : m.promotion with
  | none => simp [promote_of_promotion_none promotion]
  | some kind =>
    rw [promote_of_promotion_some promotion]
    rcases promotedPiece_cases (m := m) (x := x) kind with same | created
    · simp [same]
    · simp [created]

theorem kind_piece_promote {id : PieceId} (old : id.index < x.pieces.size) :
    ((m.promote x).2.piece id).kind = (x.piece id).kind := by
  cases promotion : m.promotion with
  | none => simp [promote_of_promotion_none promotion]
  | some kind =>
    rw [promote_of_promotion_some promotion]
    rw [Board.piece_replaceInRoster, Board.kind_piece_modifyPiece _ _ _ (fun p => { p with moveCount := 1 }) fun _ => rfl,
      Board.kind_piece_put, Board.kind_piece_lift]
    rcases promotedPiece_cases (m := m) (x := x) kind with same | created
    · rw [same]
    · simp [created, Board.piece, Nat.ne_of_lt old]

theorem mem_roster_promote {id : PieceId} {c : Color} (member : id ∈ x.roster c) :
    id = m.piece ∨ id ∈ (m.promote x).2.roster c := by
  by_cases pawn : id = m.piece
  · exact Or.inl pawn
  refine Or.inr ?_
  cases promotion : m.promotion with
  | none => simpa [promote_of_promotion_none promotion] using member
  | some kind =>
    rw [promote_of_promotion_some promotion]
    have listed : id ∈ (m.promotedPiece x kind).1.roster c := by
      rcases promotedPiece_cases (m := m) (x := x) kind with same | created
      · rwa [same]
      · simpa [created] using member
    simp only [Board.roster_replaceInRoster, Board.roster_modifyPiece, Board.roster_put,
      Board.roster_lift]
    split
    · exact Board.mem_replace.mpr (Or.inr ⟨pawn, listed⟩)
    · exact listed

theorem occupant_target_promote {kind : PieceKind} (promotion : m.promotion = some kind) :
    (m.promote x).2.occupant m.target = (m.promote x).1.promoted := by
  rw [promote_of_promotion_some promotion]
  simp

theorem promoted_unlisted {kind : PieceKind} (coherent : x.Coherent)
    (promotion : m.promotion = some kind) (target : kind.isPromotionTarget = true) {q : PieceId}
    (promoted : (m.promote x).1.promoted = some q) :
    (∀ c, q ∉ x.roster c) ∧ ∀ p, x.piece? q = some p → p.kind ≠ .pawn := by
  rw [promote_of_promotion_some promotion, Option.some.injEq] at promoted
  obtain ⟨r, found, kindR, colorR, -, -, outside⟩ := promotedPiece_free (m := m) coherent kind
  rw [promoted] at found outside
  have notPawn : kind ≠ .pawn := by
    rintro rfl
    cases target
  rcases promotedPiece_cases (m := m) (x := x) kind with same | created
  · rw [same] at found outside
    refine ⟨fun c member => ?_, fun p found' => ?_⟩
    · obtain ⟨p, found', colorP, -⟩ := coherent.enrolled c q member
      rw [found, Option.some.injEq] at found'
      subst found'
      rw [← colorP, colorR] at member
      exact outside member
    · rw [found, Option.some.injEq] at found'
      rw [← found', kindR]
      exact notPawn
  · rw [Prod.ext_iff] at created
    rw [← promoted, created.2, Board.id_createPiece]
    exact ⟨coherent.fresh_not_mem_roster, fun p found' => by
      rw [Board.Coherent.piece?_fresh] at found'
      cases found'⟩

theorem promoted_eq_none (fits : m.Fits b) {hop : Option RookHop}
    (promo : (m.complete b hop).promotion = none) : m.promoted = none := by
  cases given : m.promoted with
  | none => rfl
  | some q =>
    have promotes := fits.promoted (by simp [given])
    rw [promotion_complete] at promo
    split at promo
    · cases promo
    · rw [promo] at promotes
      cases promotes

end Promote

section Undo

/-! Each step of taking back undoes its step of playing: the board after both is placed
alike with the board before, up to the promoted piece. -/

variable {skip : PieceId → Prop} {x : Board}

theorem alikeBut_count_back (z : Board) (id : PieceId) :
    AlikeBut (fun _ => False) ((z.modifyPiece id fun p => { p with moveCount := p.moveCount + 1 }).modifyPiece id
      fun p => { p with moveCount := p.moveCount - 1 }) z := by
  refine ⟨fun s => by simp, fun c => by simp, fun c => by simp, fun other _ => ?_⟩
  simp only [Board.piece?_modifyPiece]
  split
  · cases z.piece? other <;> simp
  · rfl

theorem restoreCasualty_takeCasualty (m : Move) (coherent : x.Coherent)
    (standing : ∀ v s, m.casualty = some (v, s) → x.occupant s = some v) :
    AlikeBut (fun _ => False) (m.restoreCasualty (m.takeCasualty x)) x := by
  unfold restoreCasualty takeCasualty
  cases casualty : m.casualty with
  | none => exact AlikeBut.refl _ _
  | some c =>
    obtain ⟨v, s⟩ := c
    have held := standing v s casualty
    obtain ⟨p, found, square⟩ := coherent.piece?_of_occupant held
    have uncaptured := (coherent.standing v p s found square).1
    refine ⟨fun t => ?_, fun c => by simp, fun c => by simp, fun other _ => ?_⟩
    · by_cases here : t = s
      · subst here
        simp [held]
      · simp [Board.occupant_capture, Board.piece, found, square, here, Ne.symm here]
    · by_cases same : other = v
      · subst same
        simp [found, Piece.bare_eq_iff, square, uncaptured]
      · simp [same]

theorem returnPieces_movePieces_of_castle_none {m : Move} (castle : m.castle = none)
    (coherent : x.Coherent) (held : x.occupant m.origin = some m.piece)
    (empty : x.occupant m.target = none) :
    AlikeBut skip (m.returnPieces (m.movePieces x)) x := by
  have moved : m.movePieces x = (x.lift m.piece).put m.piece m.target := by
    unfold movePieces
    split
    · rename_i found
      simp [castle] at found
    · rfl
  have returned : ∀ z, m.returnPieces z = (z.lift m.piece).put m.piece m.origin := by
    intro z
    unfold returnPieces
    split
    · rename_i found
      simp [castle] at found
    · rfl
  rw [moved, returned]
  obtain ⟨p, found, square⟩ := coherent.piece?_of_occupant held
  have apart : m.origin ≠ m.target := by
    intro same
    rw [same, empty] at held
    cases held
  refine ⟨fun s => ?_, fun c => by simp, fun c => by simp, fun other _ => ?_⟩
  · by_cases origin : s = m.origin
    · subst origin
      simp [held]
    · by_cases target : s = m.target
      · subst target
        simp [Board.piece, found, empty, origin]
      · simp [Board.piece, found, square, origin, target, Ne.symm origin, Ne.symm target]
  · by_cases same : other = m.piece
    · subst same
      simp [found, Piece.bare_eq_iff, square]
    · simp [same]

theorem returnPieces_movePieces_of_castle {m : Move} {side : CastleSide} {plan : CastlePlan}
    (castle : m.castle = some side)
    (rook : m.castleRook = some { rook := plan.rook, origin := plan.rookFrom, target := plan.rookTo })
    (coherent : x.Coherent) (held : x.occupant m.origin = some m.piece)
    (squares : CastleSquares x m plan) :
    AlikeBut skip (m.returnPieces (m.movePieces x)) x := by
  obtain ⟨rookHeld, -, apart, targets, kingClear, rookClear⟩ := squares
  simp only [movePieces, returnPieces, rook, castle]
  obtain ⟨p, found, square⟩ := coherent.piece?_of_occupant held
  obtain ⟨q, foundRook, squareRook⟩ := coherent.piece?_of_occupant rookHeld
  have origins : m.origin ≠ plan.rookFrom := by
    intro same
    rw [same, rookHeld, Option.some.injEq] at held
    exact apart held.symm
  have kingDest : m.target = m.origin ∨ m.target = plan.rookFrom ∨ x.occupant m.target = none := by
    rcases kingClear with empty | king | rook'
    · exact Or.inr (Or.inr empty)
    · have := coherent.piece_square_of_occupant king
      rw [Board.piece_eq_of_piece? x found, square, Option.some.injEq] at this
      exact Or.inl this.symm
    · have := coherent.piece_square_of_occupant rook'
      rw [Board.piece_eq_of_piece? x foundRook, squareRook, Option.some.injEq] at this
      exact Or.inr (Or.inl this.symm)
  have rookDest : plan.rookTo = m.origin ∨ plan.rookTo = plan.rookFrom ∨
      x.occupant plan.rookTo = none := by
    rcases rookClear with empty | king | rook'
    · exact Or.inr (Or.inr empty)
    · have := coherent.piece_square_of_occupant king
      rw [Board.piece_eq_of_piece? x found, square, Option.some.injEq] at this
      exact Or.inl this.symm
    · have := coherent.piece_square_of_occupant rook'
      rw [Board.piece_eq_of_piece? x foundRook, squareRook, Option.some.injEq] at this
      exact Or.inr (Or.inl this.symm)
  refine ⟨fun s => ?_, fun c => by simp, fun c => by simp, fun other _ => ?_⟩
  · by_cases atRook : s = plan.rookFrom
    · subst atRook
      simp [rookHeld]
    by_cases atKing : s = m.origin
    · subst atKing
      simp [held, origins]
    by_cases toRook : s = plan.rookTo
    · subst toRook
      rcases rookDest with same | same | empty
      · exact absurd same atKing
      · exact absurd same atRook
      · simp [Board.piece, found, foundRook, apart, Ne.symm apart, targets, atRook, atKing, empty]
    by_cases toKing : s = m.target
    · subst toKing
      rcases kingDest with same | same | empty
      · exact absurd same atKing
      · exact absurd same atRook
      · simp [Board.piece, found, foundRook, apart, Ne.symm apart, targets, atRook, atKing, empty]
    · simp [Board.piece, found, foundRook, apart, Ne.symm apart, square, squareRook, atRook, atKing,
        toRook, toKing, Ne.symm atRook, Ne.symm atKing, Ne.symm toRook, Ne.symm toKing]
  · by_cases king : other = m.piece
    · subst king
      simp [found, apart, Piece.bare_eq_iff, square]
    by_cases isRook : other = plan.rook
    · subst isRook
      simp [foundRook, Ne.symm apart, Piece.bare_eq_iff, squareRook]
    · simp [king, isRook]

theorem unpromote_promote {m : Move} {kind : PieceKind} (coherent : x.Coherent)
    (held : x.occupant m.target = some m.piece) (color : (x.piece m.piece).color = m.color)
    (promotion : m.promotion = some kind) :
    AlikeBut (fun id => (m.promote x).1.promoted = some id)
      ((m.promote x).1.unpromote (m.promote x).2) x := by
  obtain ⟨r, found, -, colorR, off, -, outside⟩ := promotedPiece_free (m := m) coherent kind
  have sameBoard := promotedPiece_cases (m := m) (x := x) kind
  unfold promote
  rw [promotion]
  dsimp only
  generalize m.promotedPiece x kind = pair at found outside sameBoard ⊢
  obtain ⟨x', q⟩ := pair
  dsimp only at found outside sameBoard ⊢
  have views : (∀ s, x'.occupant s = x.occupant s) ∧ (∀ c, x'.roster c = x.roster c) ∧
      (∀ c, x'.king c = x.king c) ∧ ∀ id, id ≠ q → x'.piece? id = x.piece? id := by
    rcases sameBoard with rfl | created
    · exact ⟨fun _ => rfl, fun _ => rfl, fun _ => rfl, fun _ _ => rfl⟩
    · obtain ⟨rfl, rfl⟩ := Prod.ext_iff.mp created
      refine ⟨fun s => by simp, fun c => by simp, fun c => by simp, fun id fresh => ?_⟩
      have old : id.index ≠ x.pieces.size := fun same => fresh (by cases id; simp_all)
      simp [old]
  obtain ⟨occupant, roster, king, piece⟩ := views
  obtain ⟨pp, foundP, squareP⟩ := coherent.piece?_of_occupant held
  have member := (coherent.standing _ pp _ foundP squareP).2
  rw [← Board.piece_eq_of_piece? x foundP, color] at member
  have apart : m.piece ≠ q := fun same => outside (by rw [roster, ← same]; exact member)
  have foundP' : x'.piece? m.piece = some pp := (piece m.piece apart).trans foundP
  have colorP : (x'.piece m.piece).color = m.color := by
    rw [Board.piece_eq_of_piece? x' foundP', ← Board.piece_eq_of_piece? x foundP, color]
  simp only [unpromote]
  refine AlikeBut.mono (fun id (same : id = q) => by simp [same]) ⟨fun s => ?_,
    fun c => ?_, fun c => by simp [king], fun other fresh => ?_⟩
  · by_cases here : s = m.target
    · subst here
      simp [held]
    · simp [Board.piece, found, foundP', Ne.symm apart, here, Ne.symm here, squareP, occupant]
  · have colorPP : pp.color = m.color := by rw [← color, Board.piece_eq_of_piece? x foundP]
    have colorQ : ((((((x'.lift m.piece).put q m.target).modifyPiece q fun p =>
        { p with moveCount := 1 }).replaceInRoster m.piece q).lift q).piece q).color = m.color := by
      simp [Board.piece, found, colorR, Ne.symm apart]
    have colorP2 : ((((x'.lift m.piece).put q m.target).modifyPiece q fun p =>
        { p with moveCount := 1 }).piece m.piece).color = m.color := by
      simp [Board.piece, foundP', apart, colorPP]
    simp only [Board.roster_put, Board.roster_replaceInRoster, Board.roster_lift,
      Board.roster_modifyPiece, colorQ, colorP2]
    by_cases mine : c = m.color
    · subst mine
      rw [if_pos rfl, if_pos rfl, Board.map_replace_replace outside, roster]
    · simp [mine, roster]
  · by_cases moved : other = m.piece
    · subst moved
      simp [foundP', apart, Piece.bare_eq_iff, squareP, foundP]
    · simp [moved, fresh, piece other fresh]

theorem unplace_place {c : Move} {a : Board} (coherent : a.Coherent)
    (standing : ∀ v s, c.casualty = some (v, s) → a.occupant s = some v)
    (moves : AlikeBut (fun _ => False) (c.returnPieces (c.movePieces (c.takeCasualty a)))
      (c.takeCasualty a)) :
    AlikeBut (fun _ => False) (c.unplace (c.place a)) a := by
  unfold unplace place
  have counted := (alikeBut_count_back (c.movePieces (c.takeCasualty a))
    c.piece).returnPieces c (fun kept => kept) fun _ _ _ _ kept => kept
  have restored := ((counted.trans moves).restoreCasualty c).trans
    (restoreCasualty_takeCasualty c coherent standing)
  exact restored.mono fun _ skipped => by simp_all

theorem AlikeBut.of_placement {y : Board} (grid : x.grid = y.grid)
    (pieces : x.pieces = y.pieces) (white : x.whiteRoster = y.whiteRoster)
    (black : x.blackRoster = y.blackRoster) (whiteKing : x.whiteKing = y.whiteKing)
    (blackKing : x.blackKing = y.blackKing) : AlikeBut (fun _ => False) x y :=
  ⟨fun s => by simp [Board.occupant, grid], fun c => by cases c <;> simp [Board.roster, white, black],
    fun c => by cases c <;> simp [Board.king, whiteKing, blackKing],
    fun id _ => by simp [Board.piece?, pieces]⟩

end Undo

section Roundtrip

variable {w : Board} {m : Move} {r : Move × Board}

theorem placed_of_promotion (coherent : w.Coherent) (settled : w.Settled) (fits : m.Fits w)
    {hop : Option RookHop} (checked : m.checkPlayable w = .ok hop) {kind : PieceKind}
    (promo : (m.complete w hop).promotion = some kind) :
    m.castle = none ∧ ((m.complete w hop).place ((m.complete w hop).advanceClocks w)).Coherent ∧
      ((m.complete w hop).place ((m.complete w hop).advanceClocks w)).occupant m.target =
        some m.piece := by
  obtain ⟨-, -, held, -, legal⟩ := checkPlayable_eq_ok.mp checked
  have castle : m.castle = none := by
    cases given : m.castle with
    | none => rfl
    | some side =>
      rw [promotion_complete_of_castle fits (by simp [given])] at promo
      cases promo
  have reach : (w.piece m.piece).targets.contains m.target = true := by
    rcases legal with ⟨-, reach, -⟩ | ⟨side, plan, castle', -⟩
    · exact reach
    · rw [castle] at castle'
      cases castle'
  exact ⟨castle, coherent_place_of_castle_none coherent settled fits held hop castle reach⟩

theorem alikeBut_unplace_unpromote (coherent : w.Coherent) (settled : w.Settled) (fits : m.Fits w)
    {hop : Option RookHop} (checked : m.checkPlayable w = .ok hop) :
    AlikeBut (fun id => (m.playSteps w hop).1.promoted = some id)
      ((m.playSteps w hop).1.unplace ((m.playSteps w hop).1.unpromote (m.playSteps w hop).2)) w := by
  obtain ⟨-, -, held, turn, legal⟩ := checkPlayable_eq_ok.mp checked
  unfold playSteps
  have coherentA : ((m.complete w hop).advanceClocks w).Coherent :=
    Board.Coherent.of_views (y := w) (fun _ => rfl) (fun _ => rfl) (fun _ => rfl) (fun _ => rfl)
      coherent
  have standing : ∀ v s, (m.complete w hop).casualty = some (v, s) →
      ((m.complete w hop).advanceClocks w).occupant s = some v := by
    intro v s found
    rw [casualty_complete] at found
    exact (findCasualty_eq_some found).2.1
  have placed : AlikeBut (fun _ => False) ((m.complete w hop).unplace
      ((m.complete w hop).place ((m.complete w hop).advanceClocks w)))
      ((m.complete w hop).advanceClocks w) := by
    refine unplace_place coherentA standing ?_
    rcases legal with ⟨castle, reach, -⟩ | ⟨side, plan, castle, open_, lands, rfl⟩
    · obtain ⟨coherentT, empty, held'⟩ :=
        takeCasualty_clears coherent settled fits held hop castle reach
      exact returnPieces_movePieces_of_castle_none (by rwa [castle_complete]) coherentT
        (by rwa [origin_complete, piece_complete]) (by rwa [target_complete])
    · have untouched : ∀ hop' x, (m.complete w hop').takeCasualty x = x := by
        intro hop' x
        unfold takeCasualty
        simp [findCasualty, castle]
      rw [untouched]
      obtain ⟨rookHeld, rook, apart, targets, kingClear, rookClear⟩ :=
        castleSquares_of_open coherent settled fits held castle turn open_ lands
      exact returnPieces_movePieces_of_castle (by rwa [castle_complete]) (castleRook_complete _ _ _)
        coherentA (by simpa using held)
        ⟨rookHeld, rook, by simpa using apart, by simpa using targets, by simpa using kingClear,
          by simpa using rookClear⟩
  have arrived : AlikeBut (fun _ => False) ((m.complete w hop).advanceClocks w) w :=
    AlikeBut.of_placement rfl rfl rfl rfl rfl rfl
  cases promo : (m.complete w hop).promotion with
  | none =>
    have unpromoted : (m.complete w hop).promoted = none := by
      rw [promoted_complete]
      exact promoted_eq_none fits promo
    rw [promote_of_promotion_none promo]
    simp only [unpromote, unpromoted]
    exact (placed.trans arrived).mono fun _ skipped => by simp_all
  | some kind =>
    obtain ⟨target, -, -⟩ := promotion_complete_eq_some fits promo
    obtain ⟨castle, coherentX, landed⟩ := placed_of_promotion coherent settled fits checked promo
    have undone := unpromote_promote coherentX (by rw [target_complete, piece_complete]; exact landed)
      (by simp [fits.color]) promo
    have kept : ∀ q, ((m.complete w hop).promote ((m.complete w hop).place
        ((m.complete w hop).advanceClocks w))).1.promoted = some q → q ≠ m.piece := by
      intro q promoted same
      obtain ⟨c, listed⟩ := coherentX.listed (Board.tracks_of_occupant (same ▸ landed))
      exact (promoted_unlisted coherentX promo target promoted).1 c listed
    obtain ⟨promoted, fields⟩ := promote_fst (m := m.complete w hop)
      ((m.complete w hop).place ((m.complete w hop).advanceClocks w))
    have unplaced := unplace_promote_fst (m := m.complete w hop)
      ((m.complete w hop).place ((m.complete w hop).advanceClocks w))
    generalize (m.complete w hop).promote
      ((m.complete w hop).place ((m.complete w hop).advanceClocks w)) = P at undone kept fields unplaced ⊢
    have pieceP : P.1.piece = m.piece := by
      rw [fields]
      exact piece_complete m w hop
    have castleP : P.1.castle = none := by
      rw [fields]
      exact (castle_complete m w hop).trans castle
    have cong := undone.unplace P.1 (by rw [pieceP]; exact fun same => kept _ same rfl)
      fun hop' side _ castled => by
        rw [castleP] at castled
        cases castled
    rw [unplaced] at cong ⊢
    have chained := (cong.trans placed).trans arrived
    exact chained.mono fun id skipped => by simpa using skipped

theorem alikeBut_passTurn_regenerate {skip : PieceId → Prop} (m : Move) (x : Board) (s : Bool) :
    AlikeBut skip { (m.passTurn x).regenerate with started := s } x :=
  ⟨fun t => (Board.occupant_regenerate _ t).trans (occupant_passTurn m x t),
    fun c => (Board.roster_regenerate _ c).trans (roster_passTurn m x c),
    fun c => (Board.king_regenerate _ c).trans (king_passTurn m x c),
    fun id _ => (Board.piece?_of_bare (Board.bare_regenerate _) id).trans (by rw [piece?_passTurn])⟩

/-! What playing leaves for taking back. The steps of playing, up to passing the turn, keep
every piece the board keeps, add at most one piece to the arena, and bring in as promoted
piece only one the board did not keep. -/

theorem size_playSteps (hop : Option RookHop) :
    w.pieces.size ≤ (m.playSteps w hop).2.pieces.size ∧
      (m.playSteps w hop).2.pieces.size ≤ w.pieces.size + 1 := by
  have placed : ((m.complete w hop).place ((m.complete w hop).advanceClocks w)).pieces.size =
      w.pieces.size := by
    rw [size_place]
    rfl
  have promoted := size_promote (m := m.complete w hop)
    ((m.complete w hop).place ((m.complete w hop).advanceClocks w))
  unfold playSteps
  omega

theorem kind_playSteps {hop : Option RookHop} {id : PieceId} (old : id.index < w.pieces.size) :
    ((m.playSteps w hop).2.piece id).kind = (w.piece id).kind := by
  unfold playSteps
  rw [kind_piece_promote (by rw [size_place]; exact old), kind_piece_place, piece_advanceClocks]

theorem mem_roster_playSteps (hop : Option RookHop) {id : PieceId} {c : Color}
    (member : id ∈ w.roster c) : id = m.piece ∨ id ∈ (m.playSteps w hop).2.roster c := by
  have moved := mem_roster_promote (m := m.complete w hop)
    (x := (m.complete w hop).place ((m.complete w hop).advanceClocks w))
    (by rw [roster_place]; exact member)
  rwa [piece_complete] at moved

theorem record_playSteps (hop : Option RookHop) :
    (m.playSteps w hop).2.record = ((m.complete w hop).advanceClocks w).record := by
  simp [playSteps]

@[simp] theorem played_playSteps {hop : Option RookHop} :
    (m.playSteps w hop).2.played = w.played :=
  (congrArg Board.played (record_playSteps (m := m) (w := w) hop) :)

@[simp] theorem lineage_playSteps {hop : Option RookHop} :
    (m.playSteps w hop).2.lineage = w.lineage :=
  (congrArg Board.lineage (record_playSteps (m := m) (w := w) hop) :)

theorem enPassant_playSteps (hop : Option RookHop) :
    (m.playSteps w hop).2.enPassant = ((m.complete w hop).advanceClocks w).enPassant :=
  (congrArg Board.enPassant (record_playSteps (m := m) (w := w) hop) :)

theorem halfmove_playSteps (hop : Option RookHop) :
    (m.playSteps w hop).2.halfmove = ((m.complete w hop).advanceClocks w).halfmove :=
  (congrArg Board.halfmove (record_playSteps (m := m) (w := w) hop) :)

theorem fullmove_playSteps (hop : Option RookHop) :
    (m.playSteps w hop).2.fullmove = ((m.complete w hop).advanceClocks w).fullmove :=
  (congrArg Board.fullmove (record_playSteps (m := m) (w := w) hop) :)

theorem playSteps_fst (hop : Option RookHop) :
    ∃ promoted, (m.playSteps w hop).1 = { m.complete w hop with promoted } :=
  promote_fst _

theorem promoted_playSteps (coherent : w.Coherent) (settled : w.Settled) (fits : m.Fits w)
    {hop : Option RookHop} (checked : m.checkPlayable w = .ok hop) {q : PieceId}
    (promoted : (m.playSteps w hop).1.promoted = some q) :
    (m.playSteps w hop).2.occupant m.target = some q ∧ ¬w.Keeps q := by
  unfold playSteps at promoted ⊢
  cases promo : (m.complete w hop).promotion with
  | none =>
    rw [promote_of_promotion_none promo, promoted_complete, promoted_eq_none fits promo] at promoted
    cases promoted
  | some kind =>
    obtain ⟨target, -, -⟩ := promotion_complete_eq_some fits promo
    obtain ⟨-, coherentX, -⟩ := placed_of_promotion coherent settled fits checked promo
    obtain ⟨unlisted, notPawn⟩ := promoted_unlisted coherentX promo target promoted
    refine ⟨by rw [← target_complete m w hop, occupant_target_promote promo, promoted], ?_⟩
    rintro (tracked | ⟨p, found, pawn⟩)
    · obtain ⟨c, listed⟩ := coherent.listed tracked
      exact unlisted c (by simpa using listed)
    · have old := Board.Coherent.lt_size_of_piece? found
      have sizeX : ((m.complete w hop).place ((m.complete w hop).advanceClocks w)).pieces.size =
          w.pieces.size := by
        rw [size_place]
        rfl
      obtain ⟨p', found'⟩ := Option.isSome_iff_exists.mp
        (show (((m.complete w hop).place ((m.complete w hop).advanceClocks w)).piece? q).isSome by
          simp [Board.piece?, sizeX, old])
      apply notPawn p' found'
      rw [← Board.piece_eq_of_piece? _ found', kind_piece_place, piece_advanceClocks,
        Board.piece_eq_of_piece? _ found, pawn]

theorem keeps_playSteps (coherent : w.Coherent) (fits : m.Fits w) {hop : Option RookHop}
    {id : PieceId} (keeps : w.Keeps id) : (m.playSteps w hop).2.Keeps id := by
  have pawnKept : ∀ id p, w.piece? id = some p → p.kind = .pawn → (m.playSteps w hop).2.Keeps id := by
    intro id p found pawn
    have old := Board.Coherent.lt_size_of_piece? found
    have sizes := size_playSteps (m := m) (w := w) hop
    obtain ⟨p', found'⟩ := Option.isSome_iff_exists.mp
      (show ((m.playSteps w hop).2.piece? id).isSome by
        simp only [Board.piece?, isSome_getElem?]
        omega)
    refine Or.inr ⟨p', found', ?_⟩
    rw [← Board.piece_eq_of_piece? _ found', kind_playSteps old, Board.piece_eq_of_piece? _ found,
      pawn]
  rcases keeps with tracked | ⟨p, found, pawn⟩
  · obtain ⟨c, listed⟩ := coherent.listed tracked
    rcases mem_roster_playSteps (m := m) hop listed with rfl | moved
    · cases promo : (m.complete w hop).promotion with
      | none =>
        refine Or.inl (Board.tracks_of_roster (c := c) ?_)
        unfold playSteps
        rw [promote_of_promotion_none promo, roster_place]
        exact listed
      | some kind =>
        obtain ⟨-, pawn, -⟩ := promotion_complete_eq_some fits promo
        obtain ⟨p, found, -, -⟩ := coherent.enrolled c m.piece listed
        exact pawnKept _ p found (by rw [← Board.piece_eq_of_piece? _ found, fits.kind, pawn])
    · exact Or.inl (Board.tracks_of_roster moved)
  · exact pawnKept id p found pawn

theorem rook_playSteps (coherent : w.Coherent) (settled : w.Settled) (fits : m.Fits w)
    {hop : Option RookHop} (checked : m.checkPlayable w = .ok hop) {hop' : RookHop}
    {side : CastleSide} (rook : hop = some hop') (castle : m.castle = some side) :
    w.Tracks hop'.rook := by
  obtain ⟨-, -, held, turn, legal⟩ := checkPlayable_eq_ok.mp checked
  rcases legal with ⟨castle', -⟩ | ⟨side, plan, castle', open_, lands, planned⟩
  · rw [castle] at castle'
    cases castle'
  rw [rook, Option.some.injEq] at planned
  subst planned
  obtain ⟨rookHeld, -⟩ := castleSquares_of_open coherent settled fits held castle' turn open_ lands
  exact Board.tracks_of_occupant rookHeld

/-- What taking back relies on in a play `r` from the board `w`. The move records the board's
lineage, side and clocks, and the board played to records the move last. That board keeps
every piece `w` keeps, holds the promoted piece and adds at most one piece to the arena. The
pieces the move lifts are pieces `w` keeps, the promoted piece one it does not; and taking
back the placement and promotion gives back `w`, placed alike up to the promoted piece. -/
structure Undoable (w : Board) (r : Move × Board) : Prop where
  lineage : r.1.lineage = w.lineage ∧ r.2.lineage = w.lineage
  executed : r.1.executed = true
  played : r.2.played = w.played.push (r.1.origin, r.1.target)
  color : r.1.color = w.side
  enPassant : r.1.prevEnPassant = w.enPassant
  halfmove : r.1.prevHalfmove = w.halfmove
  fullmove : r.1.prevFullmove = w.fullmove
  started : r.2.started = true
  size : w.pieces.size ≤ r.2.pieces.size ∧ r.2.pieces.size ≤ w.pieces.size + 1
  keeps : ∀ id, w.Keeps id → r.2.Keeps id
  promoted : ∀ q, r.1.promoted = some q → r.2.Tracks q ∧ ¬w.Keeps q
  mover : w.Keeps r.1.piece
  rook : ∀ hop side, r.1.castleRook = some hop → r.1.castle = some side → w.Keeps hop.rook
  casualty : ∀ v, r.1.casualty = some v → w.Keeps v.1
  undo : AlikeBut (fun id => r.1.promoted = some id) (r.1.unplace (r.1.unpromote r.2)) w

theorem undoable_execute (coherent : w.Coherent) (settled : w.Settled) (fits : m.Fits w)
    {r : Move × Board} (run : m.execute w = .ok r) : Undoable w r := by
  obtain ⟨hop, checked, board, outcome, move⟩ := execute_eq_ok run
  obtain ⟨lineage, -, held, turn, -⟩ := checkPlayable_eq_ok.mp checked
  obtain ⟨promoted, fields⟩ := playSteps_fst (m := m) (w := w) hop
  obtain ⟨r1, r2⟩ := r
  dsimp only at board move
  have toP : AlikeBut (fun _ => False) r2 (m.playSteps w hop).2 := by
    rw [board]
    exact alikeBut_passTurn_regenerate _ _ true
  have promotedP : r1.promoted = (m.playSteps w hop).1.promoted := by rw [move]
  have undone : r1.unplace (r1.unpromote (m.playSteps w hop).2) =
      (m.playSteps w hop).1.unplace ((m.playSteps w hop).1.unpromote (m.playSteps w hop).2) := by
    subst move
    rfl
  refine ⟨⟨by simp [move, fields, lineage], by simp [board]⟩, by rw [move], by simp [board, move],
    by simp [move, fields, turn], by simp [move, fields], by simp [move, fields],
    by simp [move, fields], by rw [board], by simpa [board] using size_playSteps hop,
    fun id keeps => toP.keeps not_false (keeps_playSteps coherent fits keeps), fun q promotedQ => ?_,
    ?_, fun hop' side rook castle => ?_, fun v casualty => ?_, ?_⟩
  · rw [promotedP] at promotedQ
    obtain ⟨standing, unkept⟩ := promoted_playSteps coherent settled fits checked promotedQ
    exact ⟨(toP.tracks_iff q).mpr (Board.tracks_of_occupant standing), unkept⟩
  · have piece : r1.piece = m.piece := by simp [move, fields]
    exact Or.inl (piece ▸ Board.tracks_of_occupant held)
  · have rook' : hop = some hop' := by simpa [move, fields] using rook
    have castle' : m.castle = some side := by simpa [move, fields] using castle
    exact Or.inl (rook_playSteps coherent settled fits checked rook' castle')
  · have found : m.findCasualty w = some v := by simpa [move, fields] using casualty
    exact Or.inl (Board.tracks_of_occupant (findCasualty_eq_some found).2.1)
  · have taken := (toP.unpromote r1 fun _ _ => not_false).unplace r1 not_false
      fun _ _ _ _ => not_false
    rw [undone] at taken
    exact (taken.trans (alikeBut_unplace_unpromote coherent settled fits checked)).mono
      fun id skipped => by simpa [promotedP] using skipped

theorem Undoable.alikeBut_unplace (undoable : Undoable w r) {y : Board} (restores : r.2.Restores y) :
    AlikeBut (fun id => ¬r.2.Keeps id ∨ r.1.promoted = some id)
      (r.1.unplace (r.1.unpromote { y with played := y.played.pop, side := r.1.color })) w := by
  have start : AlikeBut (fun id => ¬r.2.Keeps id)
      { y with played := y.played.pop, side := r.1.color } r.2 :=
    ((AlikeBut.of_placement
      (x := { y with played := y.played.pop, side := r.1.color }) (y := y) rfl rfl rfl rfl rfl
      rfl).trans restores.alikeBut).mono fun id skipped => by simpa using skipped
  have unplaced := (start.unpromote r.1 fun q promoted =>
      not_not.mpr (Or.inl (undoable.promoted q promoted).1)).unplace r.1
    (not_not.mpr (undoable.keeps _ undoable.mover))
    fun hop side rook castle => not_not.mpr (undoable.keeps _ (undoable.rook hop side rook castle))
  exact unplaced.trans undoable.undo

/-- The pieces set aside in taking back stand off the board taken back to, when that board was
coherent: a piece the board played to does not keep is none the move lifts and stands off the
restoring board, and the promoted piece is lifted off. -/
theorem Undoable.square_unplace (undoable : Undoable w r) {y : Board} (restores : r.2.Restores y)
    (coherent : y.Coherent) {id : PieceId} (skipped : ¬r.2.Keeps id ∨ r.1.promoted = some id)
    {p : Piece}
    (found : (r.1.unplace (r.1.unpromote { y with played := y.played.pop, side := r.1.color })).piece? id =
      some p) :
    p.square = none := by
  rcases skipped with unkept | promoted
  · have apart : ∀ id', w.Keeps id' → id ≠ id' := fun id' keeps same =>
      unkept (same ▸ undoable.keeps id' keeps)
    rw [piece?_unplace_of_ne (apart _ undoable.mover)
        (fun hop side rook castle => apart _ (undoable.rook hop side rook castle))
        (fun v casualty => apart _ (undoable.casualty v casualty)),
      piece?_unpromote_of_ne (fun q promoted same =>
        unkept (by rw [same]; exact Or.inl (undoable.promoted q promoted).1))
        (apart _ undoable.mover)] at found
    cases square : p.square with
    | none => rfl
    | some s =>
      have held := (coherent.occupant_iff s id).mpr ⟨p, found, square⟩
      exact absurd (Or.inl ((restores.toAgree.tracks_iff id).mpr (Board.tracks_of_occupant held)))
        unkept
  · have apart : ∀ id', w.Keeps id' → id ≠ id' := fun id' keeps same =>
      (undoable.promoted id promoted).2 (same ▸ keeps)
    rw [piece?_unplace_of_ne (apart _ undoable.mover)
      (fun hop side rook castle => apart _ (undoable.rook hop side rook castle))
      (fun v casualty => apart _ (undoable.casualty v casualty))] at found
    exact square_unpromote_promoted promoted (apart _ undoable.mover) found

/-- Taking back a play, from any board that restores the one it was played to, restores the
board it was played on, adds no piece to the arena, and keeps the restoring board's start
flag and coherence. -/
theorem Undoable.unexecute (undoable : Undoable w r) (coherent : w.Coherent) (settled : w.Settled)
    {y : Board} (restores : r.2.Restores y) :
    ∃ t, r.1.unexecute y = .ok t ∧ t.1 = { r.1 with executed := false } ∧ w.Restores t.2 ∧
      t.2.pieces.size = y.pieces.size ∧ t.2.started = y.started ∧ (y.Coherent → t.2.Coherent) := by
  refine ⟨_, unexecute_eq_ok.mpr ⟨?lineage, undoable.executed, ?last, rfl⟩, rfl, ?_⟩
  case lineage => rw [← restores.lineage, undoable.lineage.2, undoable.lineage.1]
  case last => rw [Board.lastMove?, ← restores.played, undoable.played, Array.back?_push]
  have square := undoable.square_unplace restores
  have unplaced := undoable.alikeBut_unplace restores
  dsimp only
  have record := record_unplace r.1 (r.1.unpromote { y with played := y.played.pop, side := r.1.color })
  rw [record_unpromote] at record
  have size : (r.1.unplace (r.1.unpromote { y with played := y.played.pop, side := r.1.color })).pieces.size =
      y.pieces.size := by
    simp
  generalize r.1.unplace (r.1.unpromote { y with played := y.played.pop, side := r.1.color }) = U
    at square unplaced record size ⊢
  have final := (AlikeBut.of_placement
    (x := { U with enPassant := r.1.prevEnPassant, halfmove := r.1.prevHalfmove,
                   fullmove := r.1.prevFullmove }) (y := U) rfl rfl rfl rfl rfl rfl).trans unplaced
  have kept : ∀ id, w.Keeps id → ¬(False ∨ ¬r.2.Keeps id ∨ r.1.promoted = some id) := by
    rintro id keeps (skipped | unkept | promoted)
    · exact skipped
    · exact unkept (undoable.keeps id keeps)
    · exact (undoable.promoted id promoted).2 keeps
  refine ⟨⟨settled.trans (Same.regenerate (final.toAgree ?side ?enPassant
      fun id tracked => kept id (Or.inl ((final.tracks_iff id).mp tracked))).symm), ?halfmove,
      ?fullmove, ?played, ?lineage, ?pawn⟩, by simpa using size,
      by simpa using congrArg Board.started record, fun coherentY => ?_⟩
  case side => simpa [undoable.color] using congrArg Board.side record
  case enPassant => simp [undoable.enPassant]
  case halfmove => simp [undoable.halfmove]
  case fullmove => simp [undoable.fullmove]
  case played => simpa [← restores.played, undoable.played] using (congrArg Board.played record).symm
  case lineage =>
    simpa [← restores.lineage, undoable.lineage.2] using (congrArg Board.lineage record).symm
  case pawn =>
    intro id p found pawn
    rw [Board.piece?_of_bare (Board.bare_regenerate _) id,
      final.piece id (kept id (Or.inr ⟨p, found, pawn⟩)), found, Option.map_some]
  refine (Board.Coherent.of_alikeBut final coherent
    (fun id tracked => kept id (Or.inl ((final.tracks_iff id).mp tracked))) ?_).regenerate
  rintro id p (skipped | skipped) found
  · exact skipped.elim
  · exact square coherentY skipped found

end Roundtrip

end Move

end Chess
