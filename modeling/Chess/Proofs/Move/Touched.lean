import Chess.Proofs.Move.Played
import Chess.Proofs.Move.Arena
import Chess.Proofs.Board.FromSetup

namespace Chess

/-! The pieces a played move touches. A move shifts its own piece and, for a castle, its rook,
and it may take one piece. Playing counts one move more for each piece it shifts, takes the
piece it takes off the board, brings in a promoted piece with one move made, and leaves every
other piece of the arena on its square with its count (`advance_execute`). -/

namespace Move

def shifts (m : Move) (id : PieceId) : Bool :=
  decide (m.piece = id) || (m.castle.isSome && m.castleRook.any fun hop => decide (hop.rook = id))

def takes (m : Move) (id : PieceId) : Bool :=
  m.casualty.any fun v => decide (v.1 = id)

end Move

namespace Board

variable {b : Board}

/-! ### Move counts and squares through the edits of playing -/

theorem piece?_eq_some_piece {id : PieceId} (inArena : id.index < b.pieces.size) :
    b.piece? id = some (b.piece id) := by
  unfold piece piece?
  rw [Array.getElem?_eq_getElem inArena]
  rfl

theorem piece_modifyPiece_self {id : PieceId} (inArena : id.index < b.pieces.size)
    (f : Piece → Piece) : (b.modifyPiece id f).piece id = f (b.piece id) := by
  rw [piece, piece?_modifyPiece, if_pos rfl, piece?_eq_some_piece inArena]
  rfl

@[simp] theorem moveCount_piece_lift (id t : PieceId) :
    ((b.lift id).piece t).moveCount = (b.piece t).moveCount := by
  simp only [piece, piece?_lift]
  split <;> cases b.piece? t <;> rfl

@[simp] theorem moveCount_piece_put (id t : PieceId) (s : Square) :
    ((b.put id s).piece t).moveCount = (b.piece t).moveCount := by
  simp only [piece, piece?_put]
  split <;> cases b.piece? t <;> rfl

@[simp] theorem moveCount_piece_capture (id t : PieceId) :
    ((b.capture id).piece t).moveCount = (b.piece t).moveCount := by
  simp only [piece, piece?_capture]
  split <;> cases b.piece? t <;> rfl

@[simp] theorem square_piece_capture_self (id : PieceId) : ((b.capture id).piece id).square = none := by
  simp only [piece, piece?_capture, if_true]
  cases b.piece? id <;> rfl

end Board

namespace Move

variable {m : Move} {b : Board} {hop : Option RookHop}

theorem takes_complete_ne (fits : m.Fits b) {id : PieceId}
    (taken : (m.complete b hop).takes id = true) :
    id ≠ m.piece ∧ m.castle = none ∧ ∃ s, b.occupant s = some id := by
  simp only [takes, casualty_complete, Option.any_eq_true, decide_eq_true_eq] at taken
  obtain ⟨⟨v, s⟩, found, rfl⟩ := taken
  obtain ⟨castle, held, color, -⟩ := findCasualty_eq_some found
  refine ⟨fun same => color ?_, castle, _, held⟩
  rw [show v = m.piece from same]
  exact fits.color

@[simp] theorem moveCount_piece_takeCasualty (x : Board) (id : PieceId) :
    ((m.takeCasualty x).piece id).moveCount = (x.piece id).moveCount := by
  unfold takeCasualty
  split <;> simp

@[simp] theorem size_takeCasualty (x : Board) : (m.takeCasualty x).pieces.size = x.pieces.size := by
  unfold takeCasualty
  split <;> simp

theorem square_piece_takeCasualty_of_ne (x : Board) {id : PieceId}
    (spared : ∀ v, m.casualty = some v → v.1 ≠ id) :
    ((m.takeCasualty x).piece id).square = (x.piece id).square := by
  unfold takeCasualty
  split
  · rename_i v s casualty
    simp [Board.piece, Ne.symm (spared _ casualty)]
  · rfl

theorem square_place_of_takes (fits : m.Fits b) {id : PieceId} (taken : (m.complete b hop).takes id = true) :
    (((m.complete b hop).place ((m.complete b hop).advanceClocks b)).piece id).square = none := by
  obtain ⟨notMover, castle, -⟩ := takes_complete_ne fits taken
  simp only [takes, casualty_complete, Option.any_eq_true, decide_eq_true_eq] at taken
  obtain ⟨⟨v, s⟩, casualty, rfl⟩ := taken
  rw [place_of_castle_none _ _ (by simpa using castle), piece_complete,
    Board.piece_modifyPiece_of_ne _ notMover, Board.piece_put_of_ne _ _ notMover,
    Board.piece_lift_of_ne _ notMover]
  simp [takeCasualty, casualty]

section Placed

variable (coherent : b.Coherent) (settled : b.Settled) (fits : m.Fits b)
  (checked : m.checkPlayable b = .ok hop)
include coherent settled fits checked

theorem shifts_complete_cases {id : PieceId} (shifted : (m.complete b hop).shifts id = true) :
    (∃ s, b.occupant s = some id) ∧
      (id = m.piece ∨ ∃ side hop', m.castle = some side ∧ hop = some hop' ∧ hop'.rook = id ∧
        m.piece ≠ hop'.rook) := by
  obtain ⟨-, -, held, turn, legal⟩ := checkPlayable_eq_ok.mp checked
  simp only [shifts, Bool.or_eq_true, decide_eq_true_eq, piece_complete, castle_complete,
    castleRook_complete, Bool.and_eq_true, Option.any_eq_true] at shifted
  rcases shifted with rfl | ⟨castled, hop', rook, rfl⟩
  · exact ⟨⟨_, held⟩, Or.inl rfl⟩
  · rcases legal with ⟨castle, -⟩ | ⟨side, plan, castle, open_, lands, rfl⟩
    · simp [castle] at castled
    · obtain ⟨rookHeld, -, apart, -⟩ := castleSquares_of_open coherent settled fits held castle turn
        open_ lands
      cases Option.some.inj rook
      exact ⟨⟨_, rookHeld⟩, Or.inr ⟨side, _, castle, rfl, rfl, apart⟩⟩

theorem inArena_of_shifts {id : PieceId} (shifted : (m.complete b hop).shifts id = true) :
    id.index < b.pieces.size := by
  obtain ⟨⟨s, held⟩, -⟩ := shifts_complete_cases coherent settled fits checked shifted
  obtain ⟨p, found, -⟩ := coherent.piece?_of_occupant held
  exact Board.Coherent.lt_size_of_piece? found

theorem moveCount_place (id : PieceId) :
    (((m.complete b hop).place ((m.complete b hop).advanceClocks b)).piece id).moveCount =
      (b.piece id).moveCount + if (m.complete b hop).shifts id then 1 else 0 := by
  obtain ⟨-, -, held, -, legal⟩ := checkPlayable_eq_ok.mp checked
  have mover : (m.complete b hop).shifts m.piece = true := by simp [shifts]
  have inArena := inArena_of_shifts coherent settled fits checked mover
  have sizeX : ((m.complete b hop).advanceClocks b).pieces.size = b.pieces.size := rfl
  rcases legal with ⟨castle, -, -⟩ | ⟨side, plan, castle, open_, lands, rfl⟩
  · have shifted : (m.complete b hop).shifts id = decide (m.piece = id) := by simp [shifts, castle]
    rw [place_of_castle_none _ _ (by simpa using castle), shifted, piece_complete]
    by_cases same : id = m.piece
    · subst same
      rw [Board.piece_modifyPiece_self (by simpa [sizeX] using inArena)]
      simp
    · rw [Board.piece_modifyPiece_of_ne _ same]
      simp [Ne.symm same]
  · obtain ⟨rookHeld, -, apart, -⟩ := castleSquares_of_open coherent settled fits held castle
      (checkPlayable_eq_ok.mp checked).2.2.2.1 open_ lands
    obtain ⟨p, found, -⟩ := coherent.piece?_of_occupant rookHeld
    have rookInArena := Board.Coherent.lt_size_of_piece? found
    have shifted : (m.complete b (some ⟨plan.rook, plan.rookFrom, plan.rookTo⟩)).shifts id =
        (decide (m.piece = id) || decide (plan.rook = id)) := by
      simp [shifts, castle]
    rw [place_of_castle castle, shifted]
    by_cases king : id = m.piece
    · subst king
      rw [Board.piece_modifyPiece_self (by simpa [sizeX] using inArena), Board.piece_modifyPiece_of_ne _ apart]
      simp
    · rw [Board.piece_modifyPiece_of_ne _ king]
      by_cases rook : id = plan.rook
      · subst rook
        rw [Board.piece_modifyPiece_self (by simpa [sizeX] using rookInArena)]
        simp [Ne.symm king]
      · rw [Board.piece_modifyPiece_of_ne _ rook]
        simp [Ne.symm king, Ne.symm rook]

omit coherent settled fits in
theorem square_place_of_untouched {id : PieceId} (still : (m.complete b hop).shifts id = false)
    (spared : (m.complete b hop).takes id = false) :
    (((m.complete b hop).place ((m.complete b hop).advanceClocks b)).piece id).square =
      (b.piece id).square := by
  obtain ⟨-, -, held, turn, legal⟩ := checkPlayable_eq_ok.mp checked
  have notMover : id ≠ m.piece := fun same => by simp [shifts, same] at still
  rcases legal with ⟨castle, -, -⟩ | ⟨side, plan, castle, -, -, rfl⟩
  · rw [place_of_castle_none _ _ (by simpa using castle), piece_complete,
      Board.piece_modifyPiece_of_ne _ notMover, Board.piece_put_of_ne _ _ notMover,
      Board.piece_lift_of_ne _ notMover, square_piece_takeCasualty_of_ne]
    · rfl
    · intro v casualty same
      rw [casualty_complete] at casualty
      simp [takes, casualty, ← same] at spared
  · have notRook : id ≠ plan.rook := fun same => by simp [shifts, castle, same] at still
    rw [place_of_castle castle, Board.piece_modifyPiece_of_ne _ notMover,
      Board.piece_modifyPiece_of_ne _ notRook, Board.piece_put_of_ne _ _ notRook,
      Board.piece_put_of_ne _ _ notMover, Board.piece_lift_of_ne _ notRook,
      Board.piece_lift_of_ne _ notMover]
    rfl

end Placed

section Promoted

variable {x : Board} {id : PieceId} (unborn : m.promoted = none)
include unborn

theorem promotedPiece_of_unborn (kind : PieceKind) :
    m.promotedPiece x kind = x.createPiece kind m.color := by
  simp [promotedPiece, unborn]

theorem moveCount_promote_old (old : id.index < x.pieces.size) :
    ((m.promote x).2.piece id).moveCount = (x.piece id).moveCount := by
  cases promo : m.promotion with
  | none => rw [promote_of_promotion_none promo]
  | some kind =>
    have created : id ≠ ⟨x.pieces.size⟩ := fun same => by simp [same] at old
    rw [promote_of_promotion_some promo, promotedPiece_of_unborn unborn, Board.piece_replaceInRoster,
      Board.id_createPiece, Board.piece_modifyPiece_of_ne _ created, Board.piece_put_of_ne _ _ created,
      Board.moveCount_piece_lift]
    simp [Board.piece, Nat.ne_of_lt old]

theorem square_promote_of_ne (old : id.index < x.pieces.size) (other : id ≠ m.piece) :
    ((m.promote x).2.piece id).square = (x.piece id).square := by
  cases promo : m.promotion with
  | none => rw [promote_of_promotion_none promo]
  | some kind =>
    have created : id ≠ ⟨x.pieces.size⟩ := fun same => by simp [same] at old
    rw [promote_of_promotion_some promo, promotedPiece_of_unborn unborn, Board.piece_replaceInRoster,
      Board.id_createPiece, Board.piece_modifyPiece_of_ne _ created, Board.piece_put_of_ne _ _ created,
      Board.piece_lift_of_ne _ other]
    simp [Board.piece, Nat.ne_of_lt old]

theorem moveCount_promote_new (new : x.pieces.size ≤ id.index)
    (within : id.index < (m.promote x).2.pieces.size) : ((m.promote x).2.piece id).moveCount = 1 := by
  cases promo : m.promotion with
  | none =>
    rw [promote_of_promotion_none promo] at within
    exact absurd within (Nat.not_lt.mpr new)
  | some kind =>
    rw [promote_of_promotion_some promo, promotedPiece_of_unborn unborn] at within ⊢
    have bound : id.index < x.pieces.size + 1 := by simpa using within
    have created : id = ⟨x.pieces.size⟩ := by
      cases id
      simp only [PieceId.mk.injEq] at new bound ⊢
      omega
    subst created
    rw [Board.piece_replaceInRoster, Board.id_createPiece, Board.piece_modifyPiece_self (by simp)]

end Promoted

@[simp] theorem king_place (x : Board) (c : Color) : (m.place x).king c = x.king c := by
  unfold place movePieces takeCasualty
  split <;> split <;> simp

@[simp] theorem king_promote (x : Board) (c : Color) : (m.promote x).2.king c = x.king c := by
  cases promo : m.promotion with
  | none => rw [promote_of_promotion_none promo]
  | some kind =>
    rw [promote_of_promotion_some promo]
    rcases promotedPiece_cases (m := m) (x := x) kind with same | created
    · simp [same]
    · simp [created]

theorem promoted_of_mem_legalMoves (listed : m ∈ b.legalMoves) : m.promoted = none := by
  rcases Board.mem_legalMoves.mp listed with
    ⟨id, -, o, -, t, -, promo, -, rfl⟩ | ⟨side, plan, -, rfl⟩
  · simp [knownLegal_eq, build]
  · simp [knownLegal_eq, build]

section Steps

variable (unborn : m.promoted = none)
include unborn

theorem moveCount_playSteps (coherent : b.Coherent) (settled : b.Settled) (fits : m.Fits b)
    (checked : m.checkPlayable b = .ok hop) {id : PieceId} (old : id.index < b.pieces.size) :
    ((m.playSteps b hop).2.piece id).moveCount =
      (b.piece id).moveCount + if (m.complete b hop).shifts id then 1 else 0 := by
  unfold playSteps
  rw [moveCount_promote_old (by rw [promoted_complete]; exact unborn) (by rw [size_place]; exact old),
    moveCount_place coherent settled fits checked]

theorem moveCount_playSteps_new {id : PieceId} (new : b.pieces.size ≤ id.index)
    (within : id.index < (m.playSteps b hop).2.pieces.size) :
    ((m.playSteps b hop).2.piece id).moveCount = 1 := by
  unfold playSteps at within ⊢
  exact moveCount_promote_new (by rw [promoted_complete]; exact unborn) (by rw [size_place]; exact new) within

theorem square_playSteps_of_takes (coherent : b.Coherent) (fits : m.Fits b) {id : PieceId} (taken : (m.complete b hop).takes id = true) :
    ((m.playSteps b hop).2.piece id).square = none := by
  obtain ⟨notMover, -, s, held⟩ := takes_complete_ne fits taken
  obtain ⟨p, found, -⟩ := coherent.piece?_of_occupant held
  unfold playSteps
  rw [square_promote_of_ne (by rw [promoted_complete]; exact unborn)
    (by rw [size_place]; exact Board.Coherent.lt_size_of_piece? found) (by simpa using notMover),
    square_place_of_takes fits taken]

theorem square_playSteps_of_untouched (checked : m.checkPlayable b = .ok hop) {id : PieceId} (old : id.index < b.pieces.size)
    (still : (m.complete b hop).shifts id = false) (spared : (m.complete b hop).takes id = false) :
    ((m.playSteps b hop).2.piece id).square = (b.piece id).square := by
  have notMover : id ≠ m.piece := fun same => by simp [shifts, same] at still
  unfold playSteps
  rw [square_promote_of_ne (by rw [promoted_complete]; exact unborn) (by rw [size_place]; exact old)
    (by simpa using notMover), square_place_of_untouched checked still spared]

end Steps

@[simp] theorem moveCount_piece_passTurn (x : Board) (id : PieceId) :
    ((m.passTurn x).piece id).moveCount = (x.piece id).moveCount := by
  simp [Board.piece]

@[simp] theorem square_piece_passTurn (x : Board) (id : PieceId) :
    ((m.passTurn x).piece id).square = (x.piece id).square := by
  simp [Board.piece]

end Move

namespace Board

/-- What playing the move `m` takes the board `b` to, piece by piece: the kings stay; the arena
grows, a piece it gains having one move made; each piece the move shifts stood on the board and
counts one move more; the piece it takes leaves the board; every other piece keeps its square and
its count. -/
structure Advance (b : Board) (m : Move) (b' : Board) : Prop where
  king : ∀ c, b'.king c = b.king c
  grows : b.ArenaGrows b'
  fresh : ∀ id : PieceId, b.pieces.size ≤ id.index → id.index < b'.pieces.size →
    (b'.piece id).moveCount = 1
  moveCount : ∀ id : PieceId, id.index < b.pieces.size →
    (b'.piece id).moveCount = (b.piece id).moveCount + if m.shifts id then 1 else 0
  standing : ∀ id, m.shifts id = true → ((b.piece id).square).isSome
  taken : ∀ id, m.takes id = true → (b'.piece id).square = none
  square : ∀ id : PieceId, id.index < b.pieces.size → m.shifts id = false → m.takes id = false →
    (b'.piece id).square = (b.piece id).square

variable {b : Board} {m : Move} {r : Move × Board}

theorem advance_execute (coherent : b.Coherent) (settled : b.Settled) (listed : m ∈ b.legalMoves)
    (run : m.execute b = .ok r) : b.Advance r.1 r.2 := by
  have fits := fits_of_mem_legalMoves coherent settled listed
  have unborn := Move.promoted_of_mem_legalMoves listed
  obtain ⟨hop, checked, board, outcome, move⟩ := Move.execute_eq_ok run
  obtain ⟨promoted, fields⟩ := Move.playSteps_fst (m := m) (w := b) hop
  have shifts : r.1.shifts = (m.complete b hop).shifts := by
    rw [move, fields]
    rfl
  have takes : r.1.takes = (m.complete b hop).takes := by
    rw [move, fields]
    rfl
  have moveCount : ∀ id, (r.2.piece id).moveCount = ((m.playSteps b hop).2.piece id).moveCount := by
    intro id
    rw [board]
    show (((m.playSteps b hop).1.passTurn (m.playSteps b hop).2).regenerate.piece id).moveCount = _
    rw [moveCount_piece_regenerate, Move.moveCount_piece_passTurn]
  have square : ∀ id, (r.2.piece id).square = ((m.playSteps b hop).2.piece id).square := by
    intro id
    rw [board]
    show (((m.playSteps b hop).1.passTurn (m.playSteps b hop).2).regenerate.piece id).square = _
    rw [square_piece_regenerate, Move.square_piece_passTurn]
  refine ⟨fun c => ?_, Move.arenaGrows_execute run, fun id new within => ?_, fun id old => ?_,
    fun id shifted => ?_, fun id taken => ?_, fun id old still spared => ?_⟩
  · rw [board]
    show ((m.playSteps b hop).1.passTurn (m.playSteps b hop).2).regenerate.king c = b.king c
    rw [king_regenerate, Move.king_passTurn, Move.playSteps, Move.king_promote, Move.king_place,
      Move.king_advanceClocks]
  · rw [moveCount]
    refine Move.moveCount_playSteps_new unborn new ?_
    rw [board] at within
    simpa using within
  · rw [moveCount, shifts, Move.moveCount_playSteps unborn coherent settled fits checked old]
  · rw [shifts] at shifted
    obtain ⟨⟨s, held⟩, -⟩ := Move.shifts_complete_cases coherent settled fits checked shifted
    simp [coherent.piece_square_of_occupant held]
  · rw [takes] at taken
    rw [square, Move.square_playSteps_of_takes unborn coherent fits taken]
  · rw [shifts] at still
    rw [takes] at spared
    rw [square, Move.square_playSteps_of_untouched unborn checked old still spared]

end Board

end Chess
