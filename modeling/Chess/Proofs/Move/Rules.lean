import Chess.Proofs.Move.TakeBack

namespace Chess

/-! What stands on each square: the kind and colour of its piece, as the edits of a board
change it, and how a move compares with a listed one. -/

namespace Board

def pieceOn (b : Board) (s : Square) : Option (PieceKind × Color) :=
  (b.occupant s).map fun id => ((b.piece id).kind, (b.piece id).color)

variable {b : Board}

@[simp] theorem pieceOn_put (id : PieceId) (s t : Square) :
    (b.put id s).pieceOn t =
      if t = s then some ((b.piece id).kind, (b.piece id).color) else b.pieceOn t := by
  unfold pieceOn
  split <;> simp [*]

theorem pieceOn_modifyPiece (id : PieceId) {f : Piece → Piece} (kind : ∀ p, (f p).kind = p.kind)
    (color : ∀ p, (f p).color = p.color) (t : Square) :
    (b.modifyPiece id f).pieceOn t = b.pieceOn t := by
  simp [pieceOn, kind_piece_modifyPiece _ _ _ f kind, color_piece_modifyPiece _ _ _ f color]

@[simp] theorem pieceOn_replaceInRoster (old new : PieceId) (t : Square) :
    (b.replaceInRoster old new).pieceOn t = b.pieceOn t := by
  simp [pieceOn, piece]

@[simp] theorem pieceOn_regenerate (t : Square) : b.regenerate.pieceOn t = b.pieceOn t := by
  simp [pieceOn]

theorem Linked.occupant_lift (linked : b.Linked) (id : PieceId) (t : Square) :
    (b.lift id).occupant t = if b.occupant t = some id then none else b.occupant t := by
  rw [Board.occupant_lift]
  by_cases held : b.occupant t = some id
  · obtain ⟨p, found, square⟩ := (linked t id).mp held
    simp [held, piece_eq_of_piece? b found, square]
  · simp [held]

theorem Linked.pieceOn_lift (linked : b.Linked) (id : PieceId) (t : Square) :
    (b.lift id).pieceOn t = if b.occupant t = some id then none else b.pieceOn t := by
  unfold pieceOn
  rw [linked.occupant_lift]
  split <;> simp

theorem Linked.pieceOn_capture (linked : b.Linked) (id : PieceId) (t : Square) :
    (b.capture id).pieceOn t = if b.occupant t = some id then none else b.pieceOn t := by
  rw [← linked.pieceOn_lift]
  exact pieceOn_modifyPiece (b := b.lift id) id (f := fun p => { p with captured := true })
    (fun _ => rfl) (fun _ => rfl) t

theorem Coherent.occupant_eq_iff (coherent : b.Coherent) {s : Square} {id : PieceId}
    (held : b.occupant s = some id) (t : Square) : b.occupant t = some id ↔ t = s := by
  constructor
  · intro held'
    have there := coherent.piece_square_of_occupant held
    rw [coherent.piece_square_of_occupant held', Option.some.injEq] at there
    exact there
  · rintro rfl
    exact held

end Board

namespace Move

section Listed

variable {b : Board} {id : PieceId} {o t : Square} {promo : Option PieceKind}
  {castle : Option CastleSide}

theorem playsSame_knownLegal (m : Move) :
    m.playsSame (knownLegal b id o t promo castle) =
      (m.origin = o && m.target = t && m.castle = castle && m.promotionPiece =
        if (b.piece id).kind = .pawn ∧ t.rank = Rank.promotion (b.piece id).color then
          some (promo.getD .queen) else none) := by
  unfold knownLegal build
  split
  cases castle <;> rfl

end Listed

end Move

end Chess
