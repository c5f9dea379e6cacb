import Chess.Proofs.Board.Agree
import Chess.Proofs.Board.Coherence

namespace Chess

def Piece.RespectsBare (f : Piece → Piece) : Prop :=
  ∀ p q : Piece, p.bare = q.bare → (f p).bare = (f q).bare

theorem Piece.RespectsBare.of_bare {f : Piece → Piece} (edits : ∀ p, (f p).bare = (f p.bare).bare) :
    Piece.RespectsBare f := by
  intro p q same
  rw [edits p, edits q, same]

theorem Piece.RespectsBare.map {f : Piece → Piece} (respects : Piece.RespectsBare f)
    {o o' : Option Piece} (same : o.map Piece.bare = o'.map Piece.bare) :
    (o.map f).map Piece.bare = (o'.map f).map Piece.bare := by
  cases o <;> cases o' <;>
    simp only [Option.map_none, Option.map_some, reduceCtorEq, Option.some.injEq] at same ⊢
  exact respects _ _ same

namespace Board

/-! Boards that place their pieces alike. Taking a move back undoes the edits of playing it
one at a time. Each undo gives back a board that places the pieces as before, up to the reach
sets that regeneration recomputes and perhaps up to the piece a promotion brought in; the
relation here is kept by every edit of taking back, so the undos chain. -/

/-- Two boards place their pieces alike, except perhaps the pieces `skip` holds: the same
occupants, rosters and kings, and for every other id the same piece up to its reach sets. -/
structure AlikeBut (skip : PieceId → Prop) (x y : Board) : Prop where
  occupant : ∀ s, x.occupant s = y.occupant s
  roster : ∀ c, x.roster c = y.roster c
  king : ∀ c, x.king c = y.king c
  piece : ∀ id, ¬skip id → (x.piece? id).map Piece.bare = (y.piece? id).map Piece.bare

theorem grid_eq_of_occupant {x y : Board} (occupant : ∀ s, x.occupant s = y.occupant s) :
    x.grid = y.grid := by
  apply Vector.ext
  intro i bound
  exact occupant ⟨⟨i, bound⟩⟩

namespace AlikeBut

variable {skip skip' : PieceId → Prop} {x y z : Board}

theorem refl (skip : PieceId → Prop) (x : Board) : AlikeBut skip x x :=
  ⟨fun _ => rfl, fun _ => rfl, fun _ => rfl, fun _ _ => rfl⟩

theorem symm (alike : AlikeBut skip x y) : AlikeBut skip y x :=
  ⟨fun s => (alike.occupant s).symm, fun c => (alike.roster c).symm, fun c => (alike.king c).symm,
    fun id kept => (alike.piece id kept).symm⟩

theorem trans (first : AlikeBut skip x y) (second : AlikeBut skip' y z) :
    AlikeBut (fun id => skip id ∨ skip' id) x z :=
  ⟨fun s => (first.occupant s).trans (second.occupant s),
    fun c => (first.roster c).trans (second.roster c),
    fun c => (first.king c).trans (second.king c),
    fun id kept => (first.piece id fun held => kept (Or.inl held)).trans
      (second.piece id fun held => kept (Or.inr held))⟩

theorem mono (wider : ∀ id, skip id → skip' id) (alike : AlikeBut skip x y) : AlikeBut skip' x y :=
  ⟨alike.occupant, alike.roster, alike.king,
    fun id kept => alike.piece id fun held => kept (wider id held)⟩

theorem of_bare (same : x.bare = y.bare) : AlikeBut skip x y :=
  ⟨occupant_of_bare same, roster_of_bare same, king_of_bare same,
    fun id _ => piece?_of_bare same id⟩

theorem tracks_iff (alike : AlikeBut skip x y) (id : PieceId) : x.Tracks id ↔ y.Tracks id := by
  simp only [Tracks, alike.occupant, alike.roster, alike.king]

theorem piece_bare (alike : AlikeBut skip x y) {id : PieceId} (kept : ¬skip id) :
    (x.piece id).bare = (y.piece id).bare :=
  Piece.bare_getD (alike.piece id kept)

theorem square (alike : AlikeBut skip x y) {id : PieceId} (kept : ¬skip id) :
    (x.piece id).square = (y.piece id).square := by
  rw [← Piece.bare_square, alike.piece_bare kept, Piece.bare_square]

theorem color (alike : AlikeBut skip x y) {id : PieceId} (kept : ¬skip id) :
    (x.piece id).color = (y.piece id).color := by
  rw [← Piece.bare_color, alike.piece_bare kept, Piece.bare_color]

theorem exists_piece? (alike : AlikeBut skip x y) {id : PieceId} (kept : ¬skip id) {p : Piece}
    (found : x.piece? id = some p) : ∃ q, y.piece? id = some q ∧ q.bare = p.bare := by
  have same := alike.piece id kept
  rw [found, Option.map_some] at same
  exact Option.map_eq_some_iff.mp same.symm

theorem toAgree (alike : AlikeBut skip x y) (side : x.side = y.side)
    (enPassant : x.enPassant = y.enPassant) (tracked : ∀ id, x.Tracks id → ¬skip id) :
    Agree x y :=
  ⟨grid_eq_of_occupant alike.occupant, alike.roster, alike.king, side, enPassant,
    fun id held => alike.piece id (tracked id held)⟩

/-! Every edit of taking back keeps boards alike; an edit that reads a piece needs that piece
kept. -/

theorem modifyPiece (alike : AlikeBut skip x y) (id : PieceId) {f : Piece → Piece}
    (respects : Piece.RespectsBare f) : AlikeBut skip (x.modifyPiece id f) (y.modifyPiece id f) := by
  refine ⟨fun s => by simp [alike.occupant s], fun c => by simp [alike.roster c],
    fun c => by simp [alike.king c], fun other kept => ?_⟩
  simp only [piece?_modifyPiece]
  split
  · exact respects.map (alike.piece other kept)
  · exact alike.piece other kept

theorem put (alike : AlikeBut skip x y) (id : PieceId) (s : Square) :
    AlikeBut skip (x.put id s) (y.put id s) := by
  refine ⟨fun t => by simp [alike.occupant t], fun c => by simp [alike.roster c],
    fun c => by simp [alike.king c], fun other kept => ?_⟩
  simp only [piece?_put]
  split
  · exact (Piece.RespectsBare.of_bare fun _ => rfl).map (alike.piece other kept)
  · exact alike.piece other kept

theorem lift (alike : AlikeBut skip x y) {id : PieceId} (kept : ¬skip id) :
    AlikeBut skip (x.lift id) (y.lift id) := by
  have square := alike.square kept
  refine ⟨fun t => by simp [alike.occupant t, square], fun c => by simp [alike.roster c],
    fun c => by simp [alike.king c], fun other kept' => ?_⟩
  simp only [piece?_lift]
  split
  · exact (Piece.RespectsBare.of_bare fun _ => rfl).map (alike.piece other kept')
  · exact alike.piece other kept'

theorem replaceInRoster (alike : AlikeBut skip x y) {old : PieceId} (kept : ¬skip old)
    (new : PieceId) : AlikeBut skip (x.replaceInRoster old new) (y.replaceInRoster old new) := by
  have color := alike.color kept
  refine ⟨fun t => by simp [alike.occupant t], fun c => by simp [alike.roster c, color],
    fun c => by simp [alike.king c], fun other kept' => by simpa using alike.piece other kept'⟩

theorem uncapture (alike : AlikeBut skip x y) (id : PieceId) (s : Square) :
    AlikeBut skip (x.uncapture id s) (y.uncapture id s) :=
  (alike.modifyPiece id (Piece.RespectsBare.of_bare fun _ => rfl)).put id s

end AlikeBut

theorem Coherent.of_alikeBut {skip : PieceId → Prop} {x y : Board} (alike : AlikeBut skip x y)
    (coherent : y.Coherent) (tracked : ∀ id, x.Tracks id → ¬skip id)
    (off : ∀ id p, skip id → x.piece? id = some p → p.square = none) : x.Coherent := by
  have back : ∀ {id q}, x.Tracks id → y.piece? id = some q →
      ∃ p, x.piece? id = some p ∧ p.bare = q.bare := fun t found =>
    alike.symm.exists_piece? (tracked _ t) found
  have kind : ∀ id, x.Tracks id → (x.piece id).kind = (y.piece id).kind := fun id t => by
    rw [← Piece.bare_kind, alike.piece_bare (tracked id t), Piece.bare_kind]
  have occupant_iff : ∀ s id, x.occupant s = some id ↔ ∃ p, x.piece? id = some p ∧
      p.square = some s := by
    intro s id
    constructor
    · intro held
      obtain ⟨q, found, standing⟩ :=
        (coherent.occupant_iff s id).mp (by rw [← alike.occupant]; exact held)
      obtain ⟨p, found', bare⟩ := back (tracks_of_occupant held) found
      exact ⟨p, found', by rw [← Piece.bare_square, bare, Piece.bare_square, standing]⟩
    · rintro ⟨p, found, standing⟩
      by_cases skipped : skip id
      · rw [off id p skipped found] at standing
        cases standing
      obtain ⟨q, found', bare⟩ := alike.exists_piece? skipped found
      rw [alike.occupant]
      exact (coherent.occupant_iff s id).mpr
        ⟨q, found', by rw [← Piece.bare_square, bare, Piece.bare_square, standing]⟩
  refine ⟨occupant_iff, ?standing, ?enrolled, fun c => by rw [alike.roster]; exact coherent.nodup c,
    ?oneKing, ?kingIff⟩
  case standing =>
    intro id p s found standing
    have held := (occupant_iff s id).mpr ⟨p, found, standing⟩
    obtain ⟨q, found', bare⟩ := alike.exists_piece? (tracked id (tracks_of_occupant held)) found
    have stands := coherent.standing id q s found'
      (by rw [← Piece.bare_square, bare, Piece.bare_square, standing])
    rw [alike.roster, ← Piece.bare_captured, ← Piece.bare_color, ← bare]
    exact stands
  case enrolled =>
    intro c id member
    obtain ⟨q, found, color, flag⟩ := coherent.enrolled c id (by rwa [← alike.roster])
    obtain ⟨p, found', bare⟩ := back (tracks_of_roster member) found
    refine ⟨p, found', ?_, ?_⟩
    · rw [← Piece.bare_color, bare, Piece.bare_color, color]
    · rw [← Piece.bare_square, ← Piece.bare_captured, bare, Piece.bare_square,
        Piece.bare_captured, flag]
  case oneKing =>
    intro c id id' member member' isKing isKing'
    rw [kind id (tracks_of_roster member)] at isKing
    rw [kind id' (tracks_of_roster member')] at isKing'
    rw [alike.roster] at member member'
    exact coherent.one_king c id id' member member' isKing isKing'
  case kingIff =>
    intro c id
    constructor
    · intro king
      rw [alike.roster, kind id (tracks_of_king king), ← coherent.king_iff, ← alike.king]
      exact king
    · rintro ⟨member, isKing⟩
      rw [kind id (tracks_of_roster member)] at isKing
      rw [alike.roster] at member
      rw [alike.king]
      exact (coherent.king_iff c id).mpr ⟨member, isKing⟩

end Board

end Chess
