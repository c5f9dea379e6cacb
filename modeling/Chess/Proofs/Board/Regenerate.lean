import Chess.Proofs.Board.Edit
import Chess.Board.Status

namespace Chess

/-! What regeneration changes. Regeneration rewrites the reach sets every piece carries and
the status of the side to move, and nothing else: the bare board, with those caches
cleared, is the same before and after. -/

def Piece.bare (p : Piece) : Piece :=
  { p with targets := SquareSet.empty, guards := SquareSet.empty, quiet := SquareSet.empty,
           castleTargets := SquareSet.empty }

namespace Piece

@[simp] theorem bare_kind (p : Piece) : p.bare.kind = p.kind := rfl
@[simp] theorem bare_color (p : Piece) : p.bare.color = p.color := rfl
@[simp] theorem bare_captured (p : Piece) : p.bare.captured = p.captured := rfl
@[simp] theorem bare_moveCount (p : Piece) : p.bare.moveCount = p.moveCount := rfl
@[simp] theorem bare_square (p : Piece) : p.bare.square = p.square := rfl

@[simp] theorem targets_default : (default : Piece).targets = SquareSet.empty := rfl

theorem bare_eq_iff (p q : Piece) :
    p.bare = q.bare ↔ p.kind = q.kind ∧ p.color = q.color ∧ p.captured = q.captured ∧
      p.moveCount = q.moveCount ∧ p.square = q.square := by
  cases p
  cases q
  simp [bare]

theorem bare_getD {o o' : Option Piece} (same : o.map bare = o'.map bare) :
    (o.getD default).bare = (o'.getD default).bare := by
  cases o <;> cases o' <;> simp_all

end Piece

namespace Board

def bare (b : Board) : Board := { b with pieces := b.pieces.map Piece.bare, status := {} }

theorem bare_modifyPiece (b : Board) (id : PieceId) {f : Piece → Piece}
    (keeps : ∀ p, (f p).bare = p.bare) : (b.modifyPiece id f).bare = b.bare := by
  simp only [bare, modifyPiece, Board.mk.injEq, and_true, true_and]
  apply Array.ext
  · simp
  · intro i inModified inOriginal
    simp only [Array.getElem_map, Array.getElem_modify]
    split <;> simp [keeps]

theorem bare_setStatus (b : Board) (st : Status) : { b with status := st }.bare = b.bare := rfl

section SameBare

variable {x y : Board} (same : x.bare = y.bare)
include same

theorem occupant_of_bare (s : Square) : x.occupant s = y.occupant s := by
  have := congrArg Board.grid same
  simp only [bare] at this
  simp [occupant, this]

theorem roster_of_bare (c : Color) : x.roster c = y.roster c := by
  have white := congrArg Board.whiteRoster same
  have black := congrArg Board.blackRoster same
  cases c
  · exact white
  · exact black

theorem king_of_bare (c : Color) : x.king c = y.king c := by
  have white := congrArg Board.whiteKing same
  have black := congrArg Board.blackKing same
  cases c
  · exact white
  · exact black

theorem side_of_bare : x.side = y.side := congrArg (·.side) same

theorem enPassant_of_bare : x.enPassant = y.enPassant := congrArg (·.enPassant) same

theorem piece?_of_bare (id : PieceId) :
    (x.piece? id).map Piece.bare = (y.piece? id).map Piece.bare := by
  have := congrArg (fun b => b.pieces[id.index]?) same
  simpa [bare, piece?] using this

theorem piece_bare_of_bare (id : PieceId) : (x.piece id).bare = (y.piece id).bare :=
  Piece.bare_getD (piece?_of_bare same id)

end SameBare

theorem bare_foldl {α : Type} (step : Board → α → Board)
    (keeps : ∀ b a, (step b a).bare = b.bare) : ∀ (items : List α) (b : Board),
      (items.foldl step b).bare = b.bare
  | [], _ => rfl
  | a :: rest, b => by
      rw [List.foldl_cons, bare_foldl step keeps rest, keeps]

theorem bare_foldl_array {α : Type} (step : Board → α → Board)
    (keeps : ∀ b a, (step b a).bare = b.bare) (items : Array α) (b : Board) :
    (items.foldl step b).bare = b.bare := by
  rw [← Array.foldl_toList]
  exact bare_foldl step keeps items.toList b

theorem bare_withRawReach (b : Board) : b.withRawReach.bare = b.bare := by
  simp only [bare, withRawReach, Board.mk.injEq, and_true, true_and]
  apply Array.ext
  · simp
  · intro i _ _
    simp [Piece.bare]

theorem bare_keepKingSafe (b : Board) (king : PieceId) (them : Color) :
    (b.keepKingSafe king them).bare = b.bare :=
  bare_modifyPiece b king fun _ => rfl

theorem bare_restrictPins (b : Board) (kingSq : Square) (them : Color) :
    (b.restrictPins kingSq them).bare = b.bare := by
  unfold restrictPins
  apply bare_foldl_array
  intro b enemy
  dsimp only
  split
  · split
    · rfl
    · split
      · split
        · exact bare_modifyPiece _ _ fun _ => rfl
        · rfl
      · rfl
  · rfl

theorem bare_restrictToCheckResolutions (b : Board) (king : PieceId) (kingSq checker : Square) :
    (b.restrictToCheckResolutions king kingSq checker).bare = b.bare := by
  unfold restrictToCheckResolutions
  apply bare_foldl_array
  intro b id
  dsimp only
  split
  · split
    · rfl
    · exact bare_modifyPiece _ _ fun _ => rfl
  · rfl

theorem bare_freezeAllBut (b : Board) (king : PieceId) : (b.freezeAllBut king).bare = b.bare := by
  unfold freezeAllBut
  apply bare_foldl_array
  intro b id
  split
  · rfl
  · exact bare_modifyPiece _ _ fun _ => rfl

theorem bare_dropExposingEnPassant (b : Board) (kingSq : Square) :
    (b.dropExposingEnPassant kingSq).bare = b.bare := by
  unfold dropExposingEnPassant
  apply bare_foldl_array
  intro b id
  dsimp only
  split
  · split
    · rfl
    · exact bare_modifyPiece _ _ fun _ => rfl
  · rfl

theorem bare_addCastles (b : Board) (king : PieceId) : (b.addCastles king).bare = b.bare := by
  unfold addCastles
  apply bare_foldl
  intro b side
  dsimp only
  split
  · split
    · rw [bare_modifyPiece]
      · split <;> rfl
      · intro p
        rfl
    · rfl
  · rfl

theorem regenerate_induction (motive : Board → Prop) (b : Board)
    (raw : motive { b.withRawReach with status := {} })
    (status : ∀ x (st : Status), motive x → motive { x with status := st })
    (kingSafe : ∀ x king them, motive x → motive (x.keepKingSafe king them))
    (pins : ∀ x kingSq them, motive x → motive (x.restrictPins kingSq them))
    (resolutions : ∀ x king kingSq checker, motive x →
      motive (x.restrictToCheckResolutions king kingSq checker))
    (freeze : ∀ x king, motive x → motive (x.freezeAllBut king))
    (enPassant : ∀ x kingSq, motive x → motive (x.dropExposingEnPassant kingSq))
    (castles : ∀ x king, b.king b.side = some king → motive x → motive (x.addCastles king)) :
    motive b.regenerate := by
  unfold regenerate
  dsimp only
  split
  · exact status { b.withRawReach with status := {} } _ raw
  · rename_i king found
    split
    · exact status { b.withRawReach with status := {} } _ raw
    · apply status
      split
      · apply castles _ king found
        apply enPassant
        split
        · apply status
          exact pins _ _ _ (kingSafe _ _ _ raw)
        · apply resolutions
          apply status
          exact pins _ _ _ (kingSafe _ _ _ raw)
        · apply freeze
          apply status
          exact pins _ _ _ (kingSafe _ _ _ raw)
      · apply enPassant
        split
        · apply status
          exact pins _ _ _ (kingSafe _ _ _ raw)
        · apply resolutions
          apply status
          exact pins _ _ _ (kingSafe _ _ _ raw)
        · apply freeze
          apply status
          exact pins _ _ _ (kingSafe _ _ _ raw)

theorem bare_regenerate (b : Board) : b.regenerate.bare = b.bare := by
  apply regenerate_induction (fun x => x.bare = b.bare) b
  · rw [bare_setStatus, bare_withRawReach]
  · intro x st same
    rw [bare_setStatus, same]
  · intro x king them same
    rw [bare_keepKingSafe, same]
  · intro x kingSq them same
    rw [bare_restrictPins, same]
  · intro x king kingSq checker same
    rw [bare_restrictToCheckResolutions, same]
  · intro x king same
    rw [bare_freezeAllBut, same]
  · intro x kingSq same
    rw [bare_dropExposingEnPassant, same]
  · intro x king _ same
    rw [bare_addCastles, same]

section Views

variable (b : Board)

@[simp] theorem occupant_regenerate (s : Square) : b.regenerate.occupant s = b.occupant s :=
  occupant_of_bare (bare_regenerate b) s

@[simp] theorem roster_regenerate (c : Color) : b.regenerate.roster c = b.roster c :=
  roster_of_bare (bare_regenerate b) c

@[simp] theorem king_regenerate (c : Color) : b.regenerate.king c = b.king c :=
  king_of_bare (bare_regenerate b) c

@[simp] theorem side_regenerate : b.regenerate.side = b.side :=
  side_of_bare (bare_regenerate b)

@[simp] theorem enPassant_regenerate : b.regenerate.enPassant = b.enPassant :=
  enPassant_of_bare (bare_regenerate b)

@[simp] theorem halfmove_regenerate : b.regenerate.halfmove = b.halfmove :=
  congrArg (·.halfmove) (bare_regenerate b)

@[simp] theorem fullmove_regenerate : b.regenerate.fullmove = b.fullmove :=
  congrArg (·.fullmove) (bare_regenerate b)

@[simp] theorem played_regenerate : b.regenerate.played = b.played :=
  congrArg (·.played) (bare_regenerate b)

@[simp] theorem started_regenerate : b.regenerate.started = b.started :=
  congrArg (·.started) (bare_regenerate b)

@[simp] theorem lineage_regenerate : b.regenerate.lineage = b.lineage :=
  congrArg (·.lineage) (bare_regenerate b)

@[simp] theorem size_regenerate : b.regenerate.pieces.size = b.pieces.size := by
  simpa [bare] using congrArg (·.pieces.size) (bare_regenerate b)

@[simp] theorem bare_piece_regenerate (id : PieceId) :
    (b.regenerate.piece id).bare = (b.piece id).bare :=
  piece_bare_of_bare (bare_regenerate b) id

@[simp] theorem kind_piece_regenerate (id : PieceId) :
    (b.regenerate.piece id).kind = (b.piece id).kind := by
  rw [← Piece.bare_kind, bare_piece_regenerate, Piece.bare_kind]

@[simp] theorem color_piece_regenerate (id : PieceId) :
    (b.regenerate.piece id).color = (b.piece id).color := by
  rw [← Piece.bare_color, bare_piece_regenerate, Piece.bare_color]

@[simp] theorem square_piece_regenerate (id : PieceId) :
    (b.regenerate.piece id).square = (b.piece id).square := by
  rw [← Piece.bare_square, bare_piece_regenerate, Piece.bare_square]

@[simp] theorem moveCount_piece_regenerate (id : PieceId) :
    (b.regenerate.piece id).moveCount = (b.piece id).moveCount := by
  rw [← Piece.bare_moveCount, bare_piece_regenerate, Piece.bare_moveCount]

end Views

end Board

end Chess
