import Chess.Proofs.SquareSet
import Chess.Board.Basic
import Mathlib.Tactic.Simps.Basic

namespace Chess

/-! The primitive edits of a board seen through its four views: the occupant of a square,
the piece with an id, the roster of a colour and the king of a colour. Each edit gets one
lemma per view, so that the proofs about moves and setup never unfold an edit. -/

namespace Board

variable (b : Board)

private theorem get_eq_getElem (cells : Vector (Option PieceId) 64) (i : Fin 64) :
    cells.get i = cells[i.val] := rfl

theorem piece_eq_of_piece? {id : PieceId} {p : Piece} (found : b.piece? id = some p) :
    b.piece id = p := by
  simp [piece, found]

@[simp] theorem occupant_setCell (s t : Square) (v : Option PieceId) :
    (b.setCell s v).occupant t = if t = s then v else b.occupant t := by
  simp only [occupant, setCell, get_eq_getElem]
  by_cases same : t = s
  · subst same
    simp
  · have apart : s.index.val ≠ t.index.val := fun h => same (by
      obtain ⟨i⟩ := s
      obtain ⟨j⟩ := t
      cases Fin.ext h
      rfl)
    simp [same, apart]

@[simp] theorem piece?_setCell (s : Square) (v : Option PieceId) (id : PieceId) :
    (b.setCell s v).piece? id = b.piece? id := rfl

@[simp] theorem roster_setCell (s : Square) (v : Option PieceId) (c : Color) :
    (b.setCell s v).roster c = b.roster c := by
  cases c <;> rfl

@[simp] theorem king_setCell (s : Square) (v : Option PieceId) (c : Color) :
    (b.setCell s v).king c = b.king c := by
  cases c <;> rfl

@[simp] theorem occupant_modifyPiece (id : PieceId) (f : Piece → Piece) (s : Square) :
    (b.modifyPiece id f).occupant s = b.occupant s := rfl

@[simp] theorem piece?_modifyPiece (id other : PieceId) (f : Piece → Piece) :
    (b.modifyPiece id f).piece? other =
      if other = id then (b.piece? other).map f else b.piece? other := by
  simp only [piece?, modifyPiece, Array.getElem?_modify]
  by_cases same : other = id
  · subst same
    simp
  · have apart : id.index ≠ other.index := fun h => same (by
      obtain ⟨i⟩ := id
      obtain ⟨j⟩ := other
      cases h
      rfl)
    simp [same, apart]

theorem kind_piece_modifyPiece (id x : PieceId) (f : Piece → Piece)
    (keeps : ∀ p, (f p).kind = p.kind) : ((b.modifyPiece id f).piece x).kind = (b.piece x).kind := by
  simp only [piece, piece?_modifyPiece]
  split <;> cases b.piece? x <;> simp [keeps]

theorem color_piece_modifyPiece (id x : PieceId) (f : Piece → Piece)
    (keeps : ∀ p, (f p).color = p.color) :
    ((b.modifyPiece id f).piece x).color = (b.piece x).color := by
  simp only [piece, piece?_modifyPiece]
  split <;> cases b.piece? x <;> simp [keeps]

@[simp] theorem roster_modifyPiece (id : PieceId) (f : Piece → Piece) (c : Color) :
    (b.modifyPiece id f).roster c = b.roster c := by
  cases c <;> rfl

@[simp] theorem king_modifyPiece (id : PieceId) (f : Piece → Piece) (c : Color) :
    (b.modifyPiece id f).king c = b.king c := by
  cases c <;> rfl

@[simp] theorem size_modifyPiece (id : PieceId) (f : Piece → Piece) :
    (b.modifyPiece id f).pieces.size = b.pieces.size := by
  simp [modifyPiece]

@[simp] theorem occupant_modifyRoster (c : Color) (f : Array PieceId → Array PieceId) (s : Square) :
    (b.modifyRoster c f).occupant s = b.occupant s := by
  cases c <;> rfl

@[simp] theorem piece?_modifyRoster (c : Color) (f : Array PieceId → Array PieceId) (id : PieceId) :
    (b.modifyRoster c f).piece? id = b.piece? id := by
  cases c <;> rfl

@[simp] theorem roster_modifyRoster (c c' : Color) (f : Array PieceId → Array PieceId) :
    (b.modifyRoster c f).roster c' = if c' = c then f (b.roster c) else b.roster c' := by
  cases c <;> cases c' <;> rfl

@[simp] theorem king_modifyRoster (c c' : Color) (f : Array PieceId → Array PieceId) :
    (b.modifyRoster c f).king c' = b.king c' := by
  cases c <;> cases c' <;> rfl

@[simp] theorem size_modifyRoster (c : Color) (f : Array PieceId → Array PieceId) :
    (b.modifyRoster c f).pieces.size = b.pieces.size := by
  cases c <;> rfl

@[simp] theorem occupant_setKing (c : Color) (k : Option PieceId) (s : Square) :
    (b.setKing c k).occupant s = b.occupant s := by
  cases c <;> rfl

@[simp] theorem piece?_setKing (c : Color) (k : Option PieceId) (id : PieceId) :
    (b.setKing c k).piece? id = b.piece? id := by
  cases c <;> rfl

@[simp] theorem roster_setKing (c c' : Color) (k : Option PieceId) :
    (b.setKing c k).roster c' = b.roster c' := by
  cases c <;> cases c' <;> rfl

@[simp] theorem king_setKing (c c' : Color) (k : Option PieceId) :
    (b.setKing c k).king c' = if c' = c then k else b.king c' := by
  cases c <;> cases c' <;> rfl

@[simp] theorem size_setKing (c : Color) (k : Option PieceId) :
    (b.setKing c k).pieces.size = b.pieces.size := by
  cases c <;> rfl

/-! ### Composite edits -/

@[simp] theorem occupant_lift (id : PieceId) (t : Square) :
    (b.lift id).occupant t =
      if (b.piece id).square = some t ∧ b.occupant t = some id then none else b.occupant t := by
  unfold lift
  cases standing : (b.piece id).square with
  | none => simp
  | some s =>
      by_cases held : b.occupant s = some id
      · by_cases here : t = s
        · subst here
          simp [held]
        · simp [held, here, Ne.symm here]
      · by_cases here : t = s
        · subst here
          simp [held]
        · simp [held, Ne.symm here]

@[simp] theorem piece?_lift (id other : PieceId) :
    (b.lift id).piece? other =
      if other = id then (b.piece? other).map ({ · with square := none }) else b.piece? other := by
  cases standing : (b.piece id).square with
  | none =>
      simp only [lift, standing]
      by_cases same : other = id
      · subst same
        cases found : b.piece? other with
        | none => simp
        | some p =>
            have vacant : p.square = none := by
              rw [← piece_eq_of_piece? b found]
              exact standing
            cases p
            simp_all
      · simp [same]
  | some s =>
      simp only [lift, standing]
      split <;> simp

@[simp] theorem square_piece_lift (id : PieceId) : ((b.lift id).piece id).square = none := by
  simp only [piece, piece?_lift, if_true]
  cases b.piece? id <;> rfl

@[simp] theorem kind_piece_lift (id x : PieceId) : ((b.lift id).piece x).kind = (b.piece x).kind := by
  simp only [piece, piece?_lift]
  split <;> cases b.piece? x <;> rfl

@[simp] theorem color_piece_lift (id x : PieceId) :
    ((b.lift id).piece x).color = (b.piece x).color := by
  simp only [piece, piece?_lift]
  split <;> cases b.piece? x <;> rfl

theorem piece_lift_of_ne {id other : PieceId} (apart : other ≠ id) :
    (b.lift id).piece other = b.piece other := by
  simp [piece, apart]

@[simp] theorem roster_lift (id : PieceId) (c : Color) : (b.lift id).roster c = b.roster c := by
  unfold lift
  split
  · dsimp only
    split <;> simp
  · rfl

@[simp] theorem king_lift (id : PieceId) (c : Color) : (b.lift id).king c = b.king c := by
  unfold lift
  split
  · dsimp only
    split <;> simp
  · rfl

@[simp] theorem size_lift (id : PieceId) : (b.lift id).pieces.size = b.pieces.size := by
  unfold lift
  split
  · dsimp only
    split <;> simp [setCell]
  · rfl

@[simp] theorem occupant_put (id : PieceId) (s t : Square) :
    (b.put id s).occupant t = if t = s then some id else b.occupant t := by
  simp [put]

@[simp] theorem piece?_put (id other : PieceId) (s : Square) :
    (b.put id s).piece? other =
      if other = id then (b.piece? other).map ({ · with square := some s }) else b.piece? other := by
  simp [put]

theorem piece_put_of_ne {id other : PieceId} (s : Square) (apart : other ≠ id) :
    (b.put id s).piece other = b.piece other := by
  simp [piece, apart]

@[simp] theorem kind_piece_put (id x : PieceId) (s : Square) :
    ((b.put id s).piece x).kind = (b.piece x).kind := by
  simp only [piece, piece?_put]
  split <;> cases b.piece? x <;> rfl

@[simp] theorem color_piece_put (id x : PieceId) (s : Square) :
    ((b.put id s).piece x).color = (b.piece x).color := by
  simp only [piece, piece?_put]
  split <;> cases b.piece? x <;> rfl

@[simp] theorem roster_put (id : PieceId) (s : Square) (c : Color) :
    (b.put id s).roster c = b.roster c := by
  simp [put]

@[simp] theorem king_put (id : PieceId) (s : Square) (c : Color) :
    (b.put id s).king c = b.king c := by
  simp [put]

@[simp] theorem size_put (id : PieceId) (s : Square) : (b.put id s).pieces.size = b.pieces.size := by
  simp [put, setCell]

theorem occupant_capture (id : PieceId) (t : Square) :
    (b.capture id).occupant t = (b.lift id).occupant t := rfl

@[simp] theorem piece?_capture (id other : PieceId) :
    (b.capture id).piece? other =
      if other = id then (b.piece? other).map ({ · with square := none, captured := true })
      else b.piece? other := by
  unfold capture
  by_cases same : other = id
  · subst same
    cases found : b.piece? other <;> simp [found]
  · simp [same]

@[simp] theorem roster_capture (id : PieceId) (c : Color) :
    (b.capture id).roster c = b.roster c := by
  simp [capture]

@[simp] theorem king_capture (id : PieceId) (c : Color) : (b.capture id).king c = b.king c := by
  simp [capture]

@[simp] theorem size_capture (id : PieceId) : (b.capture id).pieces.size = b.pieces.size := by
  simp [capture]

@[simp] theorem occupant_uncapture (id : PieceId) (s t : Square) :
    (b.uncapture id s).occupant t = if t = s then some id else b.occupant t := by
  simp [uncapture]

@[simp] theorem piece?_uncapture (id other : PieceId) (s : Square) :
    (b.uncapture id s).piece? other =
      if other = id then (b.piece? other).map ({ · with captured := false, square := some s })
      else b.piece? other := by
  unfold uncapture
  by_cases same : other = id
  · subst same
    cases found : b.piece? other <;> simp [found]
  · simp [same]

@[simp] theorem roster_uncapture (id : PieceId) (s : Square) (c : Color) :
    (b.uncapture id s).roster c = b.roster c := by
  simp [uncapture]

@[simp] theorem king_uncapture (id : PieceId) (s : Square) (c : Color) :
    (b.uncapture id s).king c = b.king c := by
  simp [uncapture]

@[simp] theorem size_uncapture (id : PieceId) (s : Square) :
    (b.uncapture id s).pieces.size = b.pieces.size := by
  simp [uncapture]

@[simp] theorem occupant_replaceInRoster (old new : PieceId) (s : Square) :
    (b.replaceInRoster old new).occupant s = b.occupant s := by
  simp [replaceInRoster]

@[simp] theorem piece?_replaceInRoster (old new id : PieceId) :
    (b.replaceInRoster old new).piece? id = b.piece? id := by
  simp [replaceInRoster]

@[simp] theorem piece_replaceInRoster (old new id : PieceId) :
    (b.replaceInRoster old new).piece id = b.piece id := by
  simp [piece]

@[simp] theorem roster_replaceInRoster (old new : PieceId) (c : Color) :
    (b.replaceInRoster old new).roster c =
      if c = (b.piece old).color then (b.roster c).map (fun x => if x = old then new else x)
      else b.roster c := by
  simp only [replaceInRoster, roster_modifyRoster]
  split <;> simp_all

theorem mem_replace {roster : Array PieceId} {old new x : PieceId} :
    x ∈ roster.map (fun y => if y = old then new else y) ↔
      (x = new ∧ old ∈ roster) ∨ (x ≠ old ∧ x ∈ roster) := by
  simp only [Array.mem_map]
  constructor
  · rintro ⟨y, member, rfl⟩
    by_cases same : y = old
    · subst same
      simp [member]
    · simp [same, member]
  · rintro (⟨rfl, member⟩ | ⟨apart, member⟩)
    · exact ⟨old, member, by simp⟩
    · exact ⟨x, member, by simp [apart]⟩

theorem replaceInRoster_modifyPiece (old new id : PieceId) (f : Piece → Piece)
    (keeps : ∀ p, (f p).color = p.color) :
    (b.modifyPiece id f).replaceInRoster old new = (b.replaceInRoster old new).modifyPiece id f := by
  unfold replaceInRoster
  rw [color_piece_modifyPiece b id old f keeps]
  cases (b.piece old).color <;> rfl

@[simp] theorem king_replaceInRoster (old new : PieceId) (c : Color) :
    (b.replaceInRoster old new).king c = b.king c := by
  simp [replaceInRoster]

@[simp] theorem size_replaceInRoster (old new : PieceId) :
    (b.replaceInRoster old new).pieces.size = b.pieces.size := by
  simp [replaceInRoster]

@[simp] theorem id_createPiece (kind : PieceKind) (color : Color) :
    (b.createPiece kind color).2 = ⟨b.pieces.size⟩ := rfl

@[simp] theorem occupant_createPiece (kind : PieceKind) (color : Color) (s : Square) :
    (b.createPiece kind color).1.occupant s = b.occupant s := rfl

@[simp] theorem piece?_createPiece (kind : PieceKind) (color : Color) (id : PieceId) :
    (b.createPiece kind color).1.piece? id =
      if id.index = b.pieces.size then some { kind, color } else b.piece? id := by
  simp only [createPiece, piece?, Array.getElem?_push]

@[simp] theorem roster_createPiece (kind : PieceKind) (color : Color) (c : Color) :
    (b.createPiece kind color).1.roster c = b.roster c := by
  cases c <;> rfl

@[simp] theorem king_createPiece (kind : PieceKind) (color : Color) (c : Color) :
    (b.createPiece kind color).1.king c = b.king c := by
  cases c <;> rfl

@[simp] theorem size_createPiece (kind : PieceKind) (color : Color) :
    (b.createPiece kind color).1.pieces.size = b.pieces.size + 1 := by
  simp [createPiece]

@[simp] theorem id_spawn (kind : PieceKind) (color : Color) (s : Square) :
    (b.spawn kind color s).2 = ⟨b.pieces.size⟩ := rfl

@[simp] theorem occupant_spawn (kind : PieceKind) (color : Color) (s t : Square) :
    (b.spawn kind color s).1.occupant t = if t = s then some ⟨b.pieces.size⟩ else b.occupant t := by
  simp only [spawn]
  split <;> simp

@[simp] theorem piece?_spawn (kind : PieceKind) (color : Color) (s : Square) (id : PieceId) :
    (b.spawn kind color s).1.piece? id =
      if id.index = b.pieces.size then some { kind, color, square := some s } else b.piece? id := by
  simp only [spawn]
  by_cases fresh : id.index = b.pieces.size
  · have : id = ⟨b.pieces.size⟩ := by
      obtain ⟨i⟩ := id
      simp only at fresh
      rw [fresh]
    subst this
    split <;> simp
  · have : id ≠ ⟨b.pieces.size⟩ := fun h => fresh (by rw [h])
    split <;> simp [fresh, this]

@[simp] theorem roster_spawn (kind : PieceKind) (color : Color) (s : Square) (c : Color) :
    (b.spawn kind color s).1.roster c =
      if c = color then (b.roster c).push ⟨b.pieces.size⟩ else b.roster c := by
  simp only [spawn]
  split <;> split <;> simp_all

@[simp] theorem king_spawn (kind : PieceKind) (color : Color) (s : Square) (c : Color) :
    (b.spawn kind color s).1.king c =
      if c = color ∧ kind = .king then some ⟨b.pieces.size⟩ else b.king c := by
  simp only [spawn]
  split <;> simp_all

@[simp] theorem size_spawn (kind : PieceKind) (color : Color) (s : Square) :
    (b.spawn kind color s).1.pieces.size = b.pieces.size + 1 := by
  simp only [spawn]
  split <;> simp

/-! ### What the edits leave alone

The edits change the grid, the arena, the rosters and the kings; the board's record of the
game stays. -/

/-- The board's record of the game: everything but the grid, the arena, the rosters and the
kings. -/
@[simps] def record (b : Board) : Board :=
  { lineage := b.lineage, side := b.side, enPassant := b.enPassant, halfmove := b.halfmove,
    fullmove := b.fullmove, played := b.played, started := b.started, status := b.status }

@[simp] theorem record_modifyPiece (id : PieceId) (f : Piece → Piece) :
    (b.modifyPiece id f).record = b.record := rfl

@[simp] theorem record_setCell (s : Square) (v : Option PieceId) :
    (b.setCell s v).record = b.record := rfl

@[simp] theorem record_createPiece (kind : PieceKind) (color : Color) :
    (b.createPiece kind color).1.record = b.record := rfl

@[simp] theorem record_lift (id : PieceId) : (b.lift id).record = b.record := by
  unfold lift
  split
  · dsimp only
    split <;> rfl
  · rfl

@[simp] theorem record_replaceInRoster (old new : PieceId) :
    (b.replaceInRoster old new).record = b.record := by
  unfold replaceInRoster modifyRoster
  split <;> rfl

end Board

end Chess
