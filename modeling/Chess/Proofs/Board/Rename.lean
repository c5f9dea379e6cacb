import Chess.Proofs.Board.Alike

namespace Chess

namespace Board

/-! Boards alike up to the names of their pieces. Two boards that reach one position along
different paths may hold its pieces under different ids: a board that promoted on another
path first keeps the piece it made then in its arena, and its next promotion makes a piece of
another id. `Renames σ x y` says that `y` places the pieces as `x` does once every id `x`
tracks is renamed by `σ`. Every edit of playing keeps the relation when the two boards edit
pieces that correspond, and a promotion that brings in a piece on each board extends the
renaming by that pair. -/

/-- `y` places its pieces as `x` does, each id `x` tracks renamed by `σ`: the renamed
occupants, rosters and kings, the same piece up to reach sets, and no two tracked ids renamed
alike. -/
structure Renames (σ : PieceId → PieceId) (x y : Board) : Prop where
  occupant : ∀ s, y.occupant s = (x.occupant s).map σ
  roster : ∀ c, y.roster c = (x.roster c).map σ
  king : ∀ c, y.king c = (x.king c).map σ
  piece : ∀ id, x.Tracks id → (x.piece? id).map Piece.bare = (y.piece? (σ id)).map Piece.bare
  injective : ∀ a b, x.Tracks a → x.Tracks b → σ a = σ b → a = b

theorem Agree.renames {x y : Board} (agree : Agree x y) : Renames id x y :=
  ⟨fun s => by simp [agree.occupant s], fun c => by simp [agree.roster c],
    fun c => by simp [agree.king c], fun id tracked => agree.piece id tracked,
    fun _ _ _ _ same => same⟩

theorem tracks_put {x : Board} {id a : PieceId} {s : Square} (tracked : (x.put id s).Tracks a) :
    a = id ∨ x.Tracks a := by
  rcases tracked with ⟨t, held⟩ | ⟨c, member⟩ | ⟨c, king⟩
  · rw [occupant_put] at held
    split at held
    · exact Or.inl (Option.some.inj held).symm
    · exact Or.inr (tracks_of_occupant held)
  · exact Or.inr (tracks_of_roster (by simpa using member))
  · exact Or.inr (tracks_of_king (by simpa using king))

theorem tracks_lift {x : Board} {id a : PieceId} (tracked : (x.lift id).Tracks a) : x.Tracks a := by
  rcases tracked with ⟨t, held⟩ | ⟨c, member⟩ | ⟨c, king⟩
  · rw [occupant_lift] at held
    split at held
    · cases held
    · exact tracks_of_occupant held
  · exact tracks_of_roster (by simpa using member)
  · exact tracks_of_king (by simpa using king)

theorem Coherent.lt_size_of_tracks {x : Board} (coherent : x.Coherent) {id : PieceId}
    (tracked : x.Tracks id) : id.index < x.pieces.size := by
  rcases tracked with ⟨s, held⟩ | ⟨c, member⟩ | ⟨c, king⟩
  · exact coherent.lt_size_of_occupant held
  · exact coherent.lt_size_of_roster member
  · exact coherent.lt_size_of_roster ((coherent.king_iff c id).mp king).1

theorem Coherent.not_tracks_of_free {x : Board} (coherent : x.Coherent) {q : PieceId} {r : Piece}
    (found : x.piece? q = some r) (off : r.square = none) (outside : q ∉ x.roster r.color) :
    ¬x.Tracks q := by
  intro tracked
  have listed : ∃ c, q ∈ x.roster c := by
    rcases tracked with ⟨s, held⟩ | listed | ⟨c, king⟩
    · obtain ⟨p, found', standing⟩ := coherent.piece?_of_occupant held
      rw [found, Option.some.injEq] at found'
      rw [← found', off] at standing
      cases standing
    · exact listed
    · exact ⟨c, ((coherent.king_iff c q).mp king).1⟩
  obtain ⟨c, member⟩ := listed
  obtain ⟨p, found', color, -⟩ := coherent.enrolled c q member
  rw [found, Option.some.injEq] at found'
  subst found'
  exact outside (color ▸ member)

namespace Renames

variable {σ τ : PieceId → PieceId} {x y z : Board}

theorem tracks (ren : Renames σ x y) {id : PieceId} (tracked : x.Tracks id) : y.Tracks (σ id) := by
  rcases tracked with ⟨s, held⟩ | ⟨c, member⟩ | ⟨c, king⟩
  · exact tracks_of_occupant (s := s) (by rw [ren.occupant, held, Option.map_some])
  · exact tracks_of_roster (c := c) (by rw [ren.roster]; exact Array.mem_map_of_mem member)
  · exact tracks_of_king (c := c) (by rw [ren.king, king, Option.map_some])

theorem apart (ren : Renames σ x y) {id : PieceId} (tracked : x.Tracks id) :
    ∀ a, x.Tracks a → σ a = σ id → a = id :=
  fun a trackedA same => ren.injective a id trackedA tracked same

theorem piece_bare (ren : Renames σ x y) {id : PieceId} (tracked : x.Tracks id) :
    (x.piece id).bare = (y.piece (σ id)).bare :=
  Piece.bare_getD (ren.piece id tracked)

theorem kind (ren : Renames σ x y) {id : PieceId} (tracked : x.Tracks id) :
    (x.piece id).kind = (y.piece (σ id)).kind := by
  rw [← Piece.bare_kind, ren.piece_bare tracked, Piece.bare_kind]

theorem color (ren : Renames σ x y) {id : PieceId} (tracked : x.Tracks id) :
    (x.piece id).color = (y.piece (σ id)).color := by
  rw [← Piece.bare_color, ren.piece_bare tracked, Piece.bare_color]

theorem square (ren : Renames σ x y) {id : PieceId} (tracked : x.Tracks id) :
    (x.piece id).square = (y.piece (σ id)).square := by
  rw [← Piece.bare_square, ren.piece_bare tracked, Piece.bare_square]

theorem captured (ren : Renames σ x y) {id : PieceId} (tracked : x.Tracks id) :
    (x.piece id).captured = (y.piece (σ id)).captured := by
  rw [← Piece.bare_captured, ren.piece_bare tracked, Piece.bare_captured]

theorem moveCount (ren : Renames σ x y) {id : PieceId} (tracked : x.Tracks id) :
    (x.piece id).moveCount = (y.piece (σ id)).moveCount := by
  rw [← Piece.bare_moveCount, ren.piece_bare tracked, Piece.bare_moveCount]

theorem occupant_eq_some_iff (ren : Renames σ x y) {id : PieceId} (tracked : x.Tracks id)
    (s : Square) : y.occupant s = some (σ id) ↔ x.occupant s = some id := by
  rw [ren.occupant]
  constructor
  · intro held
    obtain ⟨a, found, same⟩ := Option.map_eq_some_iff.mp held
    rw [ren.injective a id (tracks_of_occupant found) tracked same] at found
    exact found
  · intro held
    rw [held, Option.map_some]

theorem comp (first : Renames σ x y) (second : Renames τ y z) : Renames (τ ∘ σ) x z := by
  refine ⟨fun s => by rw [second.occupant, first.occupant, Option.map_map],
    fun c => by rw [second.roster, first.roster, Array.map_map],
    fun c => by rw [second.king, first.king, Option.map_map], fun id tracked => ?_,
    fun a b trackedA trackedB same => ?_⟩
  · exact (first.piece id tracked).trans (second.piece (σ id) (first.tracks tracked))
  · exact first.injective a b trackedA trackedB
      (second.injective _ _ (first.tracks trackedA) (first.tracks trackedB) same)

theorem of_bare (ren : Renames σ x y) {x' y' : Board} (sameX : x'.bare = x.bare)
    (sameY : y'.bare = y.bare) : Renames σ x' y' :=
  (Agree.of_bare sameX).renames.comp (ren.comp (Agree.of_bare sameY.symm).renames)

theorem update (ren : Renames σ x y) {q : PieceId} (untracked : ¬x.Tracks q) (q' : PieceId) :
    Renames (Function.update σ q q') x y := by
  have keep : ∀ id, x.Tracks id → Function.update σ q q' id = σ id := fun id tracked =>
    Function.update_of_ne (fun same : id = q => untracked (same ▸ tracked)) _ _
  refine ⟨fun s => ?_, fun c => ?_, fun c => ?_, fun id tracked => ?_,
    fun a b trackedA trackedB same => ?_⟩
  · rw [ren.occupant]
    cases held : x.occupant s with
    | none => rfl
    | some id => simp [keep id (tracks_of_occupant held)]
  · rw [ren.roster]
    exact Array.map_congr_left fun id member => (keep id (tracks_of_roster member)).symm
  · rw [ren.king]
    cases held : x.king c with
    | none => rfl
    | some id => simp [keep id (tracks_of_king held)]
  · rw [keep id tracked]
    exact ren.piece id tracked
  · rw [keep a trackedA, keep b trackedB] at same
    exact ren.injective a b trackedA trackedB same

theorem of_views (ren : Renames σ x y) {x' y' : Board} (occupantX : ∀ s, x'.occupant s = x.occupant s)
    (rosterX : ∀ c, x'.roster c = x.roster c) (kingX : ∀ c, x'.king c = x.king c)
    (pieceX : ∀ id, x'.piece? id = x.piece? id) (occupantY : ∀ s, y'.occupant s = y.occupant s)
    (rosterY : ∀ c, y'.roster c = y.roster c) (kingY : ∀ c, y'.king c = y.king c)
    (pieceY : ∀ id, y'.piece? id = y.piece? id) : Renames σ x' y' := by
  have tracks : ∀ id, x'.Tracks id ↔ x.Tracks id := fun id => by
    simp only [Tracks, occupantX, rosterX, kingX]
  refine ⟨fun s => by rw [occupantY, occupantX, ren.occupant], fun c => by
    rw [rosterY, rosterX, ren.roster], fun c => by rw [kingY, kingX, ren.king],
    fun id tracked => by rw [pieceX, pieceY]; exact ren.piece id ((tracks id).mp tracked),
    fun a b trackedA trackedB => ren.injective a b ((tracks a).mp trackedA) ((tracks b).mp trackedB)⟩

/-! Every edit of playing keeps the renaming when the two boards edit corresponding pieces. An
edit of a piece the first board may not track needs its renaming apart from every tracked
one. -/

theorem modifyPiece (ren : Renames σ x y) {id : PieceId}
    (apart : ∀ a, x.Tracks a → σ a = σ id → a = id) {f : Piece → Piece}
    (respects : Piece.RespectsBare f) :
    Renames σ (x.modifyPiece id f) (y.modifyPiece (σ id) f) := by
  refine ⟨fun s => by simp [ren.occupant s], fun c => by simp [ren.roster c],
    fun c => by simp [ren.king c], fun other tracked => ?_,
    fun a b trackedA trackedB same => ren.injective a b trackedA trackedB same⟩
  simp only [piece?_modifyPiece]
  by_cases here : other = id
  · subst here
    simpa using respects.map (ren.piece other tracked)
  · have moved : σ other ≠ σ id := fun same => here (apart other tracked same)
    simpa [here, moved] using ren.piece other tracked

theorem put (ren : Renames σ x y) {id : PieceId} (apart : ∀ a, x.Tracks a → σ a = σ id → a = id)
    (same : (x.piece? id).map Piece.bare = (y.piece? (σ id)).map Piece.bare) (s : Square) :
    Renames σ (x.put id s) (y.put (σ id) s) := by
  have tracked_put : ∀ a, (x.put id s).Tracks a → a = id ∨ x.Tracks a := fun _ => tracks_put
  refine ⟨fun t => ?_, fun c => by simp [ren.roster c], fun c => by simp [ren.king c],
    fun other tracked => ?_, fun a b trackedA trackedB same' => ?_⟩
  · simp only [occupant_put]
    split
    · rfl
    · exact ren.occupant t
  · simp only [piece?_put]
    by_cases here : other = id
    · subst here
      simpa using (Piece.RespectsBare.of_bare fun _ => rfl).map
        (f := ({ · with square := some s })) same
    · have old := (tracked_put other tracked).resolve_left here
      have moved : σ other ≠ σ id := fun equal => here (apart other old equal)
      simpa [here, moved] using ren.piece other old
  · rcases tracked_put a trackedA with rfl | oldA <;> rcases tracked_put b trackedB with rfl | oldB
    · rfl
    · exact (apart b oldB same'.symm).symm
    · exact apart a oldA same'
    · exact ren.injective a b oldA oldB same'

theorem lift (ren : Renames σ x y) {id : PieceId} (tracked : x.Tracks id) :
    Renames σ (x.lift id) (y.lift (σ id)) := by
  have tracked_lift : ∀ a, (x.lift id).Tracks a → x.Tracks a := fun _ => tracks_lift
  refine ⟨fun t => ?_, fun c => by simp [ren.roster c], fun c => by simp [ren.king c],
    fun other trackedOther => ?_, fun a b trackedA trackedB same =>
      ren.injective a b (tracked_lift a trackedA) (tracked_lift b trackedB) same⟩
  · simp only [occupant_lift, ← ren.square tracked, ren.occupant_eq_some_iff tracked]
    split
    · rfl
    · exact ren.occupant t
  · have old := tracked_lift other trackedOther
    simp only [piece?_lift]
    by_cases here : other = id
    · subst here
      simpa using (Piece.RespectsBare.of_bare fun _ => rfl).map
        (f := ({ · with square := none })) (ren.piece other old)
    · have moved : σ other ≠ σ id := fun equal => here (ren.injective _ _ old tracked equal)
      simpa [here, moved] using ren.piece other old

theorem capture (ren : Renames σ x y) {id : PieceId} {c : Color} (listed : id ∈ x.roster c) :
    Renames σ (x.capture id) (y.capture (σ id)) := by
  have lifted := ren.lift (tracks_of_roster listed)
  have stillListed : (x.lift id).Tracks id := tracks_of_roster (c := c) (by simpa using listed)
  exact lifted.modifyPiece (lifted.apart stillListed) (Piece.RespectsBare.of_bare fun _ => rfl)

theorem replaceInRoster (ren : Renames σ x y) {old new : PieceId} (trackedOld : x.Tracks old)
    (trackedNew : x.Tracks new) :
    Renames σ (x.replaceInRoster old new) (y.replaceInRoster (σ old) (σ new)) := by
  have tracked_replace : ∀ a, (x.replaceInRoster old new).Tracks a → x.Tracks a := by
    rintro a (⟨t, held⟩ | ⟨c, member⟩ | ⟨c, king⟩)
    · exact tracks_of_occupant (by simpa using held)
    · rw [roster_replaceInRoster] at member
      split at member
      · rcases mem_replace.mp member with ⟨rfl, -⟩ | ⟨-, member⟩
        · exact trackedNew
        · exact tracks_of_roster member
      · exact tracks_of_roster member
    · exact tracks_of_king (by simpa using king)
  refine ⟨fun t => by simp [ren.occupant t], fun c => ?_, fun c => by simp [ren.king c],
    fun other tracked => by simpa using ren.piece other (tracked_replace other tracked),
    fun a b trackedA trackedB same =>
      ren.injective a b (tracked_replace a trackedA) (tracked_replace b trackedB) same⟩
  simp only [roster_replaceInRoster, ← ren.color trackedOld, ren.roster c]
  split
  · rw [Array.map_map, Array.map_map]
    refine Array.map_congr_left fun e member => ?_
    by_cases here : e = old
    · simp [here]
    · have moved : σ e ≠ σ old := fun same => here (ren.injective _ _ (tracks_of_roster member)
        trackedOld same)
      simp [here, moved]
  · rfl

theorem createPiece_left (ren : Renames σ x y)
    (inArena : ∀ id, x.Tracks id → id.index < x.pieces.size) (kind : PieceKind) (color : Color) :
    Renames σ (x.createPiece kind color).1 y := by
  have tracked_create : ∀ a, (x.createPiece kind color).1.Tracks a → x.Tracks a := by
    rintro a (⟨t, held⟩ | ⟨c, member⟩ | ⟨c, king⟩)
    · exact tracks_of_occupant (by simpa using held)
    · exact tracks_of_roster (by simpa using member)
    · exact tracks_of_king (by simpa using king)
  refine ⟨fun t => by simp [ren.occupant t], fun c => by simp [ren.roster c],
    fun c => by simp [ren.king c], fun id tracked => ?_, fun a b trackedA trackedB same =>
      ren.injective a b (tracked_create a trackedA) (tracked_create b trackedB) same⟩
  have old := tracked_create id tracked
  simpa [Nat.ne_of_lt (inArena id old)] using ren.piece id old

theorem createPiece_right (ren : Renames σ x y)
    (inArena : ∀ id, y.Tracks id → id.index < y.pieces.size) (kind : PieceKind) (color : Color) :
    Renames σ x (y.createPiece kind color).1 := by
  refine ⟨fun t => by simp [ren.occupant t], fun c => by simp [ren.roster c],
    fun c => by simp [ren.king c], fun id tracked => ?_, ren.injective⟩
  simpa [Nat.ne_of_lt (inArena _ (ren.tracks tracked))] using ren.piece id tracked

/-- A piece brought in on each board, untracked before, stands on one square with one move
made; the renaming is extended by the pair. The two pieces agree in kind, colour, captured
flag and square; their move counts may differ, as both are overwritten. -/
theorem bringIn (ren : Renames σ x y) {q q' : PieceId} {p p' : Piece} (untracked : ¬x.Tracks q)
    (untracked' : ¬y.Tracks q') (found : x.piece? q = some p) (found' : y.piece? q' = some p')
    (alike : p.kind = p'.kind ∧ p.color = p'.color ∧ p.captured = p'.captured) (s : Square) :
    Renames (Function.update σ q q')
      ((x.put q s).modifyPiece q fun r => { r with moveCount := 1 })
      ((y.put q' s).modifyPiece q' fun r => { r with moveCount := 1 }) := by
  have ren' := ren.update untracked q'
  have image : Function.update σ q q' q = q' := Function.update_self q q' σ
  have apart : ∀ a, x.Tracks a → Function.update σ q q' a ≠ q' := by
    intro a tracked same
    have moved := ren'.tracks tracked
    rw [same] at moved
    exact untracked' moved
  have tracked_bringIn : ∀ a, ((x.put q s).modifyPiece q fun r => { r with moveCount := 1 }).Tracks a →
      a = q ∨ x.Tracks a := fun a tracked => tracks_put (by simpa [Tracks] using tracked)
  refine ⟨fun t => ?_, fun c => by simp [ren'.roster c], fun c => by simp [ren'.king c],
    fun other tracked => ?_, fun a b trackedA trackedB same => ?_⟩
  · simp only [occupant_modifyPiece, occupant_put]
    split
    · rw [Option.map_some, image]
    · exact ren'.occupant t
  · simp only [piece?_modifyPiece, piece?_put]
    rcases tracked_bringIn other tracked with rfl | old
    · obtain ⟨kind, color, captured⟩ := alike
      simp [found, found', Piece.bare_eq_iff, kind, color, captured]
    · have here : other ≠ q := fun same => untracked (same ▸ old)
      have moved : σ other ≠ q' := by
        simpa [Function.update_of_ne here] using apart other old
      simpa [here, moved] using ren'.piece other old
  · rcases tracked_bringIn a trackedA with rfl | oldA <;>
      rcases tracked_bringIn b trackedB with rfl | oldB
    · rfl
    · exact absurd (same.symm.trans image) (apart b oldB)
    · exact absurd (same.trans image) (apart a oldA)
    · exact ren'.injective a b oldA oldB same

/-! What the movement rules read of a position does not depend on the names of the pieces. -/

theorem pieceAt? (ren : Renames σ x y) (s : Square) :
    (x.pieceAt? s).map Piece.bare = (y.pieceAt? s).map Piece.bare := by
  cases held : x.occupant s with
  | none => simp [Board.pieceAt?, held, ren.occupant s]
  | some id =>
    simpa [Board.pieceAt?, held, ren.occupant s] using ren.piece_bare (tracks_of_occupant held)

theorem toSameView (ren : Renames σ x y) (side : x.side = y.side)
    (enPassant : x.enPassant = y.enPassant) : SameView x y := by
  refine ⟨fun s => ?_, side, enPassant⟩
  have same := ren.pieceAt? s
  cases hx : x.pieceAt? s with
  | none =>
    rw [hx, Option.map_none, eq_comm, Option.map_eq_none_iff] at same
    exact Or.inl ⟨rfl, same⟩
  | some p =>
    rw [hx, Option.map_some, eq_comm, Option.map_eq_some_iff] at same
    obtain ⟨q, hy, bare⟩ := same
    exact Or.inr ⟨p, q, rfl, hy, by rw [← Piece.bare_kind, ← bare, Piece.bare_kind],
      by rw [← Piece.bare_color, ← bare, Piece.bare_color]⟩

theorem kingSquare (ren : Renames σ x y) (c : Color) : x.kingSquare c = y.kingSquare c := by
  unfold Board.kingSquare
  rw [ren.king]
  cases king : x.king c with
  | none => rfl
  | some k => exact ren.square (tracks_of_king king)

theorem wingRooks (ren : Renames σ x y) (c : Color) (side : CastleSide) :
    y.wingRooks c side = (x.wingRooks c side).map σ := by
  unfold Board.wingRooks
  rw [← ren.kingSquare]
  split
  · rfl
  · split
    · rfl
    · dsimp only
      rw [List.map_filterMap]
      congr 1
      funext f
      rw [ren.occupant]
      cases held : x.occupant (Square.make ⟨⟨f % 8, Nat.mod_lt _ (by decide)⟩⟩ (Rank.back c)) with
      | none => rfl
      | some id =>
        have tracked := tracks_of_occupant held
        simp only [Option.map_some, ← ren.color tracked, ← ren.kind tracked]
        split <;> rfl

theorem castleRook? (ren : Renames σ x y) (c : Color) (side : CastleSide) :
    y.castleRook? c side = (x.castleRook? c side).map σ := by
  simp only [Board.castleRook?, ren.wingRooks, List.head?_map]

theorem canCastle (ren : Renames σ x y) (c : Color) (side : CastleSide) :
    x.canCastle c side = y.canCastle c side := by
  unfold Board.canCastle
  rw [ren.king, ren.castleRook?]
  cases king : x.king c with
  | none => rfl
  | some k =>
    simp only [Option.map_some, ← ren.moveCount (tracks_of_king king)]
    split
    · rfl
    · cases rook : x.castleRook? c side with
      | none => rfl
      | some r =>
        obtain ⟨s, held, -⟩ := occupant_of_castleRook? rook
        simp [← ren.moveCount (tracks_of_occupant held)]

end Renames

end Board

end Chess
