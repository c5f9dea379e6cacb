import Chess.Proofs.Board.Rename
import Chess.Proofs.Board.Position
import Chess.Proofs.Move.Prepare

namespace Chess

/-! Playing a move again on a board that names its pieces otherwise. A board that reached a
position along one path and a copy of its start that reached it along another may hold its
pieces under other ids, but they mirror each other: one placement up to the renaming, one
record of the game. A move of the first board, its piece renamed, plays on the second, and the
boards it leaves mirror each other again; a promotion extends the renaming by the two pieces
it brings in. Mirrored boards show the same account of the game. -/

theorem Piece.label_of_bare {p q : Piece} (same : p.bare = q.bare) : p.label = q.label := by
  obtain ⟨kind, color, captured, -, square⟩ := (Piece.bare_eq_iff p q).mp same
  simp [Piece.label, Piece.letter, kind, color, captured, square]

namespace Board

/-- Two boards of one lineage alike up to the names of their pieces: the placement renamed
by `σ`, and the same side to move, en-passant file, clocks and moves played. -/
structure Mirrors (σ : PieceId → PieceId) (x y : Board) : Prop extends Renames σ x y where
  lineage : x.lineage = y.lineage
  side : x.side = y.side
  enPassant : x.enPassant = y.enPassant
  halfmove : x.halfmove = y.halfmove
  fullmove : x.fullmove = y.fullmove
  played : x.played = y.played

theorem Restores.mirrors {x y : Board} (restores : x.Restores y) : Mirrors id x y :=
  ⟨restores.toAgree.renames, restores.lineage, restores.side, restores.enPassant,
    restores.halfmove, restores.fullmove, restores.played⟩

namespace Mirrors

variable {σ τ : PieceId → PieceId} {x y z : Board}

theorem comp (first : Mirrors σ x y) (second : Mirrors τ y z) : Mirrors (τ ∘ σ) x z :=
  ⟨first.toRenames.comp second.toRenames, first.lineage.trans second.lineage,
    first.side.trans second.side, first.enPassant.trans second.enPassant,
    first.halfmove.trans second.halfmove, first.fullmove.trans second.fullmove,
    first.played.trans second.played⟩

theorem toSameView (mir : Mirrors σ x y) : SameView x y :=
  mir.toRenames.toSameView mir.side mir.enPassant

theorem lookalike (mir : Mirrors σ x y) (cx : x.Coherent) (cy : y.Coherent) (sx : x.Settled)
    (sy : y.Settled) : Lookalike x y :=
  Lookalike.of_same sx (lookalike_regenerate cx cy mir.toSameView mir.canCastle) sy

theorem diagram (mir : Mirrors σ x y) : x.diagram = y.diagram := by
  have letters : ∀ s, (x.pieceAt? s).map Piece.letter = (y.pieceAt? s).map Piece.letter := by
    intro s
    have same := mir.pieceAt? s
    cases hx : x.pieceAt? s <;> cases hy : y.pieceAt? s <;> rw [hx, hy] at same <;>
      simp only [Option.map_none, Option.map_some, reduceCtorEq, Option.some.injEq] at same ⊢
    rename_i p q
    obtain ⟨kind, color, -⟩ := (Piece.bare_eq_iff p q).mp same
    simp [Piece.letter, kind, color]
  unfold Board.diagram
  refine congrArg (· ++ _) (congrArg (· ++ _) (congrArg String.join
    (List.map_congr_left fun r _ => ?_)))
  refine congrArg (· ++ _) (congrArg (· ++ _) (congrArg (· ++ _)
    (congrArg String.join (List.map_congr_left fun f _ => ?_))))
  have cell := letters (Square.make ⟨f⟩ ⟨r⟩)
  revert cell
  cases x.pieceAt? (Square.make ⟨f⟩ ⟨r⟩) <;> cases y.pieceAt? (Square.make ⟨f⟩ ⟨r⟩) <;> simp

theorem castleRights (mir : Mirrors σ x y) : x.castleRights = y.castleRights := by
  simp [Board.castleRights, mir.canCastle]

theorem rosterLine (mir : Mirrors σ x y) (c : Color) :
    (x.roster c).toList.map (fun id => " " ++ (x.piece id).label ++ "(" ++
      toString (x.piece id).moveCount ++ ")") =
    (y.roster c).toList.map (fun id => " " ++ (y.piece id).label ++ "(" ++
      toString (y.piece id).moveCount ++ ")") := by
  rw [mir.roster, Array.toList_map, List.map_map]
  refine List.map_congr_left fun id member => ?_
  have tracked := tracks_of_roster (Array.mem_toList_iff.mp member)
  simp [Piece.label_of_bare (mir.piece_bare tracked), mir.moveCount tracked]

theorem dump (mir : Mirrors σ x y) (cx : x.Coherent) (cy : y.Coherent) (sx : x.Settled)
    (sy : y.Settled) : x.dump = y.dump := by
  have look := mir.lookalike cx cy sx sy
  unfold Board.dump
  dsimp only
  rw [mir.diagram, mir.side, mir.castleRights, mir.enPassant, mir.halfmove, mir.fullmove,
    Board.lastMove?, Board.lastMove?, mir.played, look.isCheck, look.isCheckmate, look.isStalemate,
    look.legalMoveCount, mir.rosterLine .white, mir.rosterLine .black]

end Mirrors

end Board

namespace Move

/-- The move `c'` is the move `c` with its pieces renamed by `σ`: the same squares, kind,
colour, castle and promotion, and its piece, its casualty and a castle's rook renamed. -/
structure Renamed (σ : PieceId → PieceId) (c c' : Move) : Prop where
  piece : c'.piece = σ c.piece
  kind : c'.kind = c.kind
  color : c'.color = c.color
  origin : c'.origin = c.origin
  target : c'.target = c.target
  castle : c'.castle = c.castle
  promotion : c'.promotion = c.promotion
  castleRook : c.castle.isSome → c'.castleRook = c.castleRook.map fun hop => { hop with rook := σ hop.rook }
  casualty : c'.casualty = c.casualty.map fun v => (σ v.1, v.2)

theorem movePieces_of_castle_none {m : Move} (castle : m.castle = none) (b : Board) :
    m.movePieces b = (b.lift m.piece).put m.piece m.target := by
  unfold movePieces
  split
  · simp_all
  · rfl

@[simp] theorem roster_takeCasualty (m : Move) (b : Board) (c : Color) :
    (m.takeCasualty b).roster c = b.roster c := by
  unfold takeCasualty
  split <;> simp

variable {σ : PieceId → PieceId} {x y : Board} {c c' : Move}

theorem Renamed.place (renamed : c.Renamed σ c') (ren : Board.Renames σ x y) (coherent : x.Coherent)
    (held : x.occupant c.origin = some c.piece)
    (victim : ∀ v, c.casualty = some v → x.occupant v.2 = some v.1)
    (rookHeld : ∀ hop side, c.castleRook = some hop → c.castle = some side →
      x.occupant hop.origin = some hop.rook) :
    Board.Renames σ (c.place x) (c'.place y) := by
  have listed : ∀ {s id}, x.occupant s = some id → ∃ col, id ∈ x.roster col := fun held =>
    Board.Coherent.listed coherent (Board.tracks_of_occupant held)
  have stays : ∀ {b : Board} {id : PieceId}, (∀ col, b.roster col = x.roster col) →
      (∃ col, id ∈ x.roster col) → b.Tracks id := fun rosters ⟨col, member⟩ =>
    Board.tracks_of_roster (c := col) (by rw [rosters]; exact member)
  have mover := listed held
  have taken : Board.Renames σ (c.takeCasualty x) (c'.takeCasualty y) := by
    unfold takeCasualty
    rw [renamed.casualty]
    cases found : c.casualty with
    | none => exact ren
    | some v =>
      obtain ⟨col, member⟩ := listed (victim v found)
      exact ren.capture member
  have counted : ∀ {a b : Board}, Board.Renames σ a b → (∀ col, a.roster col = x.roster col) →
      Board.Renames σ (a.modifyPiece c.piece fun p => { p with moveCount := p.moveCount + 1 })
        (b.modifyPiece (σ c.piece) fun p => { p with moveCount := p.moveCount + 1 }) :=
    fun ren' rosters =>
      ren'.modifyPiece (ren'.apart (stays rosters mover)) (Piece.RespectsBare.of_bare fun _ => rfl)
  unfold Move.place
  cases castle : c.castle with
  | none =>
    rw [movePieces_of_castle_none castle, movePieces_of_castle_none (renamed.castle.trans castle),
      renamed.piece, renamed.target]
    have lifted := taken.lift (stays (by simp) mover)
    have moved := lifted.put (lifted.apart (stays (by simp) mover))
      (lifted.piece _ (stays (by simp) mover)) c.target
    exact counted moved (by simp)
  | some side =>
    have rookMap := renamed.castleRook (by simp [castle])
    cases hopFound : c.castleRook with
    | none =>
      rw [hopFound, Option.map_none] at rookMap
      have plain : ∀ (d : Move) (b : Board), d.castleRook = none → d.movePieces b =
          (b.lift d.piece).put d.piece d.target := fun d b none_ => by
        unfold movePieces
        simp [none_]
      rw [plain c _ hopFound, plain c' _ rookMap, renamed.piece, renamed.target]
      have lifted := taken.lift (stays (by simp) mover)
      have moved := lifted.put (lifted.apart (stays (by simp) mover))
        (lifted.piece _ (stays (by simp) mover)) c.target
      exact counted moved (by simp)
    | some hop =>
      rw [hopFound, Option.map_some] at rookMap
      have rook := listed (rookHeld hop side hopFound castle)
      have castled : ∀ (d : Move) (b : Board) (h : RookHop), d.castleRook = some h →
          d.castle = some side → d.movePieces b =
            ((((b.lift d.piece).lift h.rook).put d.piece d.target).put h.rook h.target).modifyPiece
              h.rook fun p => { p with moveCount := p.moveCount + 1 } := fun d b h found castle' => by
        unfold movePieces
        simp [found, castle']
      rw [castled c _ hop hopFound castle,
        castled c' _ _ rookMap (renamed.castle.trans castle), renamed.piece, renamed.target]
      have liftK := taken.lift (stays (by simp) mover)
      have liftR := liftK.lift (stays (by simp) rook)
      have putK := liftR.put (liftR.apart (stays (by simp) mover))
        (liftR.piece _ (stays (by simp) mover)) c.target
      have putR := putK.put (putK.apart (stays (by simp) rook))
        (putK.piece _ (stays (by simp) rook)) hop.target
      have countR := putR.modifyPiece (putR.apart (stays (by simp) rook))
        (f := fun p => { p with moveCount := p.moveCount + 1 }) (Piece.RespectsBare.of_bare fun _ => rfl)
      exact counted countR (by simp)

/-- Promoting with renamed moves keeps a renaming, extended by the pieces the two promotions
bring in: the first board's own piece, free again or new, and a new piece of the second,
whose move holds no promoted piece. -/
theorem Renamed.promote (renamed : c.Renamed σ c') (ren : Board.Renames σ x y) (cx : x.Coherent)
    (cy : y.Coherent) (fresh : c'.promoted = none) (held : x.occupant c.target = some c.piece)
    {kind : PieceKind} (hp : c.promotion = some kind) :
    ∃ σ', Board.Renames σ' (c.promote x).2 (c'.promote y).2 := by
  rw [promote_of_promotion_some hp, promote_of_promotion_some (renamed.promotion.trans hp)]
  have made : c'.promotedPiece y kind = y.createPiece kind c'.color := by
    simp [promotedPiece, fresh]
  rw [made, Board.id_createPiece, renamed.piece, renamed.target]
  obtain ⟨col, member⟩ := Board.Coherent.listed cx (Board.tracks_of_occupant held)
  obtain ⟨r, found, kindR, colorR, off, uncaptured, outside⟩ := promotedPiece_free (m := c) cx kind
  have cases := promotedPiece_cases (m := c) (x := x) kind
  generalize c.promotedPiece x kind = pair at found outside cases ⊢
  obtain ⟨x1, q⟩ := pair
  dsimp only at found outside cases ⊢
  have start : x1.Coherent ∧ (∀ col, x1.roster col = x.roster col) ∧
      Board.Renames σ x1 (y.createPiece kind c'.color).1 := by
    have longer := ren.createPiece_right (fun _ t => cy.lt_size_of_tracks t) kind c'.color
    rcases cases with rfl | created
    · exact ⟨cx, fun _ => rfl, longer⟩
    · obtain ⟨rfl, rfl⟩ := Prod.ext_iff.mp created
      exact ⟨cx.createPiece _ _, by simp,
        (ren.createPiece_left (fun _ t => cx.lt_size_of_tracks t) _ _).createPiece_right
          (fun _ t => cy.lt_size_of_tracks t) _ _⟩
  obtain ⟨c1, rosters, ren1⟩ := start
  have pawn : x1.Tracks c.piece := Board.tracks_of_roster (c := col) (by rw [rosters]; exact member)
  have untracked : ¬x1.Tracks q := c1.not_tracks_of_free found off (colorR ▸ outside)
  have untracked' : ¬(y.createPiece kind c'.color).1.Tracks ⟨y.pieces.size⟩ :=
    (cy.createPiece kind c'.color).not_tracks_of_free (r := { kind, color := c'.color })
      (by simp [Board.createPiece, Board.piece?]) rfl
      (by simpa using cy.fresh_not_mem_roster c'.color)
  have apart : q ≠ c.piece := fun same => untracked (same ▸ pawn)
  have apart' : (⟨y.pieces.size⟩ : PieceId) ≠ σ c.piece := by
    intro same
    have inArena := cy.lt_size_of_tracks (ren.tracks (Board.tracks_of_occupant held))
    rw [← same] at inArena
    exact Nat.lt_irrefl _ inArena
  have lifted := ren1.lift pawn
  have found' : ((y.createPiece kind c'.color).1.lift (σ c.piece)).piece? ⟨y.pieces.size⟩ =
      some { kind, color := c'.color } := by
    rw [Board.piece?_lift, if_neg apart', Board.piece?_createPiece, if_pos rfl]
  have brought := lifted.bringIn
    (fun t => untracked (Board.tracks_lift t)) (fun t => untracked' (Board.tracks_lift t))
    (by simp [apart, found]) found'
    ⟨kindR, colorR.trans renamed.color.symm, uncaptured⟩ c.target
  have swapped := brought.replaceInRoster
    (show Board.Tracks _ c.piece from Board.tracks_of_roster (c := col) (by simp [rosters, member]))
    (show Board.Tracks _ q from Board.tracks_of_occupant (s := c.target) (by simp))
  rw [Function.update_of_ne apart.symm, Function.update_self] at swapped
  exact ⟨_, swapped⟩

theorem findCasualty_of_mirrors (mir : Board.Mirrors σ x y) {m k : Move} (castle : k.castle = m.castle)
    (kind : k.kind = m.kind) (color : k.color = m.color) (origin : k.origin = m.origin)
    (target : k.target = m.target) :
    k.findCasualty y = (m.findCasualty x).map fun v => (σ v.1, v.2) := by
  unfold findCasualty
  rw [castle, kind, color, origin, target, mir.occupant m.target,
    ← mir.toSameView.enPassantVictim?]
  split
  · rfl
  · cases held : x.occupant m.target with
    | some id =>
      simp only [Option.map_some, ← mir.color (Board.tracks_of_occupant held)]
      split <;> rfl
    | none =>
      simp only [Option.map_none]
      split
      · cases victim : x.enPassantVictim? m.origin m.target m.color with
        | none => rfl
        | some s =>
          simp only [Option.bind_some, mir.occupant s]
          cases x.occupant s <;> rfl
      · rfl

/-- The move played again on a board that names its pieces by `σ`: its piece renamed, no
promoted piece remembered, not yet played. -/
def replica (σ : PieceId → PieceId) (m : Move) : Move :=
  { m with piece := σ m.piece, promoted := none, executed := false }

section Replica

variable (σ) (m : Move)

@[simp] theorem piece_replica : (m.replica σ).piece = σ m.piece := rfl
@[simp] theorem promoted_replica : (m.replica σ).promoted = none := rfl
@[simp] theorem executed_replica : (m.replica σ).executed = false := rfl
@[simp] theorem lineage_replica : (m.replica σ).lineage = m.lineage := rfl
@[simp] theorem kind_replica : (m.replica σ).kind = m.kind := rfl
@[simp] theorem color_replica : (m.replica σ).color = m.color := rfl
@[simp] theorem origin_replica : (m.replica σ).origin = m.origin := rfl
@[simp] theorem target_replica : (m.replica σ).target = m.target := rfl
@[simp] theorem castle_replica : (m.replica σ).castle = m.castle := rfl
@[simp] theorem castleRook_replica : (m.replica σ).castleRook = m.castleRook := rfl
@[simp] theorem promotion_replica : (m.replica σ).promotion = m.promotion := rfl

theorem replica_playsSame : (m.replica σ).playsSame m = true := by
  have promotes : (m.replica σ).promotionPiece = m.promotionPiece := rfl
  simp [playsSame, promotes]

end Replica

theorem Fits.replica {m : Move} (fits : m.Fits x) (ren : Board.Renames σ x y)
    (tracked : x.Tracks m.piece) : (m.replica σ).Fits y :=
  ⟨by rw [piece_replica, ← ren.kind tracked, fits.kind, kind_replica],
    by rw [piece_replica, ← ren.color tracked, fits.color, color_replica],
    fits.castle, fits.promotion, fun promoted => by simp at promoted⟩

theorem checkPlayable_replica (mir : Board.Mirrors σ x y) (cx : x.Coherent) (cy : y.Coherent)
    (sx : x.Settled) (sy : y.Settled) {m : Move} {hop : Option RookHop}
    (checked : m.checkPlayable x = .ok hop) :
    ∃ hop', (m.replica σ).checkPlayable y = .ok hop' ∧
      (m.castle.isSome → hop' = hop.map fun h => { h with rook := σ h.rook }) := by
  obtain ⟨lineage, -, held, turn, legal⟩ := checkPlayable_eq_ok.mp checked
  have look := mir.lookalike cx cy sx sy
  have held' : y.occupant m.origin = some (σ m.piece) := by
    rw [mir.occupant, held, Option.map_some]
  have lineage' : y.lineage = (m.replica σ).lineage := by
    rw [← mir.lineage, lineage_replica, lineage]
  have turn' : y.side = (m.replica σ).color := by rw [← mir.side, color_replica, turn]
  rcases legal with ⟨castle, reach, rfl⟩ | ⟨side, plan, castle, open_, lands, rfl⟩
  · have sight := look.sight_piece cx cy held held'
    refine ⟨m.castleRook, checkPlayable_eq_ok.mpr ⟨lineage', rfl, held', turn',
      Or.inl ⟨castle, ?_, rfl⟩⟩, by simp [castle]⟩
    have targets := congrArg Sight.targets sight
    simp only [Piece.sight] at targets
    rw [piece_replica, target_replica, ← targets]
    exact reach
  · have routes := Board.Status.castle_map_of_sight look.status side CastlePlan.route fun _ => rfl
    unfold Board.legalCastle? at open_
    rw [open_, Option.map_some] at routes
    obtain ⟨plan', open', same⟩ := Option.map_eq_some_iff.mp routes.symm
    have rook : plan'.rook = σ plan.rook := by
      have renamed := mir.castleRook? x.side side
      rw [(Board.openCastle_of_legalCastle? cx sx open_).rook, Option.map_some, mir.side,
        (Board.openCastle_of_legalCastle? cy sy open').rook] at renamed
      exact Option.some.inj renamed
    have kingTo : plan'.kingTo = plan.kingTo := by
      simpa [CastlePlan.route] using congrArg CastlePlan.kingTo same
    have rookFrom : plan'.rookFrom = plan.rookFrom := by
      simpa [CastlePlan.route] using congrArg CastlePlan.rookFrom same
    have rookTo : plan'.rookTo = plan.rookTo := by
      simpa [CastlePlan.route] using congrArg CastlePlan.rookTo same
    refine ⟨_, checkPlayable_eq_ok.mpr ⟨lineage', rfl, held', turn',
      Or.inr ⟨side, plan', castle, open', kingTo.trans lands, rfl⟩⟩, fun _ => ?_⟩
    simp [rook, rookFrom, rookTo]

theorem renamed_complete (mir : Board.Mirrors σ x y) {m : Move} {hop hop' : Option RookHop}
    (rook : m.castle.isSome → hop' = hop.map fun h => { h with rook := σ h.rook }) :
    (m.complete x hop).Renamed σ ((m.replica σ).complete y hop') := by
  refine ⟨by simp, by simp, by simp, by simp, by simp, by simp, by simp [promotion_complete],
    fun castle => by simpa using rook (by simpa using castle), ?_⟩
  rw [casualty_complete, casualty_complete]
  exact findCasualty_of_mirrors mir rfl rfl rfl rfl rfl

@[simp] theorem side_passTurn (m : Move) (b : Board) : (m.passTurn b).side = m.color.opponent := by
  unfold passTurn
  split <;> rfl

@[simp] theorem enPassant_passTurn (m : Move) (b : Board) : (m.passTurn b).enPassant = b.enPassant := by
  unfold passTurn
  split <;> rfl

@[simp] theorem halfmove_passTurn (m : Move) (b : Board) : (m.passTurn b).halfmove = b.halfmove := by
  unfold passTurn
  split <;> rfl

@[simp] theorem fullmove_passTurn (m : Move) (b : Board) :
    (m.passTurn b).fullmove = if m.color = .black then b.fullmove + 1 else b.fullmove := by
  unfold passTurn
  split <;> rfl

theorem renames_playSteps (mir : Board.Mirrors σ x y) (cx : x.Coherent) (cy : y.Coherent)
    (sx : x.Settled) (sy : y.Settled) {m : Move} (fits : m.Fits x) {hop hop' : Option RookHop}
    (checked : m.checkPlayable x = .ok hop) (checked' : (m.replica σ).checkPlayable y = .ok hop')
    (rook : m.castle.isSome → hop' = hop.map fun h => { h with rook := σ h.rook }) :
    ∃ σ', Board.Renames σ' (m.playSteps x hop).2 ((m.replica σ).playSteps y hop').2 := by
  have renamed := renamed_complete mir rook
  obtain ⟨-, -, held, -, legal⟩ := checkPlayable_eq_ok.mp checked
  have clocks : Board.Renames σ ((m.complete x hop).advanceClocks x)
      (((m.replica σ).complete y hop').advanceClocks y) :=
    mir.toRenames.of_views (fun _ => rfl) (fun _ => rfl) (fun _ => rfl) (fun _ => rfl)
      (fun _ => rfl) (fun _ => rfl) (fun _ => rfl) (fun _ => rfl)
  have coherentX : ((m.complete x hop).advanceClocks x).Coherent :=
    Board.Coherent.of_views (y := x) (fun _ => rfl) (fun _ => rfl) (fun _ => rfl) (fun _ => rfl) cx
  have victim : ∀ v, (m.complete x hop).casualty = some v →
      ((m.complete x hop).advanceClocks x).occupant v.2 = some v.1 := by
    intro v found
    rw [casualty_complete] at found
    exact (findCasualty_eq_some found).2.1
  have rookHeld : ∀ h side, (m.complete x hop).castleRook = some h →
      (m.complete x hop).castle = some side →
      ((m.complete x hop).advanceClocks x).occupant h.origin = some h.rook := by
    intro h side found castle
    rw [castleRook_complete] at found
    rw [castle_complete] at castle
    rcases legal with ⟨none_, -, -⟩ | ⟨side', plan, -, open_, -, rfl⟩
    · rw [none_] at castle
      cases castle
    · cases found
      exact (Board.openCastle_of_legalCastle? cx sx open_).rookHeld
  have placed := renamed.place clocks coherentX (by simpa using held) victim rookHeld
  unfold playSteps
  cases hp : (m.complete x hop).promotion with
  | none =>
    rw [promote_of_promotion_none hp, promote_of_promotion_none (renamed.promotion.trans hp)]
    exact ⟨σ, placed⟩
  | some kind =>
    have fits' := fits.replica mir.toRenames (Board.tracks_of_occupant held)
    obtain ⟨-, placedX, landed⟩ := placed_of_promotion cx sx fits checked hp
    obtain ⟨-, placedY, -⟩ := placed_of_promotion cy sy fits' checked' (renamed.promotion.trans hp)
    exact renamed.promote placed placedX placedY (by simp) (by simpa using landed) hp

theorem execute_replica (mir : Board.Mirrors σ x y) (cx : x.Coherent) (cy : y.Coherent)
    (sx : x.Settled) (sy : y.Settled) {m : Move} (fits : m.Fits x) {r : Move × Board}
    (run : m.execute x = .ok r) :
    ∃ σ' r', (m.replica σ).execute y = .ok r' ∧ Board.Mirrors σ' r.2 r'.2 ∧
      (m.replica σ).Fits y := by
  obtain ⟨hop, checked, board, -⟩ := execute_eq_ok run
  obtain ⟨hop', checked', rook⟩ := checkPlayable_replica mir cx cy sx sy checked
  have held := (checkPlayable_eq_ok.mp checked).2.2.1
  have fits' := fits.replica mir.toRenames (Board.tracks_of_occupant held)
  obtain ⟨r', run'⟩ := execute_ok_iff.mpr ⟨hop', checked'⟩
  obtain ⟨hop'', checked'', board', -⟩ := execute_eq_ok run'
  rw [checked'] at checked''
  cases checked''
  obtain ⟨σ', placed⟩ := renames_playSteps mir cx cy sx sy fits checked checked' rook
  obtain ⟨promotedX, moveX⟩ := playSteps_fst (m := m) (w := x) hop
  obtain ⟨promotedY, moveY⟩ := playSteps_fst (m := m.replica σ) (w := y) hop'
  have casualty : ((m.replica σ).findCasualty y).isSome = (m.findCasualty x).isSome := by
    rw [findCasualty_of_mirrors (m := m) (k := m.replica σ) mir rfl rfl rfl rfl rfl,
      Option.isSome_map]
  have passed : Board.Renames σ' ((m.playSteps x hop).1.passTurn (m.playSteps x hop).2)
      (((m.replica σ).playSteps y hop').1.passTurn ((m.replica σ).playSteps y hop').2) :=
    placed.of_views (by simp) (by simp) (by simp) (by simp) (by simp) (by simp) (by simp) (by simp)
  have regenerated := passed.of_bare (Board.bare_regenerate _) (Board.bare_regenerate _)
  refine ⟨σ', r', run', ⟨?_, ?lineage, ?side, ?enPassant, ?halfmove, ?fullmove, ?played⟩, fits'⟩
  · rw [board, board']
    exact regenerated.of_views (fun _ => rfl) (fun _ => rfl) (fun _ => rfl) (fun _ => rfl)
      (fun _ => rfl) (fun _ => rfl) (fun _ => rfl) (fun _ => rfl)
  all_goals rw [board, board']
  case lineage => simp [mir.lineage]
  case side => simp [moveX, moveY]
  case enPassant =>
    simp [enPassant_playSteps, advanceClocks]
  case halfmove =>
    simp [halfmove_playSteps, advanceClocks, casualty, mir.halfmove]
  case fullmove =>
    simp [fullmove_playSteps, advanceClocks, moveX, moveY, mir.fullmove]
  case played => simp [moveX, moveY, mir.played]

end Move

end Chess
