import Chess.Proofs.Move.Returns
import Chess.Proofs.Move.Guard

namespace Chess

/-! A move played again. A move taken back remembers what its play found: the castle's rook,
the casualty, the clocks, the piece its promotion brought in. Played again on a board that
restores the board it was first played on, it passes its checks, finds the same again, and
gives back the same move; when its promoted piece is an orphan there, it brings that piece
back, and the board it leaves is restored by the board the first play left. Every step of
playing edits the same pieces on both boards alike, so the boards stay placed alike but for
the pieces the first board neither tracks nor holds as pawns. -/

namespace Board.AlikeBut

variable {skip : PieceId → Prop} {x y : Board} (m : Move)

theorem capture (alike : AlikeBut skip x y) {id : PieceId} (kept : ¬skip id) :
    AlikeBut skip (x.capture id) (y.capture id) :=
  (alike.lift kept).modifyPiece id (Piece.RespectsBare.of_bare fun _ => rfl)

theorem createPiece_left (alike : AlikeBut skip x y) (kind : PieceKind) (color : Color)
    (fresh : skip ⟨x.pieces.size⟩) : AlikeBut skip (x.createPiece kind color).1 y := by
  refine ⟨fun s => by simp [alike.occupant s], fun c => by simp [alike.roster c],
    fun c => by simp [alike.king c], fun id kept => ?_⟩
  have apart : id.index ≠ x.pieces.size := fun same => kept (by
    obtain ⟨i⟩ := id
    cases same
    exact fresh)
  rw [piece?_createPiece, if_neg apart]
  exact alike.piece id kept

theorem createPiece_right (alike : AlikeBut skip x y) (kind : PieceKind) (color : Color)
    (fresh : skip ⟨y.pieces.size⟩) : AlikeBut skip x (y.createPiece kind color).1 :=
  (alike.symm.createPiece_left kind color fresh).symm

theorem keep (alike : AlikeBut skip x y) {q : PieceId}
    (same : (x.piece? q).map Piece.bare = (y.piece? q).map Piece.bare) :
    AlikeBut (fun id => skip id ∧ id ≠ q) x y :=
  ⟨alike.occupant, alike.roster, alike.king, fun id kept => by
    by_cases here : id = q
    · rw [here]
      exact same
    · exact alike.piece id fun skipped => kept ⟨skipped, here⟩⟩

theorem takeCasualty (alike : AlikeBut skip x y) (kept : ∀ v, m.casualty = some v → ¬skip v.1) :
    AlikeBut skip (m.takeCasualty x) (m.takeCasualty y) := by
  unfold Move.takeCasualty
  split
  · rename_i id s taken
    exact alike.capture (kept (id, s) taken)
  · exact alike

theorem movePieces (alike : AlikeBut skip x y) (kept : ¬skip m.piece)
    (rookKept : ∀ hop side, m.castleRook = some hop → m.castle = some side → ¬skip hop.rook) :
    AlikeBut skip (m.movePieces x) (m.movePieces y) := by
  unfold Move.movePieces
  split
  · rename_i hop side rook castle
    exact (((((alike.lift kept).lift (rookKept hop side rook castle)).put _ _).put _ _).modifyPiece _
      (Piece.RespectsBare.of_bare fun _ => rfl))
  · exact (alike.lift kept).put _ _

theorem place (alike : AlikeBut skip x y) (kept : ¬skip m.piece)
    (rookKept : ∀ hop side, m.castleRook = some hop → m.castle = some side → ¬skip hop.rook)
    (casualtyKept : ∀ v, m.casualty = some v → ¬skip v.1) :
    AlikeBut skip (m.place x) (m.place y) :=
  (((alike.takeCasualty m casualtyKept).movePieces m kept rookKept).modifyPiece m.piece
    (f := fun p => { p with moveCount := p.moveCount + 1 }) (Piece.RespectsBare.of_bare fun _ => rfl))

theorem promote (alike : AlikeBut skip x y) {c c' : Move} {kind : PieceKind}
    (promotion' : c'.promotion = some kind) (promotion : c.promotion = some kind)
    (piece : c'.piece = c.piece) (target : c'.target = c.target) (color : c'.color = c.color)
    (same : (c'.promotedPiece x kind).2 = (c.promotedPiece y kind).2)
    (cx : x.Coherent) (cy : y.Coherent) (held : y.Tracks c.piece) (kept : ¬skip c.piece) :
    AlikeBut (fun id => skip id ∧ id ≠ (c.promotedPiece y kind).2) (c'.promote x).2
      (c.promote y).2 := by
  rw [Move.promote_of_promotion_some promotion', Move.promote_of_promotion_some promotion]
  dsimp only
  rw [piece, target, same]
  obtain ⟨rx, foundX, kindX, colorX, offX, uncapturedX, -⟩ := Move.promotedPiece_free (m := c') cx kind
  obtain ⟨ry, foundY, kindY, colorY, offY, uncapturedY, outsideY⟩ :=
    Move.promotedPiece_free (m := c) cy kind
  rw [same] at foundX
  have arrived : ((c.promotedPiece y kind).1.Coherent ∧ (c.promotedPiece y kind).1.Tracks c.piece) ∧
      AlikeBut (fun id => skip id ∨ id = (c.promotedPiece y kind).2) (c'.promotedPiece x kind).1
        (c.promotedPiece y kind).1 := by
    have wide := alike.mono fun id skipped => Or.inl (b := id = (c.promotedPiece y kind).2) skipped
    have left : AlikeBut (fun id => skip id ∨ id = (c.promotedPiece y kind).2)
        (c'.promotedPiece x kind).1 y := by
      rcases Move.promotedPiece_spec c' x kind with ⟨sameX, -⟩ | createdX
      · rw [sameX]
        exact wide
      · rw [createdX]
        exact wide.createPiece_left kind c'.color (Or.inr (by rw [← same, createdX]; rfl))
    rcases Move.promotedPiece_spec c y kind with ⟨sameY, -⟩ | createdY
    · rw [sameY]
      exact ⟨⟨cy, held⟩, sameY ▸ left⟩
    · have board : (c.promotedPiece y kind).1 = (y.createPiece kind c.color).1 := by rw [createdY]
      rw [board]
      refine ⟨⟨cy.createPiece kind c.color, by simpa [Board.Tracks] using held⟩,
        left.createPiece_right kind c.color (Or.inr (by rw [createdY]; rfl))⟩
  obtain ⟨⟨coherentY, heldY⟩, arrived⟩ := arrived
  have apart : c.piece ≠ (c.promotedPiece y kind).2 := fun same' =>
    coherentY.not_tracks_of_free foundY offY (colorY ▸ outsideY) (same' ▸ heldY)
  have kept' : ¬(skip c.piece ∨ c.piece = (c.promotedPiece y kind).2) := fun skipped =>
    skipped.elim kept apart
  have placed := ((((arrived.lift kept').put (c.promotedPiece y kind).2 c.target).modifyPiece
    (c.promotedPiece y kind).2 (f := fun p => { p with moveCount := 1 })
    (Piece.RespectsBare.of_bare fun _ => rfl)).replaceInRoster kept' (c.promotedPiece y kind).2)
  refine (placed.keep ?_).mono fun id skipped => ⟨skipped.1.resolve_right skipped.2, skipped.2⟩
  simp only [Board.piece?_replaceInRoster, Board.piece?_modifyPiece, Board.piece?_put,
    Board.piece?_lift, if_pos, if_neg (Ne.symm apart), foundX, foundY, Option.map_some,
    Option.some.injEq]
  rw [Piece.bare_eq_iff]
  exact ⟨kindX.trans kindY.symm, colorX.trans (color.trans colorY.symm), by simp [uncapturedX,
    uncapturedY], rfl, rfl⟩

end Board.AlikeBut

theorem Board.Same.disambiguation {x y : Board} (same : Same x y) {id : PieceId}
    (tracked : x.Tracks id) (t : Square) : x.disambiguation id t = y.disambiguation id t := by
  unfold Board.disambiguation
  dsimp only
  rw [← same.piece_eq tracked, ← same.roster]
  split
  · rfl
  · rw [← Array.foldl_toList, ← Array.foldl_toList]
    apply List.foldl_ext
    intro acc other member
    rw [same.piece_eq (Board.tracks_of_roster (Array.mem_toList_iff.mp member))]

namespace Move

section Again

variable {m : Move} {v b : Board} {r : Move × Board}

theorem complete_with (m : Move) (b : Board) (hop : Option RookHop) (promoted : Option PieceId)
    (outcome : Option Outcome) (executed verified : Bool) :
    { m with promoted, outcome, executed, verified }.complete b hop =
      { m.complete b hop with promoted, outcome, executed, verified } := by
  rw [complete_eq, complete_eq]
  rfl

theorem complete_complete (restores : v.Restores b) (tracked : v.Tracks m.piece)
    (hop : Option RookHop) : (m.complete v hop).complete b hop = m.complete v hop := by
  have casualty : (m.complete v hop).findCasualty b = m.findCasualty v := by
    rw [findCasualty_of_mirrors restores.mirrors (m := m) (k := m.complete v hop) (by simp)
      (by simp) (by simp) (by simp) (by simp)]
    simp
  have named : (m.complete v hop).promotion.isNone = true →
      ¬((m.complete v hop).kind = .pawn ∧
        (m.complete v hop).target.rank = Rank.promotion (m.complete v hop).color) := by
    intro none_ ⟨pawn, last⟩
    rw [promotion_complete] at none_
    simp only [kind_complete, target_complete, color_complete] at pawn last
    split at none_
    · cases none_
    · rename_i unnamed
      exact unnamed ⟨pawn, last, none_⟩
  rw [complete_eq (m.complete v hop), if_neg (fun c => named c.2.2 ⟨c.1, c.2.1⟩), casualty,
    ← restores.toAgree.enPassant, ← restores.halfmove, ← restores.fullmove, piece_complete,
    target_complete, ← restores.toSame.disambiguation tracked, complete_eq m v hop]

theorem outcome_execute (run : m.execute b = .ok r) : r.1.outcome.isSome := by
  unfold execute at run
  obtain ⟨hop, -, played⟩ := Except.bind_eq_ok.mp run
  dsimp only at played
  generalize (m.complete b hop).promote
    ((m.complete b hop).place ((m.complete b hop).advanceClocks b)) = p at played
  obtain ⟨promoted, placed⟩ := p
  cases played
  dsimp only
  split
  · rfl
  · rename_i recorded
    simpa [Option.isSome_iff_ne_none] using recorded

theorem execute_of_outcome (recorded : m.outcome.isSome) (run : m.execute b = .ok r) :
    ∃ hop, m.checkPlayable b = .ok hop ∧
      r.2 = { ((m.playSteps b hop).1.passTurn (m.playSteps b hop).2).regenerate with
              started := true } ∧
      r.1 = { (m.playSteps b hop).1 with executed := true, verified := true } := by
  unfold execute at run
  obtain ⟨hop, checked, played⟩ := Except.bind_eq_ok.mp run
  refine ⟨hop, checked, ?_⟩
  dsimp only at played
  have kept : ((m.complete b hop).promote
      ((m.complete b hop).place ((m.complete b hop).advanceClocks b))).1.outcome = m.outcome := by
    obtain ⟨promoted, fields⟩ := promote_fst (m := m.complete b hop)
      ((m.complete b hop).place ((m.complete b hop).advanceClocks b))
    rw [fields, complete_eq]
  unfold playSteps
  generalize (m.complete b hop).promote
    ((m.complete b hop).place ((m.complete b hop).advanceClocks b)) = p at played kept ⊢
  obtain ⟨promoted, placed⟩ := p
  dsimp only at kept
  rw [if_neg (by simpa [kept, ← Option.isSome_iff_ne_none] using recorded)] at played
  cases played
  exact ⟨rfl, rfl⟩

theorem complete_again {hop : Option RookHop} (checked : m.checkPlayable v = .ok hop)
    (run : m.execute v = .ok r) (restores : v.Restores b) :
    { r.1 with executed := false }.complete b hop = { r.1 with executed := false } := by
  obtain ⟨hop', checked', -, outcome, move⟩ := execute_eq_ok run
  rw [checked] at checked'
  cases checked'
  obtain ⟨promoted, fields⟩ := playSteps_fst (m := m) (w := v) hop
  obtain ⟨-, -, held, -⟩ := checkPlayable_eq_ok.mp checked
  have taken : { r.1 with executed := false } =
      { m.complete v hop with
          promoted := promoted, outcome := outcome, executed := false, verified := true } := by
    rw [move, fields]
  rw [taken, complete_with, complete_complete restores (Board.tracks_of_occupant held)]

/-- The steps of playing a move again, on a board returning to the one it was first played on:
they give back the same move, and leave the pieces alike but for those spare or beyond the
first arena, the promoted piece apart. -/
theorem playSteps_again (coherent : v.Coherent) (settled : v.Settled) (fits : m.Fits v)
    {hop : Option RookHop} (checked : m.checkPlayable v = .ok hop) (run : m.execute v = .ok r)
    (returns : v.Returns b) (grown : r.2.ArenaGrows b) (coherentB : b.Coherent)
    (settledB : b.Settled) :
    ({ r.1 with executed := false }.playSteps b hop).1 = { r.1 with executed := false } ∧
      Board.AlikeBut (fun id => (v.Spare id ∨ v.pieces.size ≤ id.index) ∧ r.1.promoted ≠ some id)
        ({ r.1 with executed := false }.playSteps b hop).2 (m.playSteps v hop).2 := by
  obtain ⟨hop', checked', -, outcome, move⟩ := execute_eq_ok run
  rw [checked] at checked'
  cases checked'
  obtain ⟨promotedP, fields⟩ := playSteps_fst (m := m) (w := v) hop
  have promotedR : promotedP = r.1.promoted := by rw [move, fields]
  subst promotedR
  have taken : { r.1 with executed := false } =
      { m.complete v hop with
          promoted := r.1.promoted, outcome := outcome, executed := false, verified := true } := by
    rw [move, fields]
  obtain ⟨-, -, held, -⟩ := checkPlayable_eq_ok.mp checked
  have tracked : v.Tracks m.piece := Board.tracks_of_occupant held
  have completed := complete_again checked run returns.toRestores
  have steps : { r.1 with executed := false }.playSteps b hop =
      { r.1 with executed := false }.promote
        ((m.complete v hop).place ((m.complete v hop).advanceClocks b)) := by
    unfold playSteps
    rw [completed, taken]
    rfl
  have undoable := undoable_execute coherent settled fits run
  have keptV : ∀ id, v.Keeps id → ¬(v.Spare id ∨ v.pieces.size ≤ id.index) :=
    fun id keeps skipped => skipped.elim (fun spare => spare.not_keeps coherent keeps)
      fun beyond => not_le.mpr (keeps.lt_size coherent) beyond
  have rook := undoable.rook
  have casualty := undoable.casualty
  rw [move, fields] at rook casualty
  have clocks : Board.AlikeBut (fun id => v.Spare id ∨ v.pieces.size ≤ id.index)
      ((m.complete v hop).advanceClocks b) ((m.complete v hop).advanceClocks v) :=
    ((AlikeBut.of_placement (x := (m.complete v hop).advanceClocks b) (y := b) rfl rfl rfl rfl rfl
      rfl).trans (returns.alikeBut.trans (AlikeBut.of_placement (x := v)
        (y := (m.complete v hop).advanceClocks v) rfl rfl rfl rfl rfl rfl))).mono
      fun id skipped => by simpa using skipped
  have placed := clocks.place (m.complete v hop) (by rw [piece_complete]; exact keptV _ (Or.inl tracked))
    (fun hop side castleRook castle => keptV _ (rook hop side castleRook castle))
    (fun c taken => keptV _ (casualty c taken))
  have promotedR : r.1.promoted = (m.playSteps v hop).1.promoted := by rw [move]
  cases promo : (m.complete v hop).promotion with
  | none =>
    have promotion : { r.1 with executed := false }.promotion = none := by rw [taken]; exact promo
    have unpromoted : r.1.promoted = none := by
      rw [promotedR, playSteps, promote_of_promotion_none promo, promoted_complete,
        promoted_eq_none fits promo]
    rw [steps, promote_of_promotion_none promotion, playSteps, promote_of_promotion_none promo]
    exact ⟨rfl, placed.mono fun id skipped => ⟨skipped, by simp [unpromoted]⟩⟩
  | some k =>
    have promotion : { r.1 with executed := false }.promotion = some k := by rw [taken]; exact promo
    have promotedQ : r.1.promoted = some ((m.complete v hop).promotedPiece
        ((m.complete v hop).place ((m.complete v hop).advanceClocks v)) k).2 := by
      rw [promotedR, playSteps, promote_of_promotion_some promo]
    obtain ⟨q, picked⟩ : ∃ q, ((m.complete v hop).promotedPiece
        ((m.complete v hop).place ((m.complete v hop).advanceClocks v)) k).2 = q := ⟨_, rfl⟩
    rw [picked] at promotedQ
    have coherentR := coherent.execute settled fits run
    have insideR := coherentR.lt_size_of_tracks (undoable.promoted q promotedQ).1
    have spareB : b.Spare q := by
      apply returns.spare q (insideR.trans_le grown.size)
      rcases execute_arena coherent settled fits run with ⟨-, spares⟩ | ⟨-, fresh⟩
      · exact Or.inr (spares q promotedQ)
      · rw [promotedQ, Option.some.injEq] at fresh
        rw [fresh]
        exact Or.inl le_rfl
    obtain ⟨k', promotionR, -, kindR, colorR⟩ := promoted_execute coherent settled fits run promotedQ
    have promotionK : r.1.promotion = some k := by
      rw [move, fields]
      exact promo
    rw [promotionK, Option.some.injEq] at promotionR
    subst promotionR
    have orphanB : b.Orphan q k { r.1 with executed := false }.color := by
      have orphan := spareB.2
      rwa [grown.kind q insideR, grown.color q insideR, kindR, colorR] at orphan
    have trackedR : v.Tracks r.1.piece := by rw [piece_execute run]; exact tracked
    have fitsB : { r.1 with executed := false }.Fits b :=
      ((Fits.played fits run).executed false).restores returns.toRestores trackedR
    have checkedB := checkPlayable_played_again checked run returns.toRestores
    obtain ⟨s, run', promotedS, -⟩ :=
      execute_orphan_promoted coherentB settledB fitsB checkedB promotion promotedQ orphanB
    have recorded : { r.1 with executed := false }.outcome.isSome := outcome_execute run
    obtain ⟨hop', checked', -, moveS⟩ := execute_of_outcome recorded run'
    rw [checkedB] at checked'
    cases checked'
    rw [steps, promote_of_promotion_some promotion] at moveS
    have pick : ({ r.1 with executed := false }.promotedPiece
        ((m.complete v hop).place ((m.complete v hop).advanceClocks b)) k).2 = q := by
      have promotedS' := congrArg Move.promoted moveS
      rw [promotedS] at promotedS'
      exact (Option.some.inj promotedS').symm
    obtain ⟨-, coherentX, landed⟩ := placed_of_promotion coherent settled fits checked promo
    obtain ⟨-, coherentY, -⟩ := placed_of_promotion coherentB settledB fitsB checkedB
      (by rw [completed]; exact promotion)
    rw [completed, taken] at coherentY
    have alike := placed.promote promotion promo (by rw [taken]) (by rw [taken]) (by rw [taken])
      (pick.trans picked.symm) coherentY coherentX
      (by rw [piece_complete]; exact Board.tracks_of_occupant landed)
      (by rw [piece_complete]; exact keptV _ (Or.inl tracked))
    rw [steps]
    refine ⟨?_, alike.mono fun id skipped => ⟨skipped.1, fun same => skipped.2 ?_⟩⟩
    · rw [promote_of_promotion_some promotion, pick, ← promotedQ]
    · rw [promotedQ] at same
      rw [picked]
      exact (Option.some.inj same).symm

/-- A move played and taken back plays again on every coherent, settled board that returns to
the board it was first played on: the same move, to a board that returns to the board it was
first played to. -/
theorem execute_again (coherent : v.Coherent) (settled : v.Settled) (fits : m.Fits v)
    (run : m.execute v = .ok r) (returns : v.Returns b) (grown : r.2.ArenaGrows b)
    (coherentB : b.Coherent) (settledB : b.Settled) :
    ∃ s, { r.1 with executed := false }.execute b = .ok s ∧ s.1 = r.1 ∧ r.2.Returns s.2 := by
  obtain ⟨hop, checked, board, outcome, move⟩ := execute_eq_ok run
  have checkedB := checkPlayable_played_again checked run returns.toRestores
  obtain ⟨s, run'⟩ := execute_ok_iff.mpr ⟨hop, checkedB⟩
  have recorded : { r.1 with executed := false }.outcome.isSome := outcome_execute run
  obtain ⟨hop', checked', boardS, moveS⟩ := execute_of_outcome recorded run'
  rw [checkedB] at checked'
  cases checked'
  obtain ⟨again, alike⟩ :=
    playSteps_again coherent settled fits checked run returns grown coherentB settledB
  rw [again] at moveS boardS
  have moved : s.1 = r.1 := by
    rw [moveS, move]
  refine ⟨s, run', moved, ?_⟩
  have final : Board.AlikeBut
      (fun id => (v.Spare id ∨ v.pieces.size ≤ id.index) ∧ r.1.promoted ≠ some id) s.2 r.2 := by
    rw [boardS, board]
    exact (((@alikeBut_passTurn_regenerate (fun _ => False) _ _ true).trans alike).trans
      (@alikeBut_passTurn_regenerate (fun _ => False) _ _ true).symm).mono
      fun id skipped => by simpa using skipped
  have coherentR := coherent.execute settled fits run
  have plain : ∀ id, id.index < r.2.pieces.size → ¬r.2.Spare id →
      ¬((v.Spare id ∨ v.pieces.size ≤ id.index) ∧ r.1.promoted ≠ some id) := by
    rintro id inside plainR ⟨spare | beyond, fresh⟩
    · exact plainR (spare_execute coherent settled fits run spare fresh)
    · rcases execute_arena coherent settled fits run with ⟨size, -⟩ | ⟨size, promoted⟩
      · omega
      · obtain ⟨i⟩ := id
        have last : i = v.pieces.size := by
          simp only at inside beyond
          omega
        subst last
        exact fresh promoted
  have alikeR : ∀ id p, r.2.piece? id = some p → ¬r.2.Spare id →
      (s.2.piece? id).map Piece.bare = some p.bare := by
    intro id p found plainR
    rw [final.piece id (plain id (Board.Coherent.lt_size_of_piece? found) plainR), found,
      Option.map_some]
  have completed := complete_again checked run returns.toRestores
  obtain ⟨promotedP, fields⟩ := playSteps_fst (m := m) (w := v) hop
  have agree : Board.Agree r.2 s.2 := final.symm.toAgree ?side ?enPassant fun id tracked =>
    plain id (coherentR.lt_size_of_tracks tracked) fun spare => spare.not_keeps coherentR (Or.inl tracked)
  case side =>
    rw [board, boardS]
    simp [move]
  case enPassant =>
    rw [board, boardS]
    dsimp only
    rw [Board.enPassant_regenerate, Board.enPassant_regenerate, enPassant_passTurn,
      enPassant_passTurn, enPassant_playSteps, enPassant_playSteps, completed]
    simp [advanceClocks, move, fields]
  have undoable := undoable_execute coherent settled fits run
  have trackedR : v.Tracks r.1.piece := by
    rw [piece_execute run]
    exact Board.tracks_of_occupant (checkPlayable_eq_ok.mp checked).2.2.1
  have fitsB : { r.1 with executed := false }.Fits b :=
    ((Fits.played fits run).executed false).restores returns.toRestores trackedR
  have sizeS : s.2.pieces.size = b.pieces.size := by
    rcases execute_arena coherentB settledB fitsB run' with ⟨sizeS, -⟩ | ⟨-, fresh⟩
    · exact sizeS
    · rw [moved] at fresh
      have inside := coherentR.lt_size_of_tracks (undoable.promoted _ fresh).1
      exact absurd (inside.trans_le grown.size) (Nat.lt_irrefl _)
  obtain ⟨-, -, lineageR, endpoints, playedR⟩ := execute_records run
  obtain ⟨-, -, lineageS, -, playedS⟩ := execute_records run'
  refine ⟨⟨(Board.Settled.execute run).trans ((Board.Same.regenerate agree).trans
      (Board.Settled.execute run').symm), ?halfmove, ?fullmove, ?played, ?lineage,
      fun id p found pawn => alikeR id p found fun spare => spare.1 (by
        rw [Board.piece_eq_of_piece? _ found, pawn])⟩,
    grown.trans (arenaGrows_execute run'), alikeR, fun id inside spare => ?_⟩
  case halfmove =>
    rw [board, boardS]
    dsimp only
    rw [Board.halfmove_regenerate, Board.halfmove_regenerate, halfmove_passTurn,
      halfmove_passTurn, halfmove_playSteps, halfmove_playSteps, completed]
    simp [advanceClocks, move, fields, returns.halfmove]
  case fullmove =>
    rw [board, boardS]
    dsimp only
    rw [Board.fullmove_regenerate, Board.fullmove_regenerate, fullmove_passTurn,
      fullmove_passTurn, fullmove_playSteps, fullmove_playSteps, completed]
    simp [advanceClocks, move, fields, returns.fullmove]
  case played =>
    rw [playedR, playedS, ← returns.played, ← endpoints]
  case lineage => rw [lineageR, lineageS, returns.lineage]
  have unpromoted : r.1.promoted ≠ some id := fun promoted => by
    have trackedQ := (undoable.promoted id promoted).1
    rcases spare with beyond | spareR
    · exact not_le.mpr (coherentR.lt_size_of_tracks trackedQ) beyond
    · exact spareR.not_keeps coherentR (Or.inl trackedQ)
  by_cases skipped : v.Spare id ∨ v.pieces.size ≤ id.index
  · have spareB := returns.spare id (sizeS ▸ inside) skipped.symm
    exact spare_execute coherentB settledB fitsB run' spareB (by rw [moved]; exact unpromoted)
  · rcases spare with beyond | spareR
    · exact absurd ((arenaGrows_execute run).size.trans beyond) fun within => skipped (Or.inr within)
    · exact spareR.of_alike (final.piece id fun set => skipped set.1) fun c => by rw [final.roster c]

end Again

end Move

end Chess
