import Chess.Proofs.Board.FromSetup

namespace Chess

/-! Move counts before play. A position set up from scratch, the standard start or one read from
a FEN text, counts no more than one move for any piece, and on each wing only the castle rook
may count none: setting a castling right marks every other rook of the wing as moved
(`Seeded.standard`, `Seeded.ofFen`). -/

namespace Board

variable {b x y : Board}

def FreshWing (b : Board) (c : Color) (side : CastleSide) : Prop :=
  ∀ r ∈ b.wingRooks c side, (b.piece r).moveCount = 0 → b.castleRook? c side = some r

/-- Move counts as a position set up before play has them: at most one move for any piece, and
on each wing none only for the castle rook. -/
structure Seeded (b : Board) : Prop where
  small : ∀ id, (b.piece id).moveCount ≤ 1
  wings : ∀ c side, b.FreshWing c side

/-! ### Counts through setup -/

theorem moveCount_empty (id : PieceId) : (empty.piece id).moveCount = 0 := by
  have none : empty.piece? id = none := by
    simp [piece?, empty]
  rw [piece, none]
  rfl

theorem moveCount_spawn_eq_zero (unmoved : ∀ id, (x.piece id).moveCount = 0) (kind : PieceKind)
    (color : Color) (s : Square) (id : PieceId) : ((x.spawn kind color s).1.piece id).moveCount = 0 := by
  simp only [piece, piece?_spawn]
  split
  · rfl
  · exact unmoved id

theorem moveCount_spawnAll : ∀ (placements : List (PieceKind × Color × Square)) {x : Board},
    (∀ id, (x.piece id).moveCount = 0) →
      ∀ id, ((placements.foldl (fun b e => (b.spawn e.1 e.2.1 e.2.2).1) x).piece id).moveCount = 0
  | [], _, unmoved => unmoved
  | _ :: rest, _, unmoved => moveCount_spawnAll rest (moveCount_spawn_eq_zero unmoved _ _ _)

theorem moveCount_placeFromSetup {st : Setup} {s : Square}
    (unmoved : ∀ id, (x.piece id).moveCount = 0) (placed : placeFromSetup st x s = .ok y) (id : PieceId) :
    (y.piece id).moveCount = 0 := by
  unfold placeFromSetup at placed
  dsimp only at placed
  split at placed
  · cases placed
    exact unmoved id
  split at placed
  · obtain ⟨⟨z, new⟩, stood, taken⟩ := Except.bind_eq_ok.mp placed
    cases taken
    obtain ⟨-, -, -, -, rfl, -⟩ := placePiece_eq_ok stood
    rw [moveCount_piece_regenerate]
    exact moveCount_spawn_eq_zero unmoved _ _ _ id
  · cases placed

theorem moveCount_markMoved_le (small : ∀ id, (x.piece id).moveCount ≤ 1) :
    ∀ (rooks : List PieceId) (id : PieceId), ((markMoved x rooks).piece id).moveCount ≤ 1 := by
  intro rooks
  induction rooks generalizing x with
  | nil => exact small
  | cons r rooks ih =>
    refine ih fun id => ?_
    simp only [piece, piece?_modifyPiece]
    split
    · cases found : x.piece? id with
      | none => decide
      | some p =>
        have before := small id
        simp only [piece, found, Option.getD_some] at before
        simp only [Option.map_some, Option.getD_some, max]
        split <;> first | exact before | decide
    · exact small id

theorem moveCount_applyCastleRights_le {c : Color} {side : CastleSide} {allowed : Bool}
    (small : ∀ id, (x.piece id).moveCount ≤ 1) (applied : x.applyCastleRights c side allowed = .ok y)
    (id : PieceId) : (y.piece id).moveCount ≤ 1 := by
  rcases applyCastleRights_eq_ok applied with ⟨-, rfl⟩ | ⟨-, k, r, -, -, rfl⟩
  · exact moveCount_markMoved_le small _ id
  · have zeroed (z : Board) (t : PieceId) (counts : ∀ id, (z.piece id).moveCount ≤ 1) :
        ∀ id, ((z.modifyPiece t fun p => { p with moveCount := 0 }).piece id).moveCount ≤ 1 := by
      intro id
      simp only [piece, piece?_modifyPiece]
      split
      · cases z.piece? id
        · decide
        · simp
      · exact counts id
    exact zeroed _ r (zeroed _ k (moveCount_markMoved_le small _)) id

/-! ### Wings through setup -/

theorem FreshWing.of_applyCastleRights (coherent : x.Coherent) {c : Color} {side : CastleSide}
    {allowed : Bool} (applied : x.applyCastleRights c side allowed = .ok y) : y.FreshWing c side := by
  have recount := Recounted.applyCastleRights applied
  intro r' member' unmoved
  rw [recount.wingRooks] at member'
  have found : (x.piece? r').isSome := by
    obtain ⟨s, held, -⟩ := occupant_of_mem_wingRooks member'
    obtain ⟨p, found, -⟩ := coherent.piece?_of_occupant held
    simp [found]
  rcases applyCastleRights_eq_ok applied with ⟨-, rfl⟩ | ⟨-, k, r, king, rook, rfl⟩
  · exact absurd unmoved (moveCount_markMoved_ne_zero found member')
  · rw [castleRook?, recount.wingRooks]
    by_cases castle : r' = r
    · subst castle
      exact rook
    · have kingOut : r' ≠ k := by
        rintro rfl
        exact coherent.king_ne_of_mem_wingRooks member' king
      rw [piece_modifyPiece_of_ne _ castle, piece_modifyPiece_of_ne _ kingOut] at unmoved
      have inner : r' ∈ (x.wingRooks c side).drop 1 := by
        obtain ⟨first, rest, wing⟩ := List.exists_cons_of_ne_nil (List.ne_nil_of_mem member')
        rw [castleRook?, wing] at rook
        rw [wing] at member' ⊢
        simp only [List.head?_cons, Option.some.injEq] at rook
        subst rook
        simpa [castle] using member'
      exact absurd unmoved (moveCount_markMoved_ne_zero found inner)

theorem FreshWing.applyCastleRights {c : Color} {side : CastleSide} (fresh : x.FreshWing c side)
    (coherent : x.Coherent) {c' : Color} {side' : CastleSide} (differ : (c', side') ≠ (c, side))
    {allowed : Bool} (applied : x.applyCastleRights c' side' allowed = .ok y) : y.FreshWing c side := by
  have recount := Recounted.applyCastleRights applied
  intro r member unmoved
  rw [recount.wingRooks] at member
  have rookOut : r ∉ x.wingRooks c' side' := coherent.not_mem_wingRooks differ.symm member
  rw [castleRook?, recount.wingRooks]
  rcases moveCount_applyCastleRights applied rookOut with same | ⟨king, -⟩
  · exact fresh r member (same ▸ unmoved)
  · exact absurd king (coherent.king_ne_of_mem_wingRooks member)

theorem FreshWing.regenerate {c : Color} {side : CastleSide} (fresh : b.FreshWing c side) :
    b.regenerate.FreshWing c side := by
  have agree := Agree.of_bare (bare_regenerate b)
  intro r member unmoved
  rw [agree.castleRook?]
  rw [agree.wingRooks] at member
  exact fresh r member (by rwa [moveCount_piece_regenerate] at unmoved)

/-! ### The standard start and positions read from a text -/

theorem Seeded.ofSetup {st : Setup} (built : Board.ofSetup st = .ok b) : b.Seeded := by
  obtain ⟨y, placing, finished⟩ := Except.bind_eq_ok.mp built
  have placed := placed_of_ofSetup placing
  have unmoved : ∀ id, (y.piece id).moveCount = 0 :=
    Except.foldlM_induction (P := fun x => ∀ id, (x.piece id).moveCount = 0)
      (fun _ _ _ counts step => moveCount_placeFromSetup counts step) setupOrder empty y
      moveCount_empty placing
  rw [finishSetup_eq] at finished
  obtain ⟨z, granting, regenerated⟩ := Except.bind_eq_ok.mp finished
  cases regenerated
  have small : ∀ id, (z.piece id).moveCount ≤ 1 :=
    Except.foldlM_induction (P := fun x => ∀ id, (x.piece id).moveCount ≤ 1)
      (fun _ _ _ counts step => moveCount_applyCastleRights_le counts step) _ _ z
      (fun id => by
        show (y.piece id).moveCount ≤ 1
        rw [unmoved id]
        decide) granting
  have wings := foldlM_grantStep_keeps st (fun x w => x.FreshWing w.1 w.2)
    (fun _ wellFormed step => FreshWing.of_applyCastleRights wellFormed.toCoherent step)
    (fun w v wellFormed differ fresh step => fresh.applyCastleRights wellFormed.toCoherent
      (by simpa using differ) step)
    _ [] (placed.wellFormed.of_settings st.side st.enPassant st.halfmove st.fullmove) (by decide)
    (by simp) granting
  refine ⟨fun id => ?_, fun c side => ?_⟩
  · rw [moveCount_piece_regenerate]
    exact small id
  · exact (wings (c, side) (by cases c <;> cases side <;> simp)).regenerate

theorem Seeded.standard : Board.standard.Seeded := by
  have unmoved (id : PieceId) : (Board.standard.piece id).moveCount = 0 := by
    rw [standard_eq_spawnAll, moveCount_piece_regenerate]
    exact moveCount_spawnAll standardPlacements moveCount_empty id
  refine ⟨fun id => by rw [unmoved id]; decide, fun c side r member _ => ?_⟩
  have short : (Board.standard.wingRooks c side).length ≤ 1 := by
    cases c <;> cases side <;> decide +kernel
  obtain ⟨first, rest, wing⟩ := List.exists_cons_of_ne_nil (List.ne_nil_of_mem member)
  rw [wing] at member short
  obtain rfl : rest = [] := List.eq_nil_of_length_eq_zero (by simpa using short)
  obtain rfl := List.mem_singleton.mp member
  simp [castleRook?, wing]

theorem Seeded.ofFen {text : String} (read : Board.ofFen text = .ok b) : b.Seeded := by
  obtain ⟨st, -, built⟩ := Except.bind_eq_ok.mp read
  split at built
  · cases built
    exact Seeded.ofSetup (by assumption)
  · cases built

end Board

end Chess
