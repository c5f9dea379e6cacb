import Chess.Proofs.Move.Promoted

namespace Chess

/-! Boards that come back to a position. A history that leaves a node and comes back to it
does not find the very board it left: promotions played and taken back on other lines leave
their pieces in the arena as spare pieces, orphans that are no pawns. The board it finds
returns to the one it left: it restores it, its arena has grown, it holds every piece of the
first alike but the spare ones, and every piece beyond the first arena or spare in it is spare
in it too. Two boards returning to one position return to each other, the later to the
earlier; and taking a move back from a board that returns to the board the move was played to
returns to the board it was played on. -/

namespace Board

variable {a b x y : Board} {id : PieceId}

def Spare (b : Board) (id : PieceId) : Prop :=
  (b.piece id).kind ≠ .pawn ∧ b.Orphan id (b.piece id).kind (b.piece id).color

theorem Orphan.spare {kind : PieceKind} {color : Color} (orphan : b.Orphan id kind color)
    (notPawn : kind ≠ .pawn) : b.Spare id := by
  obtain ⟨p, found, rfl, rfl, rest⟩ := orphan
  rw [Spare, piece_eq_of_piece? _ found]
  exact ⟨notPawn, p, found, rfl, rfl, rest⟩

theorem Spare.lt_size (spare : b.Spare id) : id.index < b.pieces.size := by
  obtain ⟨-, p, found, -⟩ := spare
  exact Coherent.lt_size_of_piece? found

theorem Spare.not_keeps (spare : b.Spare id) (coherent : b.Coherent) : ¬b.Keeps id := by
  rintro (tracked | ⟨p, found, pawn⟩)
  · exact spare.2.not_tracks coherent tracked
  · exact spare.1 (by rw [piece_eq_of_piece? _ found, pawn])

theorem Spare.of_alike (spare : x.Spare id)
    (piece : (y.piece? id).map Piece.bare = (x.piece? id).map Piece.bare)
    (roster : ∀ c, id ∈ y.roster c ↔ id ∈ x.roster c) : y.Spare id := by
  have bare : (y.piece id).bare = (x.piece id).bare := Piece.bare_getD piece
  have kind : (y.piece id).kind = (x.piece id).kind := by
    rw [← Piece.bare_kind, bare, Piece.bare_kind]
  have color : (y.piece id).color = (x.piece id).color := by
    rw [← Piece.bare_color, bare, Piece.bare_color]
  rw [Spare, kind, color]
  exact ⟨spare.1, spare.2.of_same piece (roster _)⟩

theorem Restores.keeps (restores : x.Restores y) (keeps : x.Keeps id) : y.Keeps id := by
  rcases keeps with tracked | ⟨p, found, pawn⟩
  · exact Or.inl ((restores.toAgree.tracks_iff id).mp tracked)
  · obtain ⟨q, found', bare⟩ := Option.map_eq_some_iff.mp (restores.pawn id p found pawn)
    exact Or.inr ⟨q, found', by rw [← Piece.bare_kind, bare, Piece.bare_kind, pawn]⟩

/-- The board `b` returns to the position of `a`: it restores `a`, its arena grows out of that
of `a`, it holds every piece of `a` alike but the spare ones, and every piece it has beyond the
arena of `a`, or spare in `a`, is spare. -/
structure Returns (a b : Board) : Prop extends Restores a b where
  grows : a.ArenaGrows b
  alike : ∀ id p, a.piece? id = some p → ¬a.Spare id →
    (b.piece? id).map Piece.bare = some p.bare
  spare : ∀ id, id.index < b.pieces.size → a.pieces.size ≤ id.index ∨ a.Spare id → b.Spare id

namespace Returns

variable {c : Board}

theorem alikeBut (returns : a.Returns b) :
    AlikeBut (fun id => a.Spare id ∨ a.pieces.size ≤ id.index) b a := by
  refine ⟨fun s => (returns.toAgree.occupant s).symm, fun c => (returns.roster c).symm,
    fun c => (returns.king c).symm, fun id kept => ?_⟩
  cases found : a.piece? id with
  | none =>
    have beyond : a.pieces.size ≤ id.index := by simpa [piece?] using found
    exact absurd (Or.inr beyond) kept
  | some p => rw [returns.alike id p found fun spare => kept (Or.inl spare), Option.map_some]

theorem refl (a : Board) : a.Returns a :=
  ⟨Restores.refl a, ArenaGrows.refl a, fun _ _ found _ => by simp [found],
    fun _ inside spare => spare.resolve_left (by omega)⟩

theorem not_spare (returns : a.Returns b) {p : Piece} (found : a.piece? id = some p)
    (plain : ¬a.Spare id) : ¬b.Spare id := fun spare =>
  plain (spare.of_alike (by rw [found, returns.alike id p found plain, Option.map_some]) fun c => by
    rw [returns.roster c])

theorem trans (first : a.Returns b) (second : b.Returns c) : a.Returns c := by
  refine ⟨first.toRestores.trans second.toRestores, first.grows.trans second.grows,
    fun id p found plain => ?_, fun id inside spare => ?_⟩
  · obtain ⟨q, foundB, bare⟩ := Option.map_eq_some_iff.mp (first.alike id p found plain)
    rw [second.alike id q foundB (first.not_spare found plain), bare]
  · by_cases old : id.index < b.pieces.size
    · exact second.spare id inside (Or.inr (first.spare id old spare))
    · exact second.spare id inside (Or.inl (not_lt.mp old))

theorem back (returns : a.Returns b) {p : Piece} (found : b.piece? id = some p)
    (plain : ¬b.Spare id) : ∃ q, a.piece? id = some q ∧ ¬a.Spare id ∧ q.bare = p.bare := by
  have inside := Coherent.lt_size_of_piece? found
  have old : id.index < a.pieces.size := by
    by_contra beyond
    exact plain (returns.spare id inside (Or.inl (not_lt.mp beyond)))
  have plainA : ¬a.Spare id := fun spare => plain (returns.spare id inside (Or.inr spare))
  cases foundA : a.piece? id with
  | none => exact absurd (by simpa [piece?] using foundA) (not_le.mpr old)
  | some q =>
    have same := returns.alike id q foundA plainA
    rw [found, Option.map_some, Option.some.injEq] at same
    exact ⟨q, rfl, plainA, same.symm⟩

theorem sibling (first : a.Returns x) (second : a.Returns y) (grows : x.ArenaGrows y) :
    x.Returns y := by
  have alikeY : ∀ id p, x.piece? id = some p → ¬x.Spare id →
      (y.piece? id).map Piece.bare = some p.bare := by
    intro id p found plain
    obtain ⟨q, foundA, plainA, bare⟩ := first.back found plain
    rw [second.alike id q foundA plainA, bare]
  refine ⟨⟨first.toSame.symm.trans second.toSame, first.halfmove.symm.trans second.halfmove,
    first.fullmove.symm.trans second.fullmove, first.played.symm.trans second.played,
    first.lineage.symm.trans second.lineage, fun id p found pawn => alikeY id p found
      fun spare => spare.1 (by rw [piece_eq_of_piece? _ found, pawn])⟩,
    grows, alikeY, fun id inside spare => ?_⟩
  by_cases plain : ∃ q, a.piece? id = some q ∧ ¬a.Spare id
  · obtain ⟨q, foundA, plainA⟩ := plain
    exfalso
    rcases spare with beyond | spareX
    · exact absurd ((Coherent.lt_size_of_piece? foundA).trans_le first.grows.size) (not_lt.mpr beyond)
    · exact first.not_spare foundA plainA spareX
  · apply second.spare id inside
    cases foundA : a.piece? id with
    | none => exact Or.inl (by simpa [piece?] using foundA)
    | some q => exact Or.inr (not_not.mp fun plainA => plain ⟨q, foundA, plainA⟩)

end Returns

theorem Keeps.lt_size (keeps : b.Keeps id) (coherent : b.Coherent) : id.index < b.pieces.size := by
  rcases keeps with tracked | ⟨p, found, -⟩
  · exact coherent.lt_size_of_tracks tracked
  · exact Coherent.lt_size_of_piece? found

end Board

namespace Move

variable {m : Move} {v y : Board} {r : Move × Board} {id : PieceId}

@[simp] theorem size_advanceClocks (m : Move) (b : Board) :
    (m.advanceClocks b).pieces.size = b.pieces.size := rfl

section Arena

/-! What a play does to the arena: it keeps every spare piece but the one it promotes to, and
that piece was spare before or is the one new piece. -/

theorem promotedPiece_spec (m : Move) (x : Board) (kind : PieceKind) :
    ((m.promotedPiece x kind).1 = x ∧ x.Orphan (m.promotedPiece x kind).2 kind m.color) ∨
      m.promotedPiece x kind = x.createPiece kind m.color := by
  unfold promotedPiece
  split
  · split
    · rename_i orphan
      exact Or.inl ⟨rfl, Board.isOrphan_iff.mp orphan⟩
    · exact Or.inr rfl
  · exact Or.inr rfl

variable (coherent : v.Coherent) (settled : v.Settled) (fits : m.Fits v)
  (run : m.execute v = .ok r)
include coherent settled fits run

theorem execute_arena :
    (r.2.pieces.size = v.pieces.size ∧ ∀ q, r.1.promoted = some q → v.Spare q) ∨
      (r.2.pieces.size = v.pieces.size + 1 ∧ r.1.promoted = some ⟨v.pieces.size⟩) := by
  obtain ⟨hop, checked, board, outcome, move⟩ := execute_eq_ok run
  have size : r.2.pieces.size = (m.playSteps v hop).2.pieces.size := by
    rw [board]
    simp
  have promotedR : r.1.promoted = (m.playSteps v hop).1.promoted := by rw [move]
  rw [size, promotedR]
  unfold playSteps
  cases promo : (m.complete v hop).promotion with
  | none =>
    rw [promote_of_promotion_none promo]
    refine Or.inl ⟨by simp, fun q held => ?_⟩
    rw [promoted_complete, promoted_eq_none fits promo] at held
    cases held
  | some k =>
    obtain ⟨castle, coherentX, landed⟩ := placed_of_promotion coherent settled fits checked promo
    have notPawn : k ≠ .pawn := fun pawn => by
      have target := (promotion_complete_eq_some fits promo).1
      rw [pawn] at target
      cases target
    rw [promote_of_promotion_some promo]
    rcases promotedPiece_spec (m.complete v hop)
        ((m.complete v hop).place ((m.complete v hop).advanceClocks v)) k with ⟨same, orphan⟩ | created
    · refine Or.inl ⟨by simp [same], fun q held => ?_⟩
      rw [Option.some.injEq] at held
      rw [held] at orphan
      have untracked := orphan.not_tracks coherentX
      have mover : q ≠ (m.complete v hop).piece := fun same => untracked (by
        rw [same, piece_complete]
        exact Board.tracks_of_occupant landed)
      have casualty : ∀ c, (m.complete v hop).casualty = some c → q ≠ c.1 := by
        rintro ⟨c, s⟩ taken same
        rw [casualty_complete] at taken
        obtain ⟨col, listed⟩ := coherent.listed
          (Board.tracks_of_occupant (findCasualty_eq_some taken).2.1)
        exact untracked (Board.tracks_of_roster (c := col) (by
          rw [same, roster_place, roster_advanceClocks]
          exact listed))
      have rook : ∀ hop' side, (m.complete v hop).castleRook = some hop' →
          (m.complete v hop).castle = some side → q ≠ hop'.rook := by
        intro hop' side _ castled
        rw [castle_complete, castle] at castled
        cases castled
      have before : v.Orphan q k (m.complete v hop).color :=
        orphan.of_same (by rw [piece?_place_of_ne mover rook casualty, piece?_advanceClocks])
          (by rw [roster_place, roster_advanceClocks])
      exact before.spare notPawn
    · refine Or.inr ⟨by simp [created, Board.createPiece], by simp [created, Board.createPiece]⟩

theorem spare_execute (spare : v.Spare id) (promoted : r.1.promoted ≠ some id) : r.2.Spare id := by
  have grows := arenaGrows_execute run
  refine ⟨by rw [grows.kind id spare.lt_size]; exact spare.1, ?_⟩
  rw [grows.kind id spare.lt_size, grows.color id spare.lt_size]
  exact orphan_execute coherent settled fits run spare.2 promoted

theorem spare_of_execute (spare : r.2.Spare id) (old : id.index < v.pieces.size) : v.Spare id := by
  have undoable := undoable_execute coherent settled fits run
  have unkept := spare.not_keeps (coherent.execute settled fits run)
  have apart : ∀ id', v.Keeps id' → id ≠ id' := fun id' keeps same =>
    unkept (same ▸ undoable.keeps id' keeps)
  obtain ⟨piece, roster⟩ := untouched_execute run (apart _ undoable.mover)
    (fun hop side rook castle => apart _ (undoable.rook hop side rook castle))
    (fun c casualty => apart _ (undoable.casualty c casualty))
    (fun promoted => unkept (Or.inl (undoable.promoted id promoted).1)) old
  exact spare.of_alike piece.symm fun c => (roster c).symm

theorem promoted_execute {q : PieceId} (held : r.1.promoted = some q) :
    ∃ k, r.1.promotion = some k ∧ k ≠ .pawn ∧ (r.2.piece q).kind = k ∧
      (r.2.piece q).color = r.1.color := by
  have fitsR := Fits.played fits run
  obtain ⟨k, promotion⟩ := Option.isSome_iff_exists.mp (fitsR.promoted (by simp [held]))
  obtain ⟨target, pawn, last⟩ := fitsR.promotion k promotion
  obtain ⟨hop, -, -, outcome, move⟩ := execute_eq_ok run
  obtain ⟨promotedP, fields⟩ := playSteps_fst (m := m) (w := v) hop
  have kind : r.1.kind = m.kind := by simp [move, fields]
  have color : r.1.color = m.color := by simp [move, fields]
  have destination : r.1.target = m.target := by simp [move, fields]
  rw [kind] at pawn
  rw [destination, color] at last
  obtain ⟨q', k', promotion', promoted', -, kindQ, colorQ, -⟩ :=
    promotes_execute coherent settled fits pawn last run
  rw [held, Option.some.injEq] at promoted'
  rw [promotion, Option.some.injEq] at promotion'
  subst promoted' promotion'
  refine ⟨k, promotion, fun same => ?_, kindQ, colorQ.trans color.symm⟩
  rw [same] at target
  cases target

end Arena

section TakeBack

theorem spare_unexecute {t : Move × Board} (back : m.unexecute y = .ok t) (spare : y.Spare id)
    (mover : id ≠ m.piece)
    (rook : ∀ hop side, m.castleRook = some hop → m.castle = some side → id ≠ hop.rook)
    (casualty : ∀ c, m.casualty = some c → id ≠ c.1) (promoted : m.promoted ≠ some id) :
    t.2.Spare id := by
  have grows := arenaGrows_unexecute back
  refine ⟨by rw [grows.kind id spare.lt_size]; exact spare.1, ?_⟩
  rw [grows.kind id spare.lt_size, grows.color id spare.lt_size]
  exact orphan_unexecute back mover rook casualty promoted spare.2

theorem unexecute_again (coherent : v.Coherent) (settled : v.Settled) (fits : m.Fits v)
    (run : m.execute v = .ok r) {b : Board} (returns : r.2.Returns b) (coherentB : b.Coherent) :
    ∃ t, r.1.unexecute b = .ok t ∧ t.1 = { r.1 with executed := false } ∧ v.Returns t.2 := by
  have undoable := undoable_execute coherent settled fits run
  have coherentR := coherent.execute settled fits run
  obtain ⟨t, undone, taken, restores, size, -, -⟩ :=
    undoable.unexecute coherent settled returns.toRestores
  have keptR : ∀ id, r.2.Keeps id → ¬(r.2.Spare id ∨ r.2.pieces.size ≤ id.index) :=
    fun id keeps skipped => skipped.elim (fun spare => spare.not_keeps coherentR keeps)
      fun beyond => not_le.mpr (keeps.lt_size coherentR) beyond
  have apartB : ∀ id, b.Spare id → ∀ id', v.Keeps id' → id ≠ id' := fun id spare id' keeps same =>
    spare.not_keeps coherentB (same ▸ returns.toRestores.keeps (undoable.keeps id' keeps))
  obtain ⟨-, -, -, rfl⟩ := unexecute_eq_ok.mp undone
  have start : Board.AlikeBut (fun id => r.2.Spare id ∨ r.2.pieces.size ≤ id.index)
      { b with played := b.played.pop, side := r.1.color } r.2 :=
    ((AlikeBut.of_placement (x := { b with played := b.played.pop, side := r.1.color }) (y := b)
      rfl rfl rfl rfl rfl rfl).trans returns.alikeBut).mono fun id skipped => by simpa using skipped
  have unplaced := ((start.unpromote r.1 fun q promoted =>
      keptR q (Or.inl (undoable.promoted q promoted).1)).unplace r.1
    (keptR _ (undoable.keeps _ undoable.mover))
    fun hop side rook castle => keptR _ (undoable.keeps _ (undoable.rook hop side rook castle))).trans
    undoable.undo
  have final := (@Board.AlikeBut.of_bare (fun _ => False) _ _ (Board.bare_regenerate _)).trans
    ((AlikeBut.of_placement (y := r.1.unplace (r.1.unpromote
      { b with played := b.played.pop, side := r.1.color }))
      (x := { r.1.unplace (r.1.unpromote { b with played := b.played.pop, side := r.1.color }) with
        enPassant := r.1.prevEnPassant, halfmove := r.1.prevHalfmove,
        fullmove := r.1.prevFullmove }) rfl rfl rfl rfl rfl rfl).trans unplaced)
  have grows := (arenaGrows_execute run).trans (returns.grows.trans (arenaGrows_unexecute undone))
  refine ⟨_, undone, rfl, ⟨restores, grows, fun id p found plain => ?_, fun id inside spare => ?_⟩⟩
  · have old := Board.Coherent.lt_size_of_piece? found
    refine (final.piece id ?_).trans (by rw [found, Option.map_some])
    intro skipped
    simp only [false_or] at skipped
    rcases skipped with (spareR | beyond) | promoted
    · exact plain (spare_of_execute coherent settled fits run spareR old)
    · exact not_le.mpr (old.trans_le (arenaGrows_execute run).size) beyond
    · rcases execute_arena coherent settled fits run with ⟨-, spares⟩ | ⟨-, fresh⟩
      · exact plain (spares id promoted)
      · rw [promoted, Option.some.injEq] at fresh
        rw [fresh] at old
        exact Nat.lt_irrefl _ old
  · by_cases promoted : r.1.promoted = some id
    · obtain ⟨k, -, notPawn, kindR, -⟩ := promoted_execute coherent settled fits run promoted
      have standing : b.occupant r.1.target = some id := by
        rw [← returns.toAgree.occupant]
        obtain ⟨hop, -, -, outcome, move⟩ := execute_eq_ok run
        obtain ⟨promotedP, fields⟩ := playSteps_fst (m := m) (w := v) hop
        have destination : r.1.target = m.target := by simp [move, fields]
        rw [destination]
        exact occupant_promoted_execute coherent settled fits run promoted
      obtain ⟨p, found, square⟩ := coherentB.piece?_of_occupant standing
      have unkept : ¬v.Keeps id := (undoable.promoted id promoted).2
      have apart : ∀ id', v.Keeps id' → id ≠ id' := fun id' keeps same => unkept (same ▸ keeps)
      have orphan := orphan_unexecute_promoted undone coherentB promoted (apart _ undoable.mover)
        (fun hop side rook castle => apart _ (undoable.rook hop side rook castle))
        (fun c casualty => apart _ (undoable.casualty c casualty)) found square
      have inB := (returns.grows.kind id ((undoable.promoted id promoted).1 |> coherentR.lt_size_of_tracks))
      have kindB : p.kind = k := by
        rw [← kindR, ← inB, Board.piece_eq_of_piece? _ found]
      exact orphan.spare (kindB ▸ notPawn)
    · by_cases skipped : r.2.Spare id ∨ r.2.pieces.size ≤ id.index
      · have spareB := returns.spare id (by simpa [size] using inside) skipped.symm
        exact spare_unexecute undone spareB (apartB id spareB _ undoable.mover)
          (fun hop side rook castle => apartB id spareB _ (undoable.rook hop side rook castle))
          (fun c casualty => apartB id spareB _ (undoable.casualty c casualty)) promoted
      · have kept : ¬(False ∨ False ∨ (r.2.Spare id ∨ r.2.pieces.size ≤ id.index) ∨
            r.1.promoted = some id) := by
          simp only [false_or]
          rintro (held | held)
          · exact skipped held
          · exact promoted held
        rcases spare with beyond | spareV
        · exfalso
          rcases execute_arena coherent settled fits run with ⟨sizeR, -⟩ | ⟨sizeR, fresh⟩
          · exact skipped (Or.inr (sizeR ▸ beyond))
          · have last : id.index = v.pieces.size := by
              have := not_or.mp skipped
              omega
            exact promoted (by rw [fresh]; congr 1; cases id; simp_all)
        · exact spareV.of_alike (final.piece id kept) fun c => by rw [final.roster c]

end TakeBack

end Move

end Chess
