import Chess.Proofs.Board.Sight
import Mathlib

namespace Chess

namespace Board

/-! Boards that look alike to the movement rules. Regeneration of two coherent boards that show
one position, with the same castling rights, ends in boards that show the same sight on every
square and the same status up to the ids of the castling pieces: each pass keeps the relation,
and the count of legal moves, read over rosters in two different orders, is a sum over the
squares. -/

/-- Two boards that look alike to the movement rules: every square shows the same sight, and
side to move, en-passant file and status agree, castle plans up to the ids of king and rook. -/
structure Lookalike (x y : Board) : Prop where
  sight : ∀ s, x.sightOn s = y.sightOn s
  side : x.side = y.side
  enPassant : x.enPassant = y.enPassant
  status : x.status.sight = y.status.sight

def Idle (b : Board) (field : Piece → SquareSet) : Prop :=
  ∀ id, (b.piece id).square = none → field (b.piece id) = SquareSet.empty

@[simp] theorem sightOn_of_occupant_none {b : Board} {s : Square} (empty : b.occupant s = none) :
    b.sightOn s = none := by
  simp [sightOn, empty]

theorem rawReach_congr (b : Board) {p q : Piece} (square : p.square = q.square)
    (kind : p.kind = q.kind) (color : p.color = q.color) (captured : p.captured = q.captured) :
    b.rawReach p = b.rawReach q := by
  simp [Board.rawReach, square, kind, color, captured]

theorem piece?_modifyPiece_map (b : Board) (id : PieceId) (f : Piece → Piece) (t : PieceId) :
    (b.modifyPiece id f).piece? t = (b.piece? t).map fun p => if t = id then f p else p := by
  rw [piece?_modifyPiece]
  by_cases here : t = id <;> simp [here]

theorem Piece.sight_with_targets {p q : Piece} (same : p.sight = q.sight) (targets : SquareSet) :
    ({ p with targets } : Piece).sight = ({ q with targets } : Piece).sight := by
  obtain ⟨kind, color, -, guards, quiet, castleTargets⟩ := Sight.mk.inj same
  simp only [Piece.sight, kind, color, guards, quiet, castleTargets]

theorem Piece.sight_with_castleTargets {p q : Piece} (same : p.sight = q.sight)
    (castleTargets : SquareSet) :
    ({ p with castleTargets } : Piece).sight = ({ q with castleTargets } : Piece).sight := by
  obtain ⟨kind, color, targets, guards, quiet, -⟩ := Sight.mk.inj same
  simp only [Piece.sight, kind, color, targets, guards, quiet]

namespace Coherent

variable {b : Board}

theorem sightOn_of_occupant (coherent : b.Coherent) {s : Square} {id : PieceId}
    (held : b.occupant s = some id) : b.sightOn s = some (b.piece id).sight := by
  obtain ⟨p, found, -⟩ := coherent.piece?_of_occupant held
  simp [sightOn, held, found, piece_eq_of_piece? b found]

theorem sightOn_eq_none_iff (coherent : b.Coherent) (s : Square) :
    b.sightOn s = none ↔ b.occupant s = none := by
  cases held : b.occupant s with
  | none => simp [held]
  | some id => simp [coherent.sightOn_of_occupant held]

theorem sightOn_of_pieces (coherent : b.Coherent) {b' : Board} {F : PieceId → Piece → Piece}
    (occupant : ∀ s, b'.occupant s = b.occupant s)
    (pieces : ∀ t, b'.piece? t = (b.piece? t).map (F t)) (s : Square) :
    b'.sightOn s = (b.occupant s).map fun t => (F t (b.piece t)).sight := by
  cases held : b.occupant s with
  | none => simp [occupant, held]
  | some t =>
    obtain ⟨p, found, -⟩ := coherent.piece?_of_occupant held
    simp [sightOn, occupant, held, pieces, found, piece_eq_of_piece? b found]

theorem square_captured_of_occupant (coherent : b.Coherent) {s : Square} {id : PieceId}
    (held : b.occupant s = some id) :
    (b.piece id).square = some s ∧ (b.piece id).captured = false := by
  obtain ⟨p, found, square⟩ := coherent.piece?_of_occupant held
  rw [piece_eq_of_piece? b found]
  exact ⟨square, (coherent.standing id p s found square).1⟩

theorem square_eq_of_occupant (coherent : b.Coherent) {s t : Square} {id : PieceId}
    (first : b.occupant s = some id) (second : b.occupant t = some id) : s = t := by
  have square := coherent.piece_square_of_occupant first
  rw [coherent.piece_square_of_occupant second] at square
  exact (Option.some.inj square).symm

theorem eq_iff_of_occupant (coherent : b.Coherent) {s t : Square} {id id' : PieceId}
    (first : b.occupant s = some id) (second : b.occupant t = some id') : id = id' ↔ s = t := by
  constructor
  · rintro rfl
    exact coherent.square_eq_of_occupant first second
  · rintro rfl
    exact Option.some.inj (first.symm.trans second)

theorem mem_roster_iff_of_occupant (coherent : b.Coherent) {s : Square} {id : PieceId}
    (held : b.occupant s = some id) (c : Color) : id ∈ b.roster c ↔ (b.piece id).color = c := by
  constructor
  · exact coherent.color_of_roster
  · intro color
    obtain ⟨p, found, square⟩ := coherent.piece?_of_occupant held
    have enrolled := (coherent.standing id p s found square).2
    rwa [← piece_eq_of_piece? b found, color] at enrolled

theorem occupant_of_square (coherent : b.Coherent) {id : PieceId} {s : Square}
    (square : (b.piece id).square = some s) : b.occupant s = some id := by
  cases found : b.piece? id with
  | none => simp [Board.piece, found] at square
  | some p =>
    rw [piece_eq_of_piece? b found] at square
    exact (coherent.occupant_iff s id).mpr ⟨p, found, square⟩

theorem any_roster_iff (coherent : b.Coherent) (c : Color) {f : PieceId → Bool}
    (idle : ∀ id, (b.piece id).square = none → f id = false) :
    (b.roster c).toList.any f = true ↔
      ∃ s id, b.occupant s = some id ∧ (b.piece id).color = c ∧ f id = true := by
  rw [List.any_eq_true]
  constructor
  · rintro ⟨id, member, holds⟩
    have member := Array.mem_toList_iff.mp member
    cases square : (b.piece id).square with
    | none => simp [idle id square] at holds
    | some s =>
      exact ⟨s, id, coherent.occupant_of_square square,
        coherent.color_of_roster member, holds⟩
  · rintro ⟨s, id, held, color, holds⟩
    exact ⟨id, Array.mem_toList_iff.mpr ((coherent.mem_roster_iff_of_occupant held c).mpr color),
      holds⟩

theorem all_roster_iff (coherent : b.Coherent) (c : Color) {f : PieceId → Bool}
    (idle : ∀ id, (b.piece id).square = none → f id = true) :
    (b.roster c).toList.all f = true ↔
      ∀ s id, b.occupant s = some id → (b.piece id).color = c → f id = true := by
  rw [List.all_eq_true]
  constructor
  · intro holds s id held color
    exact holds id (Array.mem_toList_iff.mpr ((coherent.mem_roster_iff_of_occupant held c).mpr color))
  · intro holds id member
    have member := Array.mem_toList_iff.mp member
    cases square : (b.piece id).square with
    | none => exact idle id square
    | some s =>
      exact holds s id (coherent.occupant_of_square square)
        (coherent.color_of_roster member)

end Coherent

theorem sightOn_congr_of_pieces {x y x' y' : Board} (cx : x.Coherent) (cy : y.Coherent)
    {F G : PieceId → Piece → Piece} (paired : ∀ s, x.occupant s = none ↔ y.occupant s = none)
    (occupantX : ∀ s, x'.occupant s = x.occupant s)
    (piecesX : ∀ t, x'.piece? t = (x.piece? t).map (F t))
    (occupantY : ∀ s, y'.occupant s = y.occupant s)
    (piecesY : ∀ t, y'.piece? t = (y.piece? t).map (G t))
    (each : ∀ s ix iy, x.occupant s = some ix → y.occupant s = some iy →
      (F ix (x.piece ix)).sight = (G iy (y.piece iy)).sight) (s : Square) :
    x'.sightOn s = y'.sightOn s := by
  rw [cx.sightOn_of_pieces occupantX piecesX, cy.sightOn_of_pieces occupantY piecesY]
  cases hx : x.occupant s with
  | none => simp [(paired s).mp hx]
  | some ix =>
    cases hy : y.occupant s with
    | none => simp [(paired s).mpr hy] at hx
    | some iy => simp [each s ix iy hx hy]

theorem SameView.occupant_eq_none_iff {x y : Board} (view : SameView x y) (s : Square) :
    x.occupant s = none ↔ y.occupant s = none := by
  have occupied := view.occupied s
  rw [← Option.not_isSome_iff_eq_none, ← Option.not_isSome_iff_eq_none, occupied]

theorem SameView.occupant_isNone {x y : Board} (view : SameView x y) (s : Square) :
    (x.occupant s).isNone = (y.occupant s).isNone := by
  rw [Bool.eq_iff_iff, Option.isNone_iff_eq_none, Option.isNone_iff_eq_none,
    view.occupant_eq_none_iff]

theorem SameView.kind_color {x y : Board} (view : SameView x y) {s : Square} {ix iy : PieceId}
    (hx : x.occupant s = some ix) (hy : y.occupant s = some iy) :
    (x.piece ix).kind = (y.piece iy).kind ∧ (x.piece ix).color = (y.piece iy).color := by
  rcases view.pieceAt? s with ⟨empty, -⟩ | ⟨p, q, px, qy, kind, color⟩
  · simp [Board.pieceAt?, hx] at empty
  · simp only [Board.pieceAt?, hx, hy, Option.map_some, Option.some.injEq] at px qy
    rw [px, qy]
    exact ⟨kind, color⟩

namespace Lookalike

variable {x y : Board}

theorem symm (look : Lookalike x y) : Lookalike y x :=
  ⟨fun s => (look.sight s).symm, look.side.symm, look.enPassant.symm, look.status.symm⟩

theorem of_bare (look : Lookalike x y) {x' y' : Board} (sameX : x'.bare = x.bare)
    (sameY : y'.bare = y.bare) (sight : ∀ s, x'.sightOn s = y'.sightOn s)
    (status : x'.status.sight = y'.status.sight) : Lookalike x' y' :=
  ⟨sight, (side_of_bare sameX).trans (look.side.trans (side_of_bare sameY).symm),
    (enPassant_of_bare sameX).trans (look.enPassant.trans (enPassant_of_bare sameY).symm), status⟩

theorem occupant_eq_none_iff (look : Lookalike x y) (cx : x.Coherent) (cy : y.Coherent)
    (s : Square) : x.occupant s = none ↔ y.occupant s = none := by
  rw [← cx.sightOn_eq_none_iff, ← cy.sightOn_eq_none_iff, look.sight]

theorem sight_piece (look : Lookalike x y) (cx : x.Coherent) (cy : y.Coherent) {s : Square}
    {ix iy : PieceId} (hx : x.occupant s = some ix) (hy : y.occupant s = some iy) :
    (x.piece ix).sight = (y.piece iy).sight := by
  have sight := look.sight s
  rw [cx.sightOn_of_occupant hx, cy.sightOn_of_occupant hy] at sight
  exact Option.some.inj sight

theorem exists_occupant (look : Lookalike x y) (cx : x.Coherent) (cy : y.Coherent) {s : Square}
    {ix : PieceId} (hx : x.occupant s = some ix) : ∃ iy, y.occupant s = some iy := by
  cases hy : y.occupant s with
  | none =>
    rw [← look.occupant_eq_none_iff cx cy] at hy
    simp [hx] at hy
  | some iy => exact ⟨iy, rfl⟩

theorem toSameView (look : Lookalike x y) (cx : x.Coherent) (cy : y.Coherent) : SameView x y := by
  refine ⟨fun s => ?_, look.side, look.enPassant⟩
  cases hx : x.occupant s with
  | none =>
    left
    simp [Board.pieceAt?, hx, (look.occupant_eq_none_iff cx cy s).mp hx]
  | some ix =>
    obtain ⟨iy, hy⟩ := look.exists_occupant cx cy hx
    have sight := look.sight_piece cx cy hx hy
    right
    exact ⟨x.piece ix, y.piece iy, by simp [Board.pieceAt?, hx], by simp [Board.pieceAt?, hy],
      congrArg Sight.kind sight, congrArg Sight.color sight⟩

theorem occupant_at_iff (look : Lookalike x y) (cx : x.Coherent) (cy : y.Coherent) (s : Square)
    {P Q : PieceId → Prop}
    (each : ∀ ix iy, x.occupant s = some ix → y.occupant s = some iy → (P ix ↔ Q iy)) :
    (∃ id, x.occupant s = some id ∧ P id) ↔ (∃ id, y.occupant s = some id ∧ Q id) := by
  constructor
  · rintro ⟨ix, hx, holds⟩
    obtain ⟨iy, hy⟩ := look.exists_occupant cx cy hx
    exact ⟨iy, hy, (each ix iy hx hy).mp holds⟩
  · rintro ⟨iy, hy, holds⟩
    obtain ⟨ix, hx⟩ := look.symm.exists_occupant cy cx hy
    exact ⟨ix, hx, (each ix iy hx hy).mpr holds⟩

theorem exists_occupant_iff (look : Lookalike x y) (cx : x.Coherent) (cy : y.Coherent)
    {P Q : Square → PieceId → Prop}
    (each : ∀ s ix iy, x.occupant s = some ix → y.occupant s = some iy → (P s ix ↔ Q s iy)) :
    (∃ s id, x.occupant s = some id ∧ P s id) ↔ (∃ s id, y.occupant s = some id ∧ Q s id) :=
  exists_congr fun s => look.occupant_at_iff cx cy s (each s)

theorem forall_occupant_iff (look : Lookalike x y) (cx : x.Coherent) (cy : y.Coherent)
    {P Q : Square → PieceId → Prop}
    (each : ∀ s ix iy, x.occupant s = some ix → y.occupant s = some iy → (P s ix ↔ Q s iy)) :
    (∀ s id, x.occupant s = some id → P s id) ↔ (∀ s id, y.occupant s = some id → Q s id) := by
  constructor
  · intro holds s iy hy
    obtain ⟨ix, hx⟩ := look.symm.exists_occupant cy cx hy
    exact (each s ix iy hx hy).mp (holds s ix hx)
  · intro holds s ix hx
    obtain ⟨iy, hy⟩ := look.exists_occupant cx cy hx
    exact (each s ix iy hx hy).mpr (holds s iy hy)

theorem any_roster_contains (look : Lookalike x y) (cx : x.Coherent) (cy : y.Coherent)
    {field : Piece → SquareSet} (shown : ∀ p q : Piece, p.sight = q.sight → field p = field q)
    (idleX : x.Idle field) (idleY : y.Idle field) (t : Square) (c : Color) :
    (x.roster c).any (fun id => (field (x.piece id)).contains t) =
      (y.roster c).any (fun id => (field (y.piece id)).contains t) := by
  have idle {b : Board} (idleB : b.Idle field) (id : PieceId)
      (off : (b.piece id).square = none) : (field (b.piece id)).contains t = false := by
    simp [idleB id off]
  rw [Bool.eq_iff_iff, ← Array.any_toList, ← Array.any_toList, cx.any_roster_iff c (idle idleX),
    cy.any_roster_iff c (idle idleY)]
  refine look.exists_occupant_iff cx cy fun s ix iy hx hy => ?_
  have sight := look.sight_piece cx cy hx hy
  rw [show (x.piece ix).color = (y.piece iy).color from congrArg Sight.color sight,
    shown _ _ sight]

theorem isThreatened (look : Lookalike x y) (cx : x.Coherent) (cy : y.Coherent)
    (idleX : x.Idle Piece.targets) (idleY : y.Idle Piece.targets) (t : Square) (c : Color) :
    x.isThreatened t c = y.isThreatened t c := by
  have idle {b : Board} (idleB : b.Idle Piece.targets) : b.Idle Piece.attacks := fun id off =>
    SquareSet.ext fun s => by simp [Piece.attacks, idleB id off]
  refine look.any_roster_contains cx cy (fun p q sight => ?_) (idle idleX) (idle idleY) t c
  simp only [Piece.attacks]
  rw [show p.targets = q.targets from congrArg Sight.targets sight,
    show p.quiet = q.quiet from congrArg Sight.quiet sight]

theorem isGuarded (look : Lookalike x y) (cx : x.Coherent) (cy : y.Coherent)
    (idleX : x.Idle Piece.guards) (idleY : y.Idle Piece.guards) (t : Square) (c : Color) :
    x.isGuarded t c = y.isGuarded t c :=
  look.any_roster_contains cx cy (fun _ _ sight => congrArg Sight.guards sight) idleX idleY t c

theorem sightOn_modifyPiece_king (look : Lookalike x y) (cx : x.Coherent) (cy : y.Coherent)
    {kingSq : Square} {kx ky : PieceId} (kingX : x.occupant kingSq = some kx)
    (kingY : y.occupant kingSq = some ky) {f g : Piece → Piece}
    (changed : (f (x.piece kx)).sight = (g (y.piece ky)).sight) (s : Square) :
    (x.modifyPiece kx f).sightOn s = (y.modifyPiece ky g).sightOn s := by
  refine sightOn_congr_of_pieces cx cy (look.occupant_eq_none_iff cx cy)
    (occupant_modifyPiece x kx f) (piece?_modifyPiece_map x kx f) (occupant_modifyPiece y ky g)
    (piece?_modifyPiece_map y ky g) (fun s ix iy hx hy => ?_) s
  by_cases here : s = kingSq
  · subst here
    cases Option.some.inj (hx.symm.trans kingX)
    cases Option.some.inj (hy.symm.trans kingY)
    simpa using changed
  · have otherX : ix ≠ kx := fun same => here (cx.square_eq_of_occupant hx (same ▸ kingX))
    have otherY : iy ≠ ky := fun same => here (cy.square_eq_of_occupant hy (same ▸ kingY))
    simp only [otherX, otherY, if_false]
    exact look.sight_piece cx cy hx hy

end Lookalike

/-! ### The passes of regeneration -/

theorem lookalike_withRawReach {x y : Board} (cx : x.Coherent) (cy : y.Coherent)
    (view : SameView x y) :
    Lookalike { x.withRawReach with status := {} } { y.withRawReach with status := {} } := by
  refine ⟨sightOn_congr_of_pieces cx cy view.occupant_eq_none_iff (fun _ => rfl)
    (piece?_withRawReach x) (fun _ => rfl) (piece?_withRawReach y) fun s ix iy hx hy => ?_,
    view.side, view.enPassant, rfl⟩
  obtain ⟨kind, color⟩ := view.kind_color hx hy
  obtain ⟨squareX, capturedX⟩ := cx.square_captured_of_occupant hx
  obtain ⟨squareY, capturedY⟩ := cy.square_captured_of_occupant hy
  have raw : x.rawReach (x.piece ix) = y.rawReach (y.piece iy) := by
    rw [view.rawReach]
    exact rawReach_congr y (squareX.trans squareY.symm) kind color (capturedX.trans capturedY.symm)
  simp only [Piece.sight, kind, color, raw]

theorem Lookalike.keepKingSafe {x y : Board} (look : Lookalike x y) (cx : x.Coherent)
    (cy : y.Coherent) (targetsX : x.Idle Piece.targets) (targetsY : y.Idle Piece.targets)
    (guardsX : x.Idle Piece.guards) (guardsY : y.Idle Piece.guards) {kingSq : Square}
    {kx ky : PieceId} (kingX : x.occupant kingSq = some kx) (kingY : y.occupant kingSq = some ky)
    (them : Color) : Lookalike (x.keepKingSafe kx them) (y.keepKingSafe ky them) := by
  have sight := look.sight_piece cx cy kingX kingY
  have safe : (x.piece kx).targets.filter (fun s => !x.isThreatened s them && !x.isGuarded s them) =
      (y.piece ky).targets.filter (fun s => !y.isThreatened s them && !y.isGuarded s them) := by
    rw [show (x.piece kx).targets = (y.piece ky).targets from congrArg Sight.targets sight]
    simp only [look.isThreatened cx cy targetsX targetsY, look.isGuarded cx cy guardsX guardsY]
  refine ⟨look.sightOn_modifyPiece_king cx cy kingX kingY ?_, look.side, look.enPassant,
    look.status⟩
  rw [safe]
  exact Piece.sight_with_targets sight _

/-! ### Pins -/

/-- Two states of the pin scan that match square for square: the same blocked flag, and first
pieces met on the same square. -/
def ScanMatch (x y : Board) (u v : Option PieceId × Bool) : Prop :=
  u.2 = v.2 ∧ u.1.map (fun id => (x.piece id).square) = v.1.map (fun id => (y.piece id).square)

theorem pinScan_occupant (b : Board) (them : Color) (squares : List Square) :
    ∀ u : Option PieceId × Bool, (∀ id, u.1 = some id → ∃ s, b.occupant s = some id) →
      ∀ id, (squares.foldl (b.pinScanStep them) u).1 = some id → ∃ s, b.occupant s = some id := by
  refine List.foldl_keeps
    (P := fun (u : Option PieceId × Bool) => ∀ id, u.1 = some id → ∃ s, b.occupant s = some id)
    squares fun u s _ kept => ?_
  obtain ⟨pinned, blocked⟩ := u
  cases blocked with
  | true => exact kept
  | false =>
    unfold pinScanStep
    cases held : b.occupant s with
    | none => exact kept
    | some id =>
      dsimp only
      split_ifs
      · exact kept
      · intro found same
        cases same
        exact ⟨s, held⟩

theorem occupant_of_pinOf? (b : Board) {kingSq : Square} {them : Color} {enemy : PieceId}
    {pin : PieceId × List Square} (found : b.pinOf? kingSq them enemy = some pin) :
    ∃ s, b.occupant s = some pin.1 := by
  simp only [pinOf?] at found
  split at found
  · split at found
    · simp at found
    · split at found
      · split at found
        · rename_i pinned scanned
          cases found
          exact pinScan_occupant b them _ (none, false) (by simp) pinned (congrArg Prod.fst scanned)
        · simp at found
      · simp at found
  · simp at found

theorem Coherent.pinOf?_all {b : Board} (coherent : b.Coherent) {s : Square} {t : PieceId}
    (held : b.occupant s = some t) (kingSq : Square) (them : Color) (enemy : PieceId) (w : Square) :
    (b.pinOf? kingSq them enemy).all (fun pin => pin.1 ≠ t || pin.2.contains w) =
      ((b.pinOf? kingSq them enemy).map fun pin => ((b.piece pin.1).square, pin.2)).all
        (fun seen => seen.1 ≠ some s || seen.2.contains w) := by
  cases found : b.pinOf? kingSq them enemy with
  | none => rfl
  | some pin =>
    obtain ⟨u, pinned⟩ := b.occupant_of_pinOf? found
    have same : pin.1 = t ↔ (b.piece pin.1).square = some s := by
      constructor
      · rintro rfl
        exact coherent.piece_square_of_occupant held
      · intro square
        rw [coherent.piece_square_of_occupant pinned] at square
        cases Option.some.inj square
        exact Option.some.inj (pinned.symm.trans held)
    simp [same]

namespace Lookalike

variable {x y : Board}

theorem pinScanStep (look : Lookalike x y) (cx : x.Coherent) (cy : y.Coherent) (them : Color)
    {u v : Option PieceId × Bool} (matched : ScanMatch x y u v) (s : Square) :
    ScanMatch x y (x.pinScanStep them u s) (y.pinScanStep them v s) := by
  obtain ⟨px, bx⟩ := u
  obtain ⟨py, bY⟩ := v
  obtain ⟨blocked, pinned⟩ := matched
  dsimp only at blocked pinned
  subst blocked
  cases bx with
  | true => exact ⟨rfl, pinned⟩
  | false =>
    unfold Board.pinScanStep
    cases hx : x.occupant s with
    | none =>
      have hy := (look.occupant_eq_none_iff cx cy s).mp hx
      simp only [hy]
      exact ⟨rfl, pinned⟩
    | some ix =>
      obtain ⟨iy, hy⟩ := look.exists_occupant cx cy hx
      have color : (x.piece ix).color = (y.piece iy).color :=
        congrArg Sight.color (look.sight_piece cx cy hx hy)
      have first : px.isSome = py.isSome := by
        rw [← Option.isSome_map, pinned, Option.isSome_map]
      simp only [hy, color, first]
      split_ifs
      · exact ⟨rfl, pinned⟩
      · exact ⟨rfl, by simp [(cx.square_captured_of_occupant hx).1,
          (cy.square_captured_of_occupant hy).1]⟩

theorem pinScan_fold (look : Lookalike x y) (cx : x.Coherent) (cy : y.Coherent) (them : Color) :
    ∀ (squares : List Square) {u v : Option PieceId × Bool}, ScanMatch x y u v →
      ScanMatch x y (squares.foldl (x.pinScanStep them) u) (squares.foldl (y.pinScanStep them) v)
  | [], _, _, matched => matched
  | s :: rest, _, _, matched => pinScan_fold look cx cy them rest (look.pinScanStep cx cy them matched s)

theorem pinOf? (look : Lookalike x y) (cx : x.Coherent) (cy : y.Coherent) (kingSq : Square)
    (them : Color) {v : Square} {ex ey : PieceId} (hx : x.occupant v = some ex)
    (hy : y.occupant v = some ey) :
    (x.pinOf? kingSq them ex).map (fun pin => ((x.piece pin.1).square, pin.2)) =
      (y.pinOf? kingSq them ey).map (fun pin => ((y.piece pin.1).square, pin.2)) := by
  have kind : (x.piece ex).kind = (y.piece ey).kind :=
    congrArg Sight.kind (look.sight_piece cx cy hx hy)
  simp only [Board.pinOf?, (cx.square_captured_of_occupant hx).1,
    (cy.square_captured_of_occupant hy).1, kind]
  by_cases slides : (y.piece ey).kind.slides = true
  · cases reach : v.lineTo? kingSq (y.piece ey).kind.directions false with
    | none => simp [slides]
    | some line =>
      simp only [slides, Bool.not_true, Bool.false_eq_true, if_false]
      have matched : ScanMatch x y (x.pinScan them (line.drop 1)) (y.pinScan them (line.drop 1)) :=
        look.pinScan_fold cx cy them _ ⟨rfl, rfl⟩
      generalize x.pinScan them (line.drop 1) = u at matched ⊢
      generalize y.pinScan them (line.drop 1) = w at matched ⊢
      obtain ⟨px, bx⟩ := u
      obtain ⟨py, bY⟩ := w
      obtain ⟨blocked, pinned⟩ := matched
      dsimp only at blocked pinned
      subst blocked
      cases bx with
      | true => cases px <;> cases py <;> rfl
      | false =>
        cases px with
        | none =>
          cases py with
          | none => rfl
          | some _ => simp at pinned
        | some a =>
          cases py with
          | none => simp at pinned
          | some _ => simpa using pinned
  · simp [slides]

theorem pinFilter (look : Lookalike x y) (cx : x.Coherent) (cy : y.Coherent) (kingSq : Square)
    (them : Color) {s : Square} {ix iy : PieceId} (hx : x.occupant s = some ix)
    (hy : y.occupant s = some iy) (w : Square) :
    ((x.roster them).toList.all fun e =>
        (x.pinOf? kingSq them e).all fun pin => pin.1 ≠ ix || pin.2.contains w) =
      ((y.roster them).toList.all fun e =>
        (y.pinOf? kingSq them e).all fun pin => pin.1 ≠ iy || pin.2.contains w) := by
  have idle {b : Board} (t e : PieceId) (off : (b.piece e).square = none) :
      (b.pinOf? kingSq them e).all (fun pin => pin.1 ≠ t || pin.2.contains w) = true := by
    simp [Board.pinOf?, off]
  rw [Bool.eq_iff_iff, cx.all_roster_iff them (idle ix), cy.all_roster_iff them (idle iy)]
  refine look.forall_occupant_iff cx cy fun v ex ey hex hey => ?_
  rw [show (x.piece ex).color = (y.piece ey).color from
      congrArg Sight.color (look.sight_piece cx cy hex hey),
    cx.pinOf?_all hx, cy.pinOf?_all hy, look.pinOf? cx cy kingSq them hex hey]

theorem restrictPins (look : Lookalike x y) (cx : x.Coherent) (cy : y.Coherent) (kingSq : Square)
    (them : Color) : Lookalike (x.restrictPins kingSq them) (y.restrictPins kingSq them) := by
  refine look.of_bare (bare_restrictPins x kingSq them) (bare_restrictPins y kingSq them)
    (sightOn_congr_of_pieces cx cy (look.occupant_eq_none_iff cx cy)
      (occupant_of_bare (bare_restrictPins x kingSq them)) (piece?_restrictPins x kingSq them)
      (occupant_of_bare (bare_restrictPins y kingSq them)) (piece?_restrictPins y kingSq them)
      fun s ix iy hx hy => ?_) ?_
  · have sight := look.sight_piece cx cy hx hy
    have filtered : (x.piece ix).targets.filter (fun w => (x.roster them).toList.all fun e =>
          (x.pinOf? kingSq them e).all fun pin => pin.1 ≠ ix || pin.2.contains w) =
        (y.piece iy).targets.filter (fun w => (y.roster them).toList.all fun e =>
          (y.pinOf? kingSq them e).all fun pin => pin.1 ≠ iy || pin.2.contains w) := by
      rw [show (x.piece ix).targets = (y.piece iy).targets from congrArg Sight.targets sight]
      congr 1
      funext w
      exact look.pinFilter cx cy kingSq them hx hy w
    simp only [filtered]
    exact Piece.sight_with_targets sight _
  · rw [status_restrictPins, status_restrictPins]
    exact look.status

end Lookalike

/-! ### Check -/

theorem Lookalike.checkers {x y : Board} (look : Lookalike x y) (cx : x.Coherent)
    (cy : y.Coherent) (kingSq : Square) (them : Color) :
    SquareSet.ofList ((x.threatsTo kingSq them).filterMap fun id => (x.piece id).square) =
      SquareSet.ofList ((y.threatsTo kingSq them).filterMap fun id => (y.piece id).square) := by
  have onSquare {b : Board} (coherent : b.Coherent) (s : Square) :
      s ∈ (b.threatsTo kingSq them).filterMap (fun id => (b.piece id).square) ↔
        ∃ id, b.occupant s = some id ∧
          ((b.piece id).color = them ∧ (b.piece id).attacks.contains kingSq = true) := by
    simp only [List.mem_filterMap, threatsTo, List.mem_filter, Array.mem_toList_iff]
    constructor
    · rintro ⟨id, ⟨member, attacks⟩, square⟩
      exact ⟨id, coherent.occupant_of_square square, coherent.color_of_roster member,
        attacks⟩
    · rintro ⟨id, held, color, attacks⟩
      exact ⟨id, ⟨(coherent.mem_roster_iff_of_occupant held them).mpr color, attacks⟩,
        coherent.piece_square_of_occupant held⟩
  refine SquareSet.ext fun s => ?_
  rw [Bool.eq_iff_iff, SquareSet.contains_ofList, SquareSet.contains_ofList, decide_eq_true_iff,
    decide_eq_true_iff, onSquare cx, onSquare cy]
  refine look.occupant_at_iff cx cy s fun ix iy hx hy => ?_
  have sight := look.sight_piece cx cy hx hy
  simp only [Piece.attacks]
  rw [show (x.piece ix).color = (y.piece iy).color from congrArg Sight.color sight,
    show (x.piece ix).targets = (y.piece iy).targets from congrArg Sight.targets sight,
    show (x.piece ix).quiet = (y.piece iy).quiet from congrArg Sight.quiet sight]

theorem Lookalike.withStatus {x y : Board} (look : Lookalike x y) {sx sy : Status}
    (status : sx.sight = sy.sight) : Lookalike { x with status := sx } { y with status := sy } :=
  ⟨look.sight, look.side, look.enPassant, status⟩

theorem SameView.keptInCheck {x y : Board} (view : SameView x y) {p q : Piece}
    (targets : p.targets = q.targets) (kind : p.kind = q.kind) (kingSq checker origin : Square) :
    x.keptInCheck kingSq checker origin p = y.keptInCheck kingSq checker origin q := by
  rcases view.pieceAt? checker with ⟨hx, hy⟩ | ⟨p', q', hx, hy, kind', -⟩
  · simp only [Board.keptInCheck, hx, hy, targets, kind, view.occupant_isNone,
      view.enPassantVictim?, view.side]
  · simp only [Board.keptInCheck, hx, hy, kind', targets, kind, view.occupant_isNone,
      view.enPassantVictim?, view.side]

theorem SameView.keptAfterEnPassant {x y : Board} (view : SameView x y) {p q : Piece}
    (targets : p.targets = q.targets) (kingSq : Square) (occ : SquareSet) (origin : Square) :
    x.keptAfterEnPassant kingSq occ origin p = y.keptAfterEnPassant kingSq occ origin q := by
  simp only [Board.keptAfterEnPassant, targets, view.occupied, view.enPassantVictim?,
    view.isAttackedWith, view.side]

namespace Lookalike

variable {x y : Board} {kingSq : Square} {kx ky : PieceId}

theorem mem_roster_side_iff (look : Lookalike x y) (cx : x.Coherent) (cy : y.Coherent)
    {s : Square} {ix iy : PieceId} (hx : x.occupant s = some ix) (hy : y.occupant s = some iy) :
    ix ∈ (x.roster x.side).toList ↔ iy ∈ (y.roster y.side).toList := by
  obtain ⟨-, color, -, -, -, -⟩ := Sight.mk.inj (look.sight_piece cx cy hx hy)
  simp only [Array.mem_toList_iff, cx.mem_roster_iff_of_occupant hx,
    cy.mem_roster_iff_of_occupant hy, color, look.side]

theorem inCheckStep (look : Lookalike x y) (cx : x.Coherent) (cy : y.Coherent)
    (kingX : x.occupant kingSq = some kx) (kingY : y.occupant kingSq = some ky)
    (checker : Square) {s : Square} {ix iy : PieceId} (hx : x.occupant s = some ix)
    (hy : y.occupant s = some iy) :
    (x.inCheckStep kx kingSq checker ix (x.piece ix)).sight =
      (y.inCheckStep ky kingSq checker iy (y.piece iy)).sight := by
  have sight := look.sight_piece cx cy hx hy
  simp only [Board.inCheckStep, (cx.square_captured_of_occupant hx).1,
    (cy.square_captured_of_occupant hy).1, cx.eq_iff_of_occupant hx kingX,
    cy.eq_iff_of_occupant hy kingY]
  split_ifs
  · exact sight
  · rw [(look.toSameView cx cy).keptInCheck (congrArg Sight.targets sight)
      (congrArg Sight.kind sight)]
    exact Piece.sight_with_targets sight _

theorem restrictToCheckResolutions (look : Lookalike x y) (cx : x.Coherent) (cy : y.Coherent)
    (kingX : x.occupant kingSq = some kx) (kingY : y.occupant kingSq = some ky)
    (checker : Square) :
    Lookalike (x.restrictToCheckResolutions kx kingSq checker)
      (y.restrictToCheckResolutions ky kingSq checker) := by
  refine look.of_bare (bare_restrictToCheckResolutions x kx kingSq checker)
    (bare_restrictToCheckResolutions y ky kingSq checker)
    (sightOn_congr_of_pieces cx cy (look.occupant_eq_none_iff cx cy)
      (occupant_of_bare (bare_restrictToCheckResolutions x kx kingSq checker))
      (piece?_restrictToCheckResolutions x (cx.nodup x.side) kx kingSq checker)
      (occupant_of_bare (bare_restrictToCheckResolutions y ky kingSq checker))
      (piece?_restrictToCheckResolutions y (cy.nodup y.side) ky kingSq checker)
      fun s ix iy hx hy => ?_) ?_
  · have member := look.mem_roster_side_iff cx cy hx hy
    by_cases onSide : iy ∈ (y.roster y.side).toList
    · rw [if_pos (member.mpr onSide), if_pos onSide]
      exact look.inCheckStep cx cy kingX kingY checker hx hy
    · rw [if_neg (mt member.mp onSide), if_neg onSide]
      exact look.sight_piece cx cy hx hy
  · rw [status_restrictToCheckResolutions, status_restrictToCheckResolutions]
    exact look.status

theorem freezeAllBut (look : Lookalike x y) (cx : x.Coherent) (cy : y.Coherent)
    (kingX : x.occupant kingSq = some kx) (kingY : y.occupant kingSq = some ky) :
    Lookalike (x.freezeAllBut kx) (y.freezeAllBut ky) := by
  refine look.of_bare (bare_freezeAllBut x kx) (bare_freezeAllBut y ky)
    (sightOn_congr_of_pieces cx cy (look.occupant_eq_none_iff cx cy)
      (occupant_of_bare (bare_freezeAllBut x kx)) (piece?_freezeAllBut x (cx.nodup x.side) kx)
      (occupant_of_bare (bare_freezeAllBut y ky)) (piece?_freezeAllBut y (cy.nodup y.side) ky)
      fun s ix iy hx hy => ?_) ?_
  · have sight := look.sight_piece cx cy hx hy
    have frozen : (ix ∈ (x.roster x.side).toList ∧ ix ≠ kx) ↔
        (iy ∈ (y.roster y.side).toList ∧ iy ≠ ky) :=
      and_congr (look.mem_roster_side_iff cx cy hx hy)
        (not_congr ((cx.eq_iff_of_occupant hx kingX).trans (cy.eq_iff_of_occupant hy kingY).symm))
    by_cases other : iy ∈ (y.roster y.side).toList ∧ iy ≠ ky
    · rw [if_pos (frozen.mpr other), if_pos other]
      exact Piece.sight_with_targets sight _
    · rw [if_neg (mt frozen.mp other), if_neg other]
      exact sight
  · rw [status_freezeAllBut, status_freezeAllBut]
    exact look.status

theorem dropExposingEnPassant (look : Lookalike x y) (cx : x.Coherent) (cy : y.Coherent)
    (kingSq : Square) :
    Lookalike (x.dropExposingEnPassant kingSq) (y.dropExposingEnPassant kingSq) := by
  have view := look.toSameView cx cy
  refine look.of_bare (bare_dropExposingEnPassant x kingSq) (bare_dropExposingEnPassant y kingSq)
    (sightOn_congr_of_pieces cx cy (look.occupant_eq_none_iff cx cy)
      (occupant_of_bare (bare_dropExposingEnPassant x kingSq))
      (piece?_dropExposingEnPassant x (cx.nodup x.side) kingSq)
      (occupant_of_bare (bare_dropExposingEnPassant y kingSq))
      (piece?_dropExposingEnPassant y (cy.nodup y.side) kingSq)
      fun s ix iy hx hy => ?_) ?_
  · have sight := look.sight_piece cx cy hx hy
    obtain ⟨kind, -, targets, -, -, -⟩ := Sight.mk.inj sight
    have member := look.mem_roster_side_iff cx cy hx hy
    by_cases onSide : iy ∈ (y.roster y.side).toList
    · rw [if_pos (member.mpr onSide), if_pos onSide]
      simp only [Board.enPassantStep, (cx.square_captured_of_occupant hx).1,
        (cy.square_captured_of_occupant hy).1]
      by_cases pawn : (y.piece iy).kind = .pawn
      · rw [if_neg (not_not.mpr (kind.trans pawn)), if_neg (not_not.mpr pawn), view.occupancy,
          view.keptAfterEnPassant targets]
        exact Piece.sight_with_targets sight _
      · rw [if_pos (kind ▸ pawn), if_pos pawn]
        exact sight
    · rw [if_neg (mt member.mp onSide), if_neg onSide]
      exact sight
  · rw [status_dropExposingEnPassant, status_dropExposingEnPassant]
    exact look.status

end Lookalike

/-! ### Castles -/

theorem exists_of_canCastle {b : Board} {c : Color} {side : CastleSide}
    (can : b.canCastle c side = true) : ∃ k r, b.king c = some k ∧ b.castleRook? c side = some r := by
  unfold canCastle at can
  split at can
  · cases can
  · rename_i k king
    split at can
    · cases can
    · split at can
      · rename_i r rook
        exact ⟨k, r, king, rook⟩
      · cases can

theorem Coherent.kingSquare_eq_some_iff {b : Board} (coherent : b.Coherent) (c : Color)
    (s : Square) : b.kingSquare c = some s ↔
      ∃ id, b.occupant s = some id ∧ ((b.piece id).kind = .king ∧ (b.piece id).color = c) := by
  constructor
  · intro found
    obtain ⟨k, king, square⟩ := Option.bind_eq_some_iff.mp found
    obtain ⟨member, kind⟩ := (coherent.king_iff c k).mp king
    exact ⟨k, coherent.occupant_of_square square, kind,
      coherent.color_of_roster member⟩
  · rintro ⟨id, held, kind, color⟩
    have member := (coherent.mem_roster_iff_of_occupant held c).mpr color
    rw [kingSquare, (coherent.king_iff c id).mpr ⟨member, kind⟩, Option.bind_some]
    exact coherent.piece_square_of_occupant held

def castleStep (king : PieceId) (b : Board) (side : CastleSide) : Board :=
  match b.castlePlan? b.side side with
  | some plan =>
    if b.castleIsLegal plan b.side then
      let b := match side with
        | .kingside => { b with status := { b.status with kingside := some plan } }
        | .queenside => { b with status := { b.status with queenside := some plan } }
      b.modifyPiece king fun q => { q with castleTargets := q.castleTargets.insert plan.kingTo }
    else b
  | none => b

theorem addCastles_eq (b : Board) (king : PieceId) :
    b.addCastles king = CastleSide.all.foldl (castleStep king) b := rfl

theorem bare_castleStep (b : Board) (king : PieceId) (side : CastleSide) :
    (castleStep king b side).bare = b.bare := by
  unfold castleStep
  split
  · rename_i plan _
    split
    · cases side <;> exact (bare_modifyPiece
        (f := fun q => { q with castleTargets := q.castleTargets.insert plan.kingTo }) _ king
        fun _ => rfl).trans rfl
    · rfl
  · rfl

namespace Lookalike

variable {x y : Board}

theorem kingSquare (look : Lookalike x y) (cx : x.Coherent) (cy : y.Coherent) (c : Color) :
    x.kingSquare c = y.kingSquare c := by
  refine Option.ext fun s => ?_
  rw [cx.kingSquare_eq_some_iff, cy.kingSquare_eq_some_iff]
  refine look.occupant_at_iff cx cy s fun ix iy hx hy => ?_
  obtain ⟨kind, color, -, -, -, -⟩ := Sight.mk.inj (look.sight_piece cx cy hx hy)
  rw [kind, color]

theorem castleRook?_square (look : Lookalike x y) (cx : x.Coherent) (cy : y.Coherent) (c : Color)
    (side : CastleSide) :
    (x.castleRook? c side).map (fun r => (x.piece r).square) =
      (y.castleRook? c side).map (fun r => (y.piece r).square) := by
  unfold castleRook?
  rw [← List.head?_map, ← List.head?_map]
  congr 1
  unfold wingRooks
  rw [look.kingSquare cx cy c]
  split
  · rfl
  · split
    · rfl
    · simp only [List.map_filterMap]
      refine List.filterMap_congr fun f _ => ?_
      generalize Square.make ⟨⟨f % 8, Nat.mod_lt _ (by decide)⟩⟩ (Rank.back c) = t
      cases hx : x.occupant t with
      | none => simp [(look.occupant_eq_none_iff cx cy t).mp hx]
      | some ix =>
        obtain ⟨iy, hy⟩ := look.exists_occupant cx cy hx
        obtain ⟨kind, color, -, -, -, -⟩ := Sight.mk.inj (look.sight_piece cx cy hx hy)
        simp only [hy]
        by_cases rook : (y.piece iy).color = c ∧ (y.piece iy).kind = .rook
        · rw [if_pos (by rwa [color, kind]), if_pos rook]
          simp [(cx.square_captured_of_occupant hx).1, (cy.square_captured_of_occupant hy).1]
        · rw [if_neg (by rwa [color, kind]), if_neg rook]
          rfl

theorem castlePlan? (look : Lookalike x y) (cx : x.Coherent) (cy : y.Coherent) {c : Color}
    {side : CastleSide} (rights : x.canCastle c side = y.canCastle c side) :
    (x.castlePlan? c side).map CastlePlan.route = (y.castlePlan? c side).map CastlePlan.route := by
  unfold Board.castlePlan?
  rw [rights]
  split
  · rfl
  · rename_i can
    obtain ⟨kx, rx, kingX, rookX⟩ := exists_of_canCastle (rights.trans (by simpa using can))
    obtain ⟨ky, ry, kingY, rookY⟩ := exists_of_canCastle (by simpa using can)
    have kingFrom : (x.piece kx).square = (y.piece ky).square := by
      have same := look.kingSquare cx cy c
      simpa [Board.kingSquare, kingX, kingY] using same
    have rookFrom : (x.piece rx).square = (y.piece ry).square := by
      have same := look.castleRook?_square cx cy c side
      simpa [rookX, rookY] using same
    simp only [kingX, kingY, rookX, rookY, Option.bind_eq_bind, Option.bind_some, kingFrom,
      rookFrom]
    cases (y.piece ky).square <;> cases (y.piece ry).square <;> rfl

theorem castleIsLegal (look : Lookalike x y) (cx : x.Coherent) (cy : y.Coherent)
    {px py : CastlePlan} (route : px.route = py.route)
    (kingX : x.occupant px.kingFrom = some px.king) (rookX : x.occupant px.rookFrom = some px.rook)
    (kingY : y.occupant py.kingFrom = some py.king) (rookY : y.occupant py.rookFrom = some py.rook)
    (c : Color) : x.castleIsLegal px c = y.castleIsLegal py c := by
  obtain ⟨-, -, kingFrom, kingTo, -, rookFrom, rookTo⟩ := CastlePlan.mk.inj route
  have view := look.toSameView cx cy
  unfold Board.castleIsLegal
  rw [kingFrom, kingTo, rookFrom, rookTo, view.occupancy]
  simp only [view.isAttackedWith]
  congr 1
  congr 1
  funext s
  cases hx : x.occupant s with
  | none => rw [(look.occupant_eq_none_iff cx cy s).mp hx]
  | some ix =>
    obtain ⟨iy, hy⟩ := look.exists_occupant cx cy hx
    simp only [hy, cx.eq_iff_of_occupant hx kingX, cx.eq_iff_of_occupant hx rookX,
      cy.eq_iff_of_occupant hy kingY, cy.eq_iff_of_occupant hy rookY, kingFrom, rookFrom]

theorem recordCastle (look : Lookalike x y) (cx : x.Coherent) (cy : y.Coherent) {kingSq : Square}
    {kx ky : PieceId} (kingX : x.occupant kingSq = some kx) (kingY : y.occupant kingSq = some ky)
    {sx sy : Status} (status : sx.sight = sy.sight) {tx ty : Square} (kingTo : tx = ty) :
    Lookalike ({ x with status := sx }.modifyPiece kx fun q =>
        { q with castleTargets := q.castleTargets.insert tx })
      ({ y with status := sy }.modifyPiece ky fun q =>
        { q with castleTargets := q.castleTargets.insert ty }) := by
  have recorded : Lookalike { x with status := sx } { y with status := sy } := look.withStatus status
  have sight := look.sight_piece cx cy kingX kingY
  obtain ⟨-, -, -, -, -, castle⟩ := Sight.mk.inj sight
  have changed : ({ x.piece kx with castleTargets := (x.piece kx).castleTargets.insert tx } :
      Piece).sight =
      ({ y.piece ky with castleTargets := (y.piece ky).castleTargets.insert ty } : Piece).sight := by
    rw [castle, kingTo]
    exact Piece.sight_with_castleTargets sight _
  exact ⟨recorded.sightOn_modifyPiece_king (Coherent.of_bare (bare_setStatus x sx) cx)
    (Coherent.of_bare (bare_setStatus y sy) cy) kingX kingY changed, look.side, look.enPassant,
    status⟩

theorem castleStep (look : Lookalike x y) (cx : x.Coherent) (cy : y.Coherent)
    (rights : ∀ c side, x.canCastle c side = y.canCastle c side) {kingSq : Square}
    {kx ky : PieceId} (kingX : x.occupant kingSq = some kx) (kingY : y.occupant kingSq = some ky)
    (side : CastleSide) : Lookalike (castleStep kx x side) (castleStep ky y side) := by
  have plans : (x.castlePlan? x.side side).map CastlePlan.route =
      (y.castlePlan? y.side side).map CastlePlan.route := by
    rw [← look.side]
    exact look.castlePlan? cx cy (rights x.side side)
  unfold Board.castleStep
  cases px : x.castlePlan? x.side side with
  | none =>
    cases py : y.castlePlan? y.side side with
    | none => exact look
    | some _ => simp [px, py] at plans
  | some planX =>
    cases py : y.castlePlan? y.side side with
    | none => simp [px, py] at plans
    | some planY =>
      have route : planX.route = planY.route := by simpa [px, py] using plans
      have stands {b : Board} (coherent : b.Coherent) {c : Color} {plan : CastlePlan}
          (planned : b.castlePlan? c side = some plan) :
          b.occupant plan.kingFrom = some plan.king ∧ b.occupant plan.rookFrom = some plan.rook := by
        obtain ⟨king, rook, kingFrom, rookFrom, -⟩ := castlePlan?_eq_some planned
        obtain ⟨t, held, -⟩ := occupant_of_castleRook? rook
        cases Option.some.inj ((coherent.piece_square_of_occupant held).symm.trans rookFrom)
        exact ⟨coherent.occupant_of_square kingFrom, held⟩
      obtain ⟨kingAtX, rookAtX⟩ := stands cx px
      obtain ⟨kingAtY, rookAtY⟩ := stands cy py
      have legal : x.castleIsLegal planX x.side = y.castleIsLegal planY y.side := by
        rw [← look.side]
        exact look.castleIsLegal cx cy route kingAtX rookAtX kingAtY rookAtY x.side
      dsimp only
      rw [legal]
      obtain ⟨-, -, -, kingTo, -, -, -⟩ := CastlePlan.mk.inj route
      split
      · cases side
        · refine look.recordCastle cx cy kingX kingY ?_ kingTo
          show ({ x.status.sight with kingside := some planX.route } : Status) =
            { y.status.sight with kingside := some planY.route }
          rw [look.status, route]
        · refine look.recordCastle cx cy kingX kingY ?_ kingTo
          show ({ x.status.sight with queenside := some planX.route } : Status) =
            { y.status.sight with queenside := some planY.route }
          rw [look.status, route]
      · exact look

theorem addCastles (look : Lookalike x y) (cx : x.Coherent) (cy : y.Coherent)
    (rights : ∀ c side, x.canCastle c side = y.canCastle c side) {kingSq : Square}
    {kx ky : PieceId} (kingX : x.occupant kingSq = some kx) (kingY : y.occupant kingSq = some ky) :
    Lookalike (x.addCastles kx) (y.addCastles ky) := by
  rw [addCastles_eq, addCastles_eq]
  suffices pass : ∀ (sides : List CastleSide) (zx zy : Board), zx.bare = x.bare →
      zy.bare = y.bare → Lookalike zx zy →
      Lookalike (sides.foldl (Board.castleStep kx) zx) (sides.foldl (Board.castleStep ky) zy) by
    exact pass _ x y rfl rfl look
  intro sides
  induction sides with
  | nil => exact fun _ _ _ _ same => same
  | cons side rest ih =>
    intro zx zy bareX bareY same
    have agreeX := Agree.of_bare bareX
    have agreeY := Agree.of_bare bareY
    refine ih _ _ ((bare_castleStep zx kx side).trans bareX)
      ((bare_castleStep zy ky side).trans bareY)
      (same.castleStep (Coherent.of_bare bareX cx) (Coherent.of_bare bareY cy)
        (fun c side => ?_) ((agreeX.occupant kingSq).trans kingX)
        ((agreeY.occupant kingSq).trans kingY) side)
    rw [agreeX.canCastle, agreeY.canCastle]
    exact rights c side

end Lookalike

/-! ### The count of legal moves -/

/-- The legal moves a piece of the side `us` shows: one per target, four for a pawn target on
the promotion rank. -/
def Sight.tally (us : Color) (v : Sight) : Nat :=
  v.targets.toList.foldl (fun n s => n + if v.kind = .pawn ∧ s.rank = Rank.promotion us then 4 else 1) 0

theorem SquareSet.toList_empty : SquareSet.empty.toList = [] :=
  List.eq_nil_iff_forall_not_mem.mpr fun s => by simp

theorem List.sum_map_eq_sum_filterMap {α β : Type} (l : List α) (value : α → Nat)
    (place : α → Option β) (at_ : β → Nat) (each : ∀ a ∈ l, value a = (place a).elim 0 at_) :
    (l.map value).sum = ((l.filterMap place).map at_).sum := by
  induction l with
  | nil => rfl
  | cons a rest ih =>
    have later := ih fun a' member => each a' (List.mem_cons_of_mem a member)
    have here := each a List.mem_cons_self
    cases found : place a with
    | none =>
      simp only [List.map_cons, List.sum_cons, List.filterMap_cons_none found, here, found,
        Option.elim_none, later, Nat.zero_add]
    | some c =>
      simp only [List.map_cons, List.sum_cons, List.filterMap_cons_some found, here, found,
        Option.elim_some, later]

theorem Status.castle_map_of_sight {st st' : Status} (same : st.sight = st'.sight)
    (side : CastleSide) {γ : Type} (g : CastlePlan → γ) (reads : ∀ plan, g plan.route = g plan) :
    (st.castle side).map g = (st'.castle side).map g := by
  have routes : (st.castle side).map CastlePlan.route = (st'.castle side).map CastlePlan.route := by
    cases side
    · exact congrArg Status.kingside same
    · exact congrArg Status.queenside same
  have through (o : Option CastlePlan) : (o.map CastlePlan.route).map g = o.map g := by
    cases o <;> simp [reads]
  rw [← through, routes, through]

theorem Status.castle_isSome_of_sight {st st' : Status} (same : st.sight = st'.sight)
    (side : CastleSide) : (st.castle side).isSome = (st'.castle side).isSome := by
  rw [← Option.isSome_map (f := fun _ : CastlePlan => ()),
    Status.castle_map_of_sight same side _ fun _ => rfl, Option.isSome_map]

namespace Coherent

variable {b : Board}

theorem mem_squares_iff (coherent : b.Coherent) (c : Color) (s : Square) :
    s ∈ (b.roster c).toList.filterMap (fun id => (b.piece id).square) ↔
      ∃ id, b.occupant s = some id ∧ (b.piece id).color = c := by
  simp only [List.mem_filterMap, Array.mem_toList_iff]
  constructor
  · rintro ⟨id, member, square⟩
    exact ⟨id, coherent.occupant_of_square square, coherent.color_of_roster member⟩
  · rintro ⟨id, held, color⟩
    exact ⟨id, (coherent.mem_roster_iff_of_occupant held c).mpr color,
      coherent.piece_square_of_occupant held⟩

theorem nodup_squares (coherent : b.Coherent) (c : Color) :
    ((b.roster c).toList.filterMap fun id => (b.piece id).square).Nodup := by
  refine (coherent.nodup c).filterMap fun id id' s first second => ?_
  exact Option.some.inj ((coherent.occupant_of_square first).symm.trans
    (coherent.occupant_of_square second))

theorem countLegal_eq (coherent : b.Coherent) (idle : b.Idle Piece.targets) :
    b.countLegal =
      (((b.roster b.side).toList.filterMap fun id => (b.piece id).square).map
        fun s => (b.sightOn s).elim 0 (Sight.tally b.side)).sum +
      (CastleSide.all.filter fun side => (b.status.castle side).isSome).length := by
  unfold countLegal
  dsimp only
  rw [← List.sum_eq_foldl_nat]
  congr 1
  refine List.sum_map_eq_sum_filterMap _ _ _ _ fun id _ => ?_
  cases square : (b.piece id).square with
  | none => simp only [idle id square, SquareSet.toList_empty, List.foldl_nil, Option.elim_none]
  | some s =>
    rw [Option.elim_some, coherent.sightOn_of_occupant (coherent.occupant_of_square square)]
    rfl

end Coherent

theorem Lookalike.countLegal {x y : Board} (look : Lookalike x y) (cx : x.Coherent)
    (cy : y.Coherent) (idleX : x.Idle Piece.targets) (idleY : y.Idle Piece.targets) :
    x.countLegal = y.countLegal := by
  rw [cx.countLegal_eq idleX, cy.countLegal_eq idleY]
  have tally : (fun s => (x.sightOn s).elim 0 (Sight.tally x.side)) =
      (fun s => (y.sightOn s).elim 0 (Sight.tally y.side)) := by
    funext s
    rw [look.sight s, look.side]
  have squares : ((x.roster x.side).toList.filterMap fun id => (x.piece id).square).Perm
      ((y.roster y.side).toList.filterMap fun id => (y.piece id).square) := by
    rw [List.perm_ext_iff_of_nodup (cx.nodup_squares _) (cy.nodup_squares _)]
    intro s
    rw [cx.mem_squares_iff, cy.mem_squares_iff, look.side]
    refine look.occupant_at_iff cx cy s fun ix iy hx hy => ?_
    obtain ⟨-, color, -, -, -, -⟩ := Sight.mk.inj (look.sight_piece cx cy hx hy)
    rw [color]
  have castles : (CastleSide.all.filter fun side => (x.status.castle side).isSome) =
      (CastleSide.all.filter fun side => (y.status.castle side).isSome) := by
    congr 1
    funext side
    exact Status.castle_isSome_of_sight look.status side
  rw [tally, (squares.map _).sum_eq, castles]

/-! ### Regeneration -/

def rawReached (b : Board) : Board := { b.withRawReach with status := {} }

theorem bare_rawReached (b : Board) : b.rawReached.bare = b.bare := by
  rw [rawReached, bare_setStatus, bare_withRawReach]

theorem square_piece_of_bare {x y : Board} (same : x.bare = y.bare) (id : PieceId) :
    (x.piece id).square = (y.piece id).square := by
  rw [← Piece.bare_square, piece_bare_of_bare same id, Piece.bare_square]

theorem idle_rawReached (b : Board) :
    b.rawReached.Idle Piece.targets ∧ b.rawReached.Idle Piece.guards := by
  have empty (id : PieceId) (off : (b.rawReached.piece id).square = none) :
      (b.rawReached.piece id).targets = SquareSet.empty ∧
        (b.rawReached.piece id).guards = SquareSet.empty := by
    rw [square_piece_of_bare (bare_rawReached b)] at off
    change ((b.withRawReach.piece? id).getD default).targets = SquareSet.empty ∧
      ((b.withRawReach.piece? id).getD default).guards = SquareSet.empty
    rw [piece?_withRawReach]
    cases found : b.piece? id with
    | none => exact ⟨rfl, rfl⟩
    | some p =>
      rw [piece_eq_of_piece? b found] at off
      simp [Board.rawReach, off]
  exact ⟨fun id off => (empty id off).1, fun id off => (empty id off).2⟩

/-- Regeneration once the king of the side to move is found on `kingSq`: the passes from king
safety to the count of legal moves. -/
def settle (b : Board) (king : PieceId) (kingSq : Square) : Board :=
  let them := b.side.opponent
  let b := b.keepKingSafe king them
  let b := b.restrictPins kingSq them
  let checkers := SquareSet.ofList ((b.threatsTo kingSq them).filterMap fun id => (b.piece id).square)
  let b := { b with status := { b.status with hasKing := true, checkers } }
  let b :=
    match checkers.toList with
    | [] => b
    | [checker] => b.restrictToCheckResolutions king kingSq checker
    | _ => b.freezeAllBut king
  let b := b.dropExposingEnPassant kingSq
  let b := if checkers.isEmpty then b.addCastles king else b
  { b with status := { b.status with legalCount := b.countLegal } }

theorem regenerate_eq_settle {b : Board} {king : PieceId} {kingSq : Square}
    (hasKing : b.king b.side = some king) (stands : (b.piece king).square = some kingSq) :
    b.regenerate = b.rawReached.settle king kingSq := by
  unfold regenerate
  dsimp only
  split
  · rename_i missing
    cases hasKing.symm.trans missing
  · rename_i king' found
    cases Option.some.inj (hasKing.symm.trans found)
    split
    · rename_i off
      change (b.rawReached.piece king).square = none at off
      rw [square_piece_of_bare (bare_rawReached b), stands] at off
      cases off
    · rename_i kingSq' found'
      change (b.rawReached.piece king).square = some kingSq' at found'
      rw [square_piece_of_bare (bare_rawReached b), stands] at found'
      cases Option.some.inj found'
      rfl

theorem regenerate_eq_of_kingSquare {b : Board} (absent : b.kingSquare b.side = none) :
    b.regenerate = { b.rawReached with status := { legalCount := b.rawReached.countLegal } } := by
  unfold regenerate
  dsimp only
  split
  · rfl
  · rename_i king found
    split
    · rfl
    · rename_i kingSq stands
      change (b.rawReached.piece king).square = some kingSq at stands
      rw [square_piece_of_bare (bare_rawReached b)] at stands
      have present : b.kingSquare b.side = some kingSq := by
        rw [kingSquare, show b.king b.side = some king from found, Option.bind_some, stands]
      rw [absent] at present
      cases present

/-- A board met on the way through regeneration from `r`: the same bare form, and the pieces
off the board still reach nothing. -/
structure Midway (r z : Board) : Prop where
  bare : z.bare = r.bare
  idle : z.Idle Piece.targets

namespace Midway

variable {r z : Board}

theorem next (mid : Midway r z) {z' : Board} (narrows : Narrows z z') (same : z'.bare = z.bare) :
    Midway r z' := by
  refine ⟨same.trans mid.bare, fun id off => ?_⟩
  have empty := mid.idle id ((square_piece_of_bare same id).symm.trans off)
  refine SquareSet.ext fun s => ?_
  cases reached : (z'.piece id).targets.contains s with
  | false => simp
  | true =>
    have earlier := narrows id s reached
    simp [empty] at earlier

theorem coherent (mid : Midway r z) (coherent : r.Coherent) : z.Coherent :=
  Coherent.of_bare mid.bare coherent

theorem occupant (mid : Midway r z) (s : Square) : z.occupant s = r.occupant s :=
  occupant_of_bare mid.bare s

theorem canCastle (mid : Midway r z) (c : Color) (side : CastleSide) :
    z.canCastle c side = r.canCastle c side :=
  (Agree.of_bare mid.bare).canCastle c side

end Midway

namespace Lookalike

variable {rx ry : Board} {kingSq : Square} {kx ky : PieceId}

theorem settleTail {a b : Board} (look : Lookalike a b) (midX : Midway rx a) (midY : Midway ry b)
    (cx : rx.Coherent) (cy : ry.Coherent) (rights : ∀ c side, rx.canCastle c side = ry.canCastle c side)
    (kingX : rx.occupant kingSq = some kx) (kingY : ry.occupant kingSq = some ky)
    (checkers : SquareSet) :
    Lookalike
      (let d := a.dropExposingEnPassant kingSq
       let e := if checkers.isEmpty then d.addCastles kx else d
       { e with status := { e.status with legalCount := e.countLegal } })
      (let d := b.dropExposingEnPassant kingSq
       let e := if checkers.isEmpty then d.addCastles ky else d
       { e with status := { e.status with legalCount := e.countLegal } }) := by
  have counted {ex ey : Board} (same : Lookalike ex ey) (endX : Midway rx ex) (endY : Midway ry ey) :
      Lookalike { ex with status := { ex.status with legalCount := ex.countLegal } }
        { ey with status := { ey.status with legalCount := ey.countLegal } } := by
    rw [same.countLegal (endX.coherent cx) (endY.coherent cy) endX.idle endY.idle]
    exact same.withStatus (congrArg (fun v : Status => { v with legalCount := ey.countLegal })
      same.status)
  have dropped := look.dropExposingEnPassant (midX.coherent cx) (midY.coherent cy) kingSq
  have dX := midX.next (Narrows.dropExposingEnPassant a kingSq) (bare_dropExposingEnPassant a kingSq)
  have dY := midY.next (Narrows.dropExposingEnPassant b kingSq) (bare_dropExposingEnPassant b kingSq)
  dsimp only
  by_cases quiet : checkers.isEmpty = true
  · rw [if_pos quiet, if_pos quiet]
    refine counted (dropped.addCastles (dX.coherent cx) (dY.coherent cy) (fun c side => ?_)
      ((dX.occupant kingSq).trans kingX) ((dY.occupant kingSq).trans kingY))
      (dX.next (Narrows.addCastles _ kx) (bare_addCastles _ kx))
      (dY.next (Narrows.addCastles _ ky) (bare_addCastles _ ky))
    rw [dX.canCastle, dY.canCastle]
    exact rights c side
  · rw [if_neg quiet, if_neg quiet]
    exact counted dropped dX dY

theorem settle (look : Lookalike rx ry) (cx : rx.Coherent) (cy : ry.Coherent)
    (targetsX : rx.Idle Piece.targets) (targetsY : ry.Idle Piece.targets)
    (guardsX : rx.Idle Piece.guards) (guardsY : ry.Idle Piece.guards)
    (rights : ∀ c side, rx.canCastle c side = ry.canCastle c side)
    (kingX : rx.occupant kingSq = some kx) (kingY : ry.occupant kingSq = some ky) :
    Lookalike (rx.settle kx kingSq) (ry.settle ky kingSq) := by
  unfold Board.settle
  dsimp only
  rw [← look.side]
  generalize rx.side.opponent = them
  have safe := look.keepKingSafe cx cy targetsX targetsY guardsX guardsY kingX kingY them
  have safeX : Midway rx (rx.keepKingSafe kx them) :=
    Midway.next ⟨rfl, targetsX⟩ (Narrows.keepKingSafe rx kx them) (bare_keepKingSafe rx kx them)
  have safeY : Midway ry (ry.keepKingSafe ky them) :=
    Midway.next ⟨rfl, targetsY⟩ (Narrows.keepKingSafe ry ky them) (bare_keepKingSafe ry ky them)
  have pins := safe.restrictPins (safeX.coherent cx) (safeY.coherent cy) kingSq them
  have pinsX := safeX.next (Narrows.restrictPins _ kingSq them) (bare_restrictPins _ kingSq them)
  have pinsY := safeY.next (Narrows.restrictPins _ kingSq them) (bare_restrictPins _ kingSq them)
  generalize (rx.keepKingSafe kx them).restrictPins kingSq them = a at pins pinsX ⊢
  generalize (ry.keepKingSafe ky them).restrictPins kingSq them = b at pins pinsY ⊢
  rw [pins.checkers (pinsX.coherent cx) (pinsY.coherent cy) kingSq them]
  generalize SquareSet.ofList ((b.threatsTo kingSq them).filterMap
    fun id => (b.piece id).square) = checkers
  have marked : Lookalike { a with status := { a.status with hasKing := true, checkers } }
      { b with status := { b.status with hasKing := true, checkers } } :=
    pins.withStatus (congrArg (fun v : Status => { v with hasKing := true, checkers }) pins.status)
  have markedX : Midway rx { a with status := { a.status with hasKing := true, checkers } } :=
    pinsX.next (Narrows.refl a) (bare_setStatus a _)
  have markedY : Midway ry { b with status := { b.status with hasKing := true, checkers } } :=
    pinsY.next (Narrows.refl b) (bare_setStatus b _)
  have kingAtX := (markedX.occupant kingSq).trans kingX
  have kingAtY := (markedY.occupant kingSq).trans kingY
  generalize checkers.toList = found
  rcases found with _ | ⟨checker, _ | ⟨other, rest⟩⟩ <;> dsimp only
  · exact marked.settleTail markedX markedY cx cy rights kingX kingY checkers
  · exact (marked.restrictToCheckResolutions (markedX.coherent cx) (markedY.coherent cy) kingAtX
      kingAtY checker).settleTail
      (markedX.next (Narrows.restrictToCheckResolutions _ kx kingSq checker)
        (bare_restrictToCheckResolutions _ kx kingSq checker))
      (markedY.next (Narrows.restrictToCheckResolutions _ ky kingSq checker)
        (bare_restrictToCheckResolutions _ ky kingSq checker)) cx cy rights kingX kingY checkers
  · exact (marked.freezeAllBut (markedX.coherent cx) (markedY.coherent cy) kingAtX
      kingAtY).settleTail
      (markedX.next (Narrows.freezeAllBut _ kx) (bare_freezeAllBut _ kx))
      (markedY.next (Narrows.freezeAllBut _ ky) (bare_freezeAllBut _ ky)) cx cy rights kingX kingY
      checkers

end Lookalike

theorem lookalike_regenerate {x y : Board} (cx : x.Coherent) (cy : y.Coherent) (view : SameView x y)
    (rights : ∀ c side, x.canCastle c side = y.canCastle c side) :
    Lookalike x.regenerate y.regenerate := by
  have raw : Lookalike x.rawReached y.rawReached := lookalike_withRawReach cx cy view
  have crx := Coherent.of_bare (bare_rawReached x) cx
  have cry := Coherent.of_bare (bare_rawReached y) cy
  obtain ⟨targetsX, guardsX⟩ := idle_rawReached x
  obtain ⟨targetsY, guardsY⟩ := idle_rawReached y
  have kingSquare : x.kingSquare x.side = y.kingSquare y.side := by
    rw [← (Agree.of_bare (bare_rawReached x)).kingSquare, ← (Agree.of_bare (bare_rawReached y)).kingSquare,
      ← view.side]
    exact raw.kingSquare crx cry x.side
  cases found : x.kingSquare x.side with
  | none =>
    rw [regenerate_eq_of_kingSquare found, regenerate_eq_of_kingSquare (kingSquare ▸ found)]
    refine raw.withStatus ?_
    rw [raw.countLegal crx cry targetsX targetsY]
  | some kingSq =>
    obtain ⟨kx, kingOfX, standsX⟩ := Option.bind_eq_some_iff.mp found
    obtain ⟨ky, kingOfY, standsY⟩ := Option.bind_eq_some_iff.mp (kingSquare ▸ found)
    rw [regenerate_eq_settle kingOfX standsX, regenerate_eq_settle kingOfY standsY]
    have stands {b : Board} (coherent : b.Coherent) {k : PieceId}
        (square : (b.piece k).square = some kingSq) : b.rawReached.occupant kingSq = some k :=
      (occupant_of_bare (bare_rawReached b) kingSq).trans (coherent.occupant_of_square square)
    refine raw.settle crx cry targetsX targetsY guardsX guardsY (fun c side => ?_)
      (stands cx standsX) (stands cy standsY)
    rw [(Agree.of_bare (bare_rawReached x)).canCastle, (Agree.of_bare (bare_rawReached y)).canCastle]
    exact rights c side

end Board

end Chess
