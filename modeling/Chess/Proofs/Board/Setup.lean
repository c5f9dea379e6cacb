import Chess.Proofs.Board.Coherence
import Chess.Proofs.Except
import Chess.Notation.Fen

namespace Chess

namespace Board

/-! Positions built by setup: the empty board, the standard start, a position from a setup
or a FEN text, and the edits allowed before the first move. Each is shown to be well formed
when the board it starts from is; the one exception is standing a pawn on an edge rank with
`setOccupant`, which keeps the views coherent but not the pawns off the edge. -/

section Views

variable {x y : Board}

theorem PawnsOffEdge.of_views (occupant : ∀ s, x.occupant s = y.occupant s)
    (piece : ∀ id, (x.piece? id).map Piece.bare = (y.piece? id).map Piece.bare)
    (pawns : y.PawnsOffEdge) : x.PawnsOffEdge := by
  intro s id held pawn
  rw [occupant] at held
  rw [Coherent.kind_piece_of_bare_views (piece id)] at pawn
  exact pawns s id held pawn

theorem WellFormed.of_views (occupant : ∀ s, x.occupant s = y.occupant s)
    (roster : ∀ c, x.roster c = y.roster c) (king : ∀ c, x.king c = y.king c)
    (piece : ∀ id, (x.piece? id).map Piece.bare = (y.piece? id).map Piece.bare)
    (wellFormed : y.WellFormed) : x.WellFormed :=
  ⟨Coherent.of_views occupant roster king piece wellFormed.toCoherent,
    PawnsOffEdge.of_views occupant piece wellFormed.pawns⟩

end Views

namespace WellFormed

variable {b : Board}

theorem regenerate (wellFormed : b.WellFormed) : b.regenerate.WellFormed :=
  of_bare (bare_regenerate b) wellFormed

theorem of_settings (wellFormed : b.WellFormed) (c : Color) (f : Option File) (half full : UInt32) :
    ({ b with side := c, enPassant := f, halfmove := half, fullmove := full } : Board).WellFormed :=
  @of_views _ b (fun _ => rfl) (fun c => by cases c <;> rfl) (fun c => by cases c <;> rfl)
    (fun _ => rfl) wellFormed

theorem modifyPiece (wellFormed : b.WellFormed) (id : PieceId) (f : Piece → Piece)
    (kind : ∀ p, (f p).kind = p.kind) (color : ∀ p, (f p).color = p.color)
    (square : ∀ p, (f p).square = p.square) (captured : ∀ p, (f p).captured = p.captured) :
    (b.modifyPiece id f).WellFormed :=
  ⟨wellFormed.toCoherent.modifyPiece id f kind color square captured,
    wellFormed.pawns.modifyPiece id f kind⟩

theorem setMoveCount (wellFormed : b.WellFormed) (id : PieceId) (count : UInt32 → UInt32) :
    (b.modifyPiece id fun p => { p with moveCount := count p.moveCount }).WellFormed :=
  wellFormed.modifyPiece id _ (fun _ => rfl) (fun _ => rfl) (fun _ => rfl) (fun _ => rfl)

theorem spawn (wellFormed : b.WellFormed) {kind : PieceKind} {color : Color} {s : Square}
    (empty : b.occupant s = none) (noKing : kind = .king → b.king color = none)
    (allowed : kind = .pawn → s.rank ≠ Rank.back .white ∧ s.rank ≠ Rank.back .black) :
    (b.spawn kind color s).1.WellFormed := by
  refine ⟨wellFormed.toCoherent.spawn empty noKing, ?_⟩
  apply wellFormed.pawns.of_occupants
  intro t id held pawn
  simp only [occupant_spawn] at held
  split at held
  · rename_i here
    subst here
    cases held
    simp [Board.piece] at pawn
    exact Or.inr (allowed pawn)
  · have old : id.index ≠ b.pieces.size := Nat.ne_of_lt (wellFormed.lt_size_of_occupant held)
    simp only [Board.piece, piece?_spawn, old, if_false] at pawn
    exact Or.inl ⟨held, pawn⟩

end WellFormed

section Edits

variable {b b' : Board}

theorem placePiece_eq_ok {kind : PieceKind} {color : Color} {s : Square} {id : PieceId}
    (placed : b.placePiece kind color s = .ok (b', id)) :
    b.started = false ∧ b.occupant s = none ∧ (kind = .king → b.king color = none) ∧
      (kind = .pawn → s.rank ≠ Rank.back .white ∧ s.rank ≠ Rank.back .black) ∧
      b' = (b.spawn kind color s).1.regenerate ∧ id = ⟨b.pieces.size⟩ := by
  cases started : b.started
  case true => simp [placePiece, ensureSetup, started] at placed
  simp only [placePiece, ensureSetup, started, Bool.false_eq_true, if_false, Except.pure_eq_ok,
    Except.ok_bind] at placed
  cases occupied : b.occupant s <;>
    simp only [occupied, Option.isSome_none, Option.isSome_some, Bool.false_eq_true, if_false,
      if_true] at placed
  case some => cases placed
  split at placed
  · cases placed
  split at placed
  · cases placed
  rename_i noKing pawnRule
  cases placed
  refine ⟨rfl, rfl, fun king => ?_, fun pawn => ?_, rfl, rfl⟩
  · cases hasKing : b.king color <;> simp_all
  · simp_all

theorem WellFormed.placePiece (wellFormed : b.WellFormed) {kind : PieceKind} {color : Color}
    {s : Square} {id : PieceId} (placed : b.placePiece kind color s = .ok (b', id)) :
    b'.WellFormed := by
  obtain ⟨-, empty, noKing, allowed, rfl, -⟩ := placePiece_eq_ok placed
  exact (wellFormed.spawn empty noKing allowed).regenerate

theorem WellFormed.removePiece (wellFormed : b.WellFormed) {s : Square} {id : PieceId}
    (removed : b.removePiece s = .ok (b', id)) : b'.WellFormed := by
  cases started : b.started
  case true => simp [Board.removePiece, ensureSetup, started] at removed
  simp only [Board.removePiece, ensureSetup, started, Bool.false_eq_true, if_false, Except.pure_eq_ok,
    Except.ok_bind] at removed
  cases held : b.occupant s with
  | none => simp [held] at removed
  | some x =>
    simp only [held, Except.ok.injEq, Prod.mk.injEq] at removed
    obtain ⟨rfl, rfl⟩ := removed
    apply WellFormed.regenerate
    have occupant : ∀ t, (if ((b.lift x).modifyRoster (b.piece x).color fun r => r.filter (· ≠ x)).king
        (b.piece x).color = some x then ((b.lift x).modifyRoster (b.piece x).color
          fun r => r.filter (· ≠ x)).setKing (b.piece x).color none
        else (b.lift x).modifyRoster (b.piece x).color fun r => r.filter (· ≠ x)).occupant t =
        (b.lift x).occupant t := by
      intro t
      split <;> simp
    have piece? : ∀ y, (if ((b.lift x).modifyRoster (b.piece x).color fun r => r.filter (· ≠ x)).king
        (b.piece x).color = some x then ((b.lift x).modifyRoster (b.piece x).color
          fun r => r.filter (· ≠ x)).setKing (b.piece x).color none
        else (b.lift x).modifyRoster (b.piece x).color fun r => r.filter (· ≠ x)).piece? y =
        (b.lift x).piece? y := by
      intro y
      split <;> simp
    refine ⟨wellFormed.toCoherent.of_removal held occupant piece? (fun c => ?_) (fun c => ?_),
      PawnsOffEdge.of_views occupant (fun y => by rw [piece? y]) (wellFormed.pawns.lift x)⟩
    · by_cases sameColor : c = (b.piece x).color
      · subst sameColor
        split <;> simp
      · split <;> simp [sameColor]
    · split
      · rename_i named
        simp only [king_modifyRoster, king_lift] at named
        by_cases sameColor : c = (b.piece x).color
        · subst sameColor
          simp [named]
        · simp [sameColor]
      · rename_i notNamed
        simp only [king_modifyRoster, king_lift] at notNamed
        by_cases sameColor : c = (b.piece x).color
        · subst sameColor
          simp [notNamed]
        · simp [sameColor]

theorem setOccupant_eq_ok {s : Square} {id : PieceId} (set : b.setOccupant s id = .ok b') :
    b.started = false ∧ id.index < b.pieces.size ∧
      ((b.occupant s = some id ∧ b' = b) ∨
        (b.occupant s = none ∧ id ∈ b.roster (b.piece id).color ∧
          b' = (((b.lift id).modifyPiece id fun p => { p with captured := false }).put id s).regenerate)) := by
  cases started : b.started
  case true => simp [Board.setOccupant, ensureSetup, started] at set
  simp only [Board.setOccupant, ensureSetup, started, Bool.false_eq_true, if_false,
    Except.pure_eq_ok, Except.ok_bind, Except.throw_eq_error, Except.error_bind] at set
  split at set
  · cases set
  rename_i inArena
  refine ⟨rfl, Nat.lt_of_not_le inArena, ?_⟩
  split at set
  · rename_i standing
    cases set
    exact Or.inl ⟨by simpa [occupiedBy] using standing, rfl⟩
  split at set
  · cases set
  rename_i empty
  split at set
  · cases set
  rename_i listed
  cases set
  exact Or.inr ⟨by simpa using empty, by simpa using listed, rfl⟩

theorem Coherent.setOccupant (coherent : b.Coherent) {s : Square} {id : PieceId}
    (set : b.setOccupant s id = .ok b') : b'.Coherent := by
  obtain ⟨-, inArena, ⟨-, rfl⟩ | ⟨empty, listed, rfl⟩⟩ := setOccupant_eq_ok set
  · exact coherent
  · exact (coherent.occupy empty (by simp [piece?, inArena]) listed).regenerate

theorem pawnsOffEdge_setOccupant_iff (wellFormed : b.WellFormed) {s : Square} {id : PieceId}
    (set : b.setOccupant s id = .ok b') :
    b'.PawnsOffEdge ↔
      ¬((b.piece id).kind = .pawn ∧ (s.rank = Rank.back .white ∨ s.rank = Rank.back .black)) := by
  obtain ⟨-, -, ⟨standing, rfl⟩ | ⟨-, -, rfl⟩⟩ := setOccupant_eq_ok set
  · refine iff_of_true wellFormed.pawns ?_
    rintro ⟨pawn, edge⟩
    have := wellFormed.pawns s id standing pawn
    rcases edge with edge | edge
    · exact this.1 edge
    · exact this.2 edge
  · constructor
    · rintro pawns ⟨pawn, edge⟩
      have placed := pawns s id (by simp) (by
        simpa [kind_piece_modifyPiece _ _ _ (fun p => { p with captured := false }) fun _ => rfl]
          using pawn)
      rcases edge with edge | edge
      · exact placed.1 edge
      · exact placed.2 edge
    · intro allowed
      apply PawnsOffEdge.of_bare (bare_regenerate _)
      apply ((wellFormed.pawns.lift id).modifyPiece id (fun p => { p with captured := false })
        fun _ => rfl).put
      intro pawn
      rw [kind_piece_modifyPiece _ _ _ (fun p => { p with captured := false }) fun _ => rfl,
        kind_piece_lift] at pawn
      exact ⟨fun edge => allowed ⟨pawn, Or.inl edge⟩, fun edge => allowed ⟨pawn, Or.inr edge⟩⟩

theorem ensureSetup_bind_eq_ok {α : Type} {x : Except MoveError α} {r : α}
    (run : (b.ensureSetup >>= fun _ => x) = .ok r) : b.started = false ∧ x = .ok r := by
  cases started : b.started
  · simpa [ensureSetup, started] using run
  · simp [ensureSetup, started] at run

theorem WellFormed.setSide (wellFormed : b.WellFormed) {c : Color} (set : b.setSide c = .ok b') :
    b'.WellFormed := by
  obtain ⟨-, set⟩ := ensureSetup_bind_eq_ok set
  cases set
  exact (wellFormed.of_settings c b.enPassant b.halfmove b.fullmove).regenerate

theorem WellFormed.setEnPassant (wellFormed : b.WellFormed) {f : Option File}
    (set : b.setEnPassant f = .ok b') : b'.WellFormed := by
  obtain ⟨-, set⟩ := ensureSetup_bind_eq_ok set
  cases set
  exact (wellFormed.of_settings b.side f b.halfmove b.fullmove).regenerate

theorem WellFormed.setHalfmove (wellFormed : b.WellFormed) {n : UInt32}
    (set : b.setHalfmove n = .ok b') : b'.WellFormed := by
  obtain ⟨-, set⟩ := ensureSetup_bind_eq_ok set
  cases set
  exact wellFormed.of_settings b.side b.enPassant n b.fullmove

theorem WellFormed.setFullmove (wellFormed : b.WellFormed) {n : UInt32}
    (set : b.setFullmove n = .ok b') : b'.WellFormed := by
  obtain ⟨-, set⟩ := ensureSetup_bind_eq_ok set
  cases set
  exact wellFormed.of_settings b.side b.enPassant b.halfmove n

theorem WellFormed.applyCastleRights (wellFormed : b.WellFormed) {c : Color} {side : CastleSide}
    {allowed : Bool} (applied : b.applyCastleRights c side allowed = .ok b') : b'.WellFormed := by
  have counted : ∀ (rooks : List PieceId) (x : Board), x.WellFormed →
      (rooks.foldl (fun b r => b.modifyPiece r fun p => { p with moveCount := max p.moveCount 1 })
        x).WellFormed := by
    intro rooks
    induction rooks with
    | nil => exact fun _ wellFormed => wellFormed
    | cons r rest ih => exact fun x wellFormed => ih _ (wellFormed.setMoveCount r (max · 1))
  unfold Board.applyCastleRights at applied
  cases allowed
  · simp only [Bool.not_false, if_true, Except.pure_eq_ok, Except.ok.injEq] at applied
    subst applied
    exact counted _ b wellFormed
  · simp only [Bool.not_true, Bool.false_eq_true, if_false] at applied
    split at applied
    · split at applied
      · cases applied
        exact ((counted _ b wellFormed).setMoveCount _ fun _ => 0).setMoveCount _ fun _ => 0
      · cases applied
    · cases applied

theorem WellFormed.setCastleRights (wellFormed : b.WellFormed) {c : Color} {side : CastleSide}
    {allowed : Bool} (set : b.setCastleRights c side allowed = .ok b') : b'.WellFormed := by
  obtain ⟨-, set⟩ := ensureSetup_bind_eq_ok set
  obtain ⟨x, applied, regenerated⟩ := Except.bind_eq_ok.mp set
  cases regenerated
  exact (wellFormed.applyCastleRights applied).regenerate

end Edits

section Construction

variable {b : Board}

theorem occupant_default (s : Square) : ({} : Board).occupant s = none := by
  simp [Board.occupant, Vector.get]

theorem king_default (c : Color) : ({} : Board).king c = none := by
  cases c <;> rfl

@[simp] theorem occupant_empty (s : Square) : Board.empty.occupant s = none := by
  simp [Board.empty, occupant_default]

@[simp] theorem king_empty (c : Color) : Board.empty.king c = none := by
  simp [Board.empty, king_default]

theorem wellFormed_default : ({} : Board).WellFormed := by
  have occupant := occupant_default
  have roster : ∀ c, ({} : Board).roster c = #[] := fun c => by cases c <;> rfl
  have king := king_default
  have piece? : ∀ id, ({} : Board).piece? id = none := fun id => by simp [Board.piece?]
  refine ⟨⟨fun s id => by simp [occupant, piece?], fun id p s found => by simp [piece?] at found,
    fun c id member => by simp [roster] at member, fun c => by simp [roster],
    fun c id _ member => by simp [roster] at member, fun c id => by simp [king, roster]⟩,
    fun s id held => by simp [occupant] at held⟩

theorem WellFormed.empty : Board.empty.WellFormed :=
  wellFormed_default.regenerate

theorem WellFormed.placeFromSetup (wellFormed : b.WellFormed) {st : Setup} {s : Square} {b' : Board}
    (placed : Board.placeFromSetup st b s = .ok b') : b'.WellFormed := by
  unfold Board.placeFromSetup at placed
  dsimp only at placed
  split at placed
  · cases placed
    exact wellFormed
  split at placed
  · obtain ⟨⟨x, id⟩, stood, taken⟩ := Except.bind_eq_ok.mp placed
    cases taken
    exact wellFormed.placePiece stood
  · cases placed

theorem WellFormed.finishSetup (wellFormed : b.WellFormed) {st : Setup} {b' : Board}
    (finished : Board.finishSetup st b = .ok b') : b'.WellFormed := by
  obtain ⟨x, granted, regenerated⟩ := Except.bind_eq_ok.mp finished
  cases regenerated
  apply WellFormed.regenerate
  refine Except.foldlM_induction (P := WellFormed) ?_ _ _ x
    (wellFormed.of_settings st.side st.enPassant st.halfmove st.fullmove) granted
  rintro a ⟨c, side⟩ a' wellFormed' applied
  exact wellFormed'.applyCastleRights applied

theorem WellFormed.ofSetup {st : Setup} (built : Board.ofSetup st = .ok b) : b.WellFormed := by
  obtain ⟨placed, run, finished⟩ := Except.bind_eq_ok.mp built
  have : placed.WellFormed :=
    Except.foldlM_induction (P := WellFormed) (fun _ _ _ wellFormed step => wellFormed.placeFromSetup step)
      _ _ _ WellFormed.empty run
  exact this.finishSetup finished

theorem WellFormed.ofFen {text : String} (built : Board.ofFen text = .ok b) : b.WellFormed := by
  obtain ⟨st, -, built⟩ := Except.bind_eq_ok.mp built
  split at built
  · rename_i fromSetup
    cases built
    exact WellFormed.ofSetup fromSetup
  · cases built

/-- Standing new pieces one after another on empty squares keeps a board well formed, when no
two share a square, no two kings share a colour, no king joins a colour that has one and no
pawn goes to an edge rank. -/
theorem WellFormed.spawnAll : ∀ (placements : List (PieceKind × Color × Square)) {b : Board},
    b.WellFormed → (∀ e ∈ placements, b.occupant e.2.2 = none) →
    (∀ e ∈ placements, e.1 = .king → b.king e.2.1 = none) →
    (∀ e ∈ placements, e.1 = .pawn →
      e.2.2.rank ≠ Rank.back .white ∧ e.2.2.rank ≠ Rank.back .black) →
    placements.Pairwise (fun e e' => e.2.2 ≠ e'.2.2 ∧ ¬(e.1 = .king ∧ e'.1 = .king ∧ e.2.1 = e'.2.1)) →
    (placements.foldl (fun b e => (b.spawn e.1 e.2.1 e.2.2).1) b).WellFormed
  | [], _, wellFormed, _, _, _, _ => wellFormed
  | (kind, color, s) :: rest, b, wellFormed, empty, noKing, allowed, apart => by
    rw [List.pairwise_cons] at apart
    have first := List.mem_cons_self (a := (kind, color, s)) (l := rest)
    have later : ∀ e ∈ rest, e ∈ (kind, color, s) :: rest := fun e => List.mem_cons_of_mem _
    apply WellFormed.spawnAll rest
      (wellFormed.spawn (empty _ first) (noKing _ first) (allowed _ first))
    · intro e member
      rw [occupant_spawn, if_neg (apart.1 e member).1.symm]
      exact empty e (later e member)
    · intro e member isKing
      rw [king_spawn, if_neg]
      · exact noKing e (later e member) isKing
      · rintro ⟨sameColor, newKing⟩
        exact (apart.1 e member).2 ⟨newKing, isKing, sameColor.symm⟩
    · exact fun e member => allowed e (later e member)
    · exact apart.2

/-- The pieces of the standard start in the order they are stood on the board: for White
then Black, file by file, the back-rank piece and then the pawn. -/
def standardPlacements : List (PieceKind × Color × Square) :=
  [Color.white, .black].flatMap fun c => (List.finRange 8).flatMap fun f =>
    [(backRankKinds.toArray.getD f.val .rook, c, Square.make ⟨f⟩ (Rank.back c)),
      (.pawn, c, Square.make ⟨f⟩ (Rank.pawnStart c))]

theorem standard_eq_spawnAll :
    Board.standard = (standardPlacements.foldl (fun b e => (b.spawn e.1 e.2.1 e.2.2).1) empty).regenerate := by
  simp only [standardPlacements, List.foldl_flatMap]
  rfl

theorem WellFormed.standard : Board.standard.WellFormed := by
  rw [standard_eq_spawnAll]
  exact (WellFormed.spawnAll standardPlacements WellFormed.empty (fun e _ => occupant_empty _)
    (fun e _ _ => king_empty _) (by decide) (by decide)).regenerate

end Construction

end Board

end Chess
