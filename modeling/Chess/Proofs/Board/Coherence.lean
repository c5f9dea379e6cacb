import Chess.Proofs.Board.Regenerate
import Chess.Board.Setup
import Mathlib.Data.List.Nodup

namespace Chess

/-! The representation invariant of a board. A board keeps four redundant views of its
pieces: the grid, each piece's own square and captured flag, the rosters and the king
references. `Coherent` says they tell the same story; `WellFormed` adds that no pawn stands
on the first or last rank. This module proves that the edits a board is built from keep
the views coherent, and that regeneration, which only rewrites caches, keeps everything. -/

namespace Board

/-- The grid, the pieces, the rosters and the king references agree. -/
structure Coherent (b : Board) : Prop where
  /-- A square holds an id exactly when that piece records the square as its own. -/
  occupant_iff : ∀ s id, b.occupant s = some id ↔ ∃ p, b.piece? id = some p ∧ p.square = some s
  /-- A piece on the board is not captured and is in the roster of its colour. -/
  standing : ∀ id p s, b.piece? id = some p → p.square = some s →
    p.captured = false ∧ id ∈ b.roster p.color
  /-- A roster holds pieces of its colour, each on the board exactly when not captured. -/
  enrolled : ∀ c id, id ∈ b.roster c →
    ∃ p, b.piece? id = some p ∧ p.color = c ∧ p.square.isSome = !p.captured
  /-- No roster names a piece twice. -/
  nodup : ∀ c, (b.roster c).toList.Nodup
  /-- A roster holds at most one king. -/
  one_king : ∀ c id id', id ∈ b.roster c → id' ∈ b.roster c →
    (b.piece id).kind = .king → (b.piece id').kind = .king → id = id'
  /-- The king reference of a colour is the king of its roster. -/
  king_iff : ∀ c id, b.king c = some id ↔ id ∈ b.roster c ∧ (b.piece id).kind = .king

def PawnsOffEdge (b : Board) : Prop :=
  ∀ s id, b.occupant s = some id → (b.piece id).kind = .pawn →
    s.rank ≠ Rank.back .white ∧ s.rank ≠ Rank.back .black

/-- The representation invariant: coherent views and no pawn on an edge rank. -/
structure WellFormed (b : Board) : Prop extends b.Coherent where
  pawns : b.PawnsOffEdge

def Linked (b : Board) : Prop :=
  ∀ s id, b.occupant s = some id ↔ ∃ p, b.piece? id = some p ∧ p.square = some s

namespace Linked

variable {b : Board}

theorem lift (linked : b.Linked) (id : PieceId) : (b.lift id).Linked := by
  intro t other
  simp only [occupant_lift, piece?_lift]
  by_cases same : other = id
  · subst same
    simp only [if_true, Option.map_eq_some_iff]
    constructor
    · intro held
      split at held
      · cases held
      · rename_i notHere
        obtain ⟨p, found, square⟩ := (linked t other).mp held
        exact absurd ⟨by rw [piece_eq_of_piece? b found, square], held⟩ notHere
    · rintro ⟨p, ⟨q, -, rfl⟩, square⟩
      cases square
  · simp only [same, if_false]
    constructor
    · intro held
      split at held
      · cases held
      · exact (linked t other).mp held
    · intro onBoard
      have held := (linked t other).mpr onBoard
      rw [if_neg]
      · exact held
      · rintro ⟨-, held'⟩
        rw [held'] at held
        exact same (Option.some.inj held).symm

theorem put (linked : b.Linked) {id : PieceId} {s : Square} (empty : b.occupant s = none)
    (present : (b.piece? id).isSome) (off : (b.piece id).square = none) : (b.put id s).Linked := by
  intro t other
  simp only [occupant_put, piece?_put]
  by_cases same : other = id
  · subst same
    obtain ⟨p, found⟩ := Option.isSome_iff_exists.mp present
    simp only [if_true, found, Option.map_some, Option.some.injEq, exists_eq_left']
    by_cases here : t = s
    · simp [here]
    · simp only [here, if_false]
      constructor
      · intro held
        obtain ⟨q, found', square⟩ := (linked t other).mp held
        rw [found] at found'
        cases found'
        rw [piece_eq_of_piece? b found] at off
        rw [off] at square
        cases square
      · intro same'
        exact absurd same'.symm here
  · simp only [same, if_false]
    by_cases here : t = s
    · subst here
      simp only [if_true, Option.some.injEq]
      constructor
      · intro same'
        exact absurd same'.symm same
      · intro onBoard
        rw [(linked t other).mpr onBoard] at empty
        cases empty
    · simp only [here, if_false]
      exact linked t other

theorem modifyPiece (linked : b.Linked) (id : PieceId) (f : Piece → Piece)
    (keeps : ∀ p, (f p).square = p.square) : (b.modifyPiece id f).Linked := by
  intro t other
  simp only [occupant_modifyPiece, piece?_modifyPiece]
  split
  · rw [linked t other]
    constructor
    · rintro ⟨p, found, square⟩
      exact ⟨f p, by simp [found], by rw [keeps, square]⟩
    · rintro ⟨p, found, square⟩
      obtain ⟨q, found', rfl⟩ := Option.map_eq_some_iff.mp found
      exact ⟨q, found', by rw [← keeps, square]⟩
  · exact linked t other

end Linked

namespace Coherent

variable {b : Board}

theorem linked (coherent : b.Coherent) : b.Linked := coherent.occupant_iff

theorem piece?_of_occupant (coherent : b.Coherent) {s : Square} {id : PieceId}
    (held : b.occupant s = some id) : ∃ p, b.piece? id = some p ∧ p.square = some s :=
  (coherent.occupant_iff s id).mp held

theorem piece_square_of_occupant (coherent : b.Coherent) {s : Square} {id : PieceId}
    (held : b.occupant s = some id) : (b.piece id).square = some s := by
  obtain ⟨p, found, standing⟩ := coherent.piece?_of_occupant held
  rw [piece_eq_of_piece? b found]
  exact standing

theorem lt_size_of_piece? {id : PieceId} {p : Piece} (found : b.piece? id = some p) :
    id.index < b.pieces.size := by
  simp only [piece?] at found
  exact (Array.getElem?_eq_some_iff.mp found).1

theorem lt_size_of_roster (coherent : b.Coherent) {c : Color} {id : PieceId}
    (member : id ∈ b.roster c) : id.index < b.pieces.size := by
  obtain ⟨p, found, -⟩ := coherent.enrolled c id member
  exact lt_size_of_piece? found

theorem lt_size_of_occupant (coherent : b.Coherent) {s : Square} {id : PieceId}
    (held : b.occupant s = some id) : id.index < b.pieces.size := by
  obtain ⟨p, found, -⟩ := coherent.piece?_of_occupant held
  exact lt_size_of_piece? found

theorem color_of_roster (coherent : b.Coherent) {c : Color} {id : PieceId}
    (member : id ∈ b.roster c) : (b.piece id).color = c := by
  obtain ⟨p, found, color, -⟩ := coherent.enrolled c id member
  rw [piece_eq_of_piece? b found, color]

theorem kind_piece_of_bare_views {x y : Board} {id : PieceId}
    (same : (x.piece? id).map Piece.bare = (y.piece? id).map Piece.bare) :
    (x.piece id).kind = (y.piece id).kind := by
  cases hx : x.piece? id <;> cases hy : y.piece? id <;> simp_all [Board.piece]
  rw [← Piece.bare_kind, same, Piece.bare_kind]

theorem of_views {x y : Board} (occupant : ∀ s, x.occupant s = y.occupant s)
    (roster : ∀ c, x.roster c = y.roster c) (king : ∀ c, x.king c = y.king c)
    (piece : ∀ id, (x.piece? id).map Piece.bare = (y.piece? id).map Piece.bare)
    (coherent : y.Coherent) : x.Coherent := by
  have found : ∀ {id p}, x.piece? id = some p → ∃ q, y.piece? id = some q ∧ q.bare = p.bare := by
    intro id p hp
    have := piece id
    rw [hp] at this
    obtain ⟨q, hq, hbare⟩ := Option.map_eq_some_iff.mp this.symm
    exact ⟨q, hq, hbare⟩
  have found' : ∀ {id q}, y.piece? id = some q → ∃ p, x.piece? id = some p ∧ p.bare = q.bare := by
    intro id q hq
    have := piece id
    rw [hq] at this
    obtain ⟨p, hp, hbare⟩ := Option.map_eq_some_iff.mp this
    exact ⟨p, hp, hbare⟩
  have kind : ∀ id, (x.piece id).kind = (y.piece id).kind := fun id =>
    kind_piece_of_bare_views (piece id)
  constructor
  · intro s id
    rw [occupant, coherent.occupant_iff]
    constructor
    · rintro ⟨q, hq, standing⟩
      obtain ⟨p, hp, hbare⟩ := found' hq
      exact ⟨p, hp, by rw [← Piece.bare_square, hbare, Piece.bare_square, standing]⟩
    · rintro ⟨p, hp, standing⟩
      obtain ⟨q, hq, hbare⟩ := found hp
      exact ⟨q, hq, by rw [← Piece.bare_square, hbare, Piece.bare_square, standing]⟩
  · intro id p s hp standing
    obtain ⟨q, hq, hbare⟩ := found hp
    have := coherent.standing id q s hq (by rw [← Piece.bare_square, hbare]; exact standing)
    rw [roster, ← Piece.bare_captured, ← Piece.bare_color, ← hbare]
    exact this
  · intro c id member
    rw [roster] at member
    obtain ⟨q, hq, color, flag⟩ := coherent.enrolled c id member
    obtain ⟨p, hp, hbare⟩ := found' hq
    refine ⟨p, hp, ?_, ?_⟩
    · rw [← Piece.bare_color, hbare, Piece.bare_color, color]
    · rw [← Piece.bare_square, ← Piece.bare_captured, hbare, Piece.bare_square,
        Piece.bare_captured, flag]
  · intro c
    rw [roster]
    exact coherent.nodup c
  · intro c id id' member member' isKing isKing'
    rw [roster] at member member'
    rw [kind] at isKing isKing'
    exact coherent.one_king c id id' member member' isKing isKing'
  · intro c id
    rw [king, roster, coherent.king_iff, kind]

theorem of_bare {x y : Board} (same : x.bare = y.bare) (coherent : y.Coherent) : x.Coherent :=
  of_views (occupant_of_bare same) (roster_of_bare same) (king_of_bare same)
    (piece?_of_bare same) coherent

theorem regenerate (coherent : b.Coherent) : b.regenerate.Coherent :=
  of_bare (bare_regenerate b) coherent

theorem piece?_fresh (b : Board) : b.piece? ⟨b.pieces.size⟩ = none := by
  simp [piece?]

theorem occupant_ne_fresh (coherent : b.Coherent) (s : Square) :
    b.occupant s ≠ some ⟨b.pieces.size⟩ := fun held =>
  Nat.lt_irrefl _ (coherent.lt_size_of_occupant held)

theorem fresh_not_mem_roster (coherent : b.Coherent) (c : Color) :
    (⟨b.pieces.size⟩ : PieceId) ∉ b.roster c := fun member =>
  Nat.lt_irrefl _ (coherent.lt_size_of_roster member)

theorem ne_fresh_of_roster (coherent : b.Coherent) {c : Color} {id : PieceId}
    (member : id ∈ b.roster c) : id.index ≠ b.pieces.size :=
  Nat.ne_of_lt (coherent.lt_size_of_roster member)

/-- An edit that leaves rosters, kings and every piece's kind and colour alone keeps the
views coherent when the grid and the squares agree afterwards, a piece on the board is not
captured, and a roster piece is on the board exactly when it is not captured. -/
theorem of_moves {b' : Board} (coherent : b.Coherent) (roster : ∀ c, b'.roster c = b.roster c)
    (king : ∀ c, b'.king c = b.king c)
    (kept : ∀ id p, b.piece? id = some p →
      ∃ p', b'.piece? id = some p' ∧ p'.kind = p.kind ∧ p'.color = p.color)
    (linked : b'.Linked)
    (standing : ∀ id p s, b'.piece? id = some p → p.square = some s →
      p.captured = false ∧ id ∈ b.roster p.color)
    (flag : ∀ c id, id ∈ b.roster c → ∃ p, b'.piece? id = some p ∧ p.square.isSome = !p.captured) :
    b'.Coherent := by
  have kind : ∀ c id, id ∈ b.roster c → (b'.piece id).kind = (b.piece id).kind := by
    intro c id member
    obtain ⟨p, found, -⟩ := coherent.enrolled c id member
    obtain ⟨p', found', sameKind, -⟩ := kept id p found
    rw [piece_eq_of_piece? b found, piece_eq_of_piece? b' found', sameKind]
  refine ⟨linked, fun id p s found standing' => ?_, fun c id member => ?_, fun c => ?_,
    fun c id id' member member' isKing isKing' => ?_, fun c id => ?_⟩
  · rw [roster]
    exact standing id p s found standing'
  · rw [roster] at member
    obtain ⟨p, found, color, -⟩ := coherent.enrolled c id member
    obtain ⟨p', found', -, sameColor⟩ := kept id p found
    obtain ⟨q, found'', onBoard⟩ := flag c id member
    rw [found'] at found''
    cases found''
    exact ⟨p', found', sameColor.trans color, onBoard⟩
  · rw [roster]
    exact coherent.nodup c
  · rw [roster] at member member'
    rw [kind c id member] at isKing
    rw [kind c id' member'] at isKing'
    exact coherent.one_king c id id' member member' isKing isKing'
  · rw [king, roster, coherent.king_iff]
    constructor
    · rintro ⟨member, isKing⟩
      exact ⟨member, (kind c id member).trans isKing⟩
    · rintro ⟨member, isKing⟩
      exact ⟨member, (kind c id member).symm.trans isKing⟩

theorem capture (coherent : b.Coherent) {v : PieceId} {o : Square} (held : b.occupant o = some v) :
    (b.capture v).Coherent := by
  have standing := coherent.piece_square_of_occupant held
  apply coherent.of_moves (roster_capture b v) (king_capture b v)
  · intro id p found
    by_cases same : id = v
    · subst same
      exact ⟨{ p with square := none, captured := true }, by simp [found], rfl, rfl⟩
    · simp [same, found]
  · intro t id
    simp only [occupant_capture, occupant_lift, standing, Option.some.injEq, piece?_capture]
    by_cases same : id = v
    · subst same
      simp only [if_true]
      constructor
      · intro held'
        split at held'
        · cases held'
        · rename_i notHere
          have here := standing.symm.trans (coherent.piece_square_of_occupant held')
          exact absurd ⟨Option.some.inj here, held'⟩ notHere
      · rintro ⟨p, found, square⟩
        obtain ⟨q, -, rfl⟩ := Option.map_eq_some_iff.mp found
        cases square
    · simp only [same, if_false]
      constructor
      · intro held'
        split at held'
        · cases held'
        · exact coherent.piece?_of_occupant held'
      · intro onBoard
        have held' := (coherent.occupant_iff t id).mpr onBoard
        rw [if_neg]
        · exact held'
        · rintro ⟨rfl, held''⟩
          rw [held''] at held'
          exact same (Option.some.inj held').symm
  · intro id p t found square
    simp only [piece?_capture] at found
    split at found
    · obtain ⟨q, -, rfl⟩ := Option.map_eq_some_iff.mp found
      cases square
    · exact coherent.standing id p t found square
  · intro c id member
    simp only [piece?_capture]
    split
    · obtain ⟨p, found, -⟩ := coherent.enrolled c id member
      simp [found]
    · obtain ⟨p, found, -, flag⟩ := coherent.enrolled c id member
      exact ⟨p, found, flag⟩

theorem of_relocation {b' : Board} (coherent : b.Coherent) (roster : ∀ c, b'.roster c = b.roster c)
    (king : ∀ c, b'.king c = b.king c) (linked : b'.Linked)
    (moved : ∀ id p, b.piece? id = some p → ∃ p', b'.piece? id = some p' ∧ p'.kind = p.kind ∧
      p'.color = p.color ∧ p'.captured = p.captured ∧ p'.square.isSome = p.square.isSome)
    (fresh : ∀ id, b.piece? id = none → b'.piece? id = none) : b'.Coherent := by
  apply coherent.of_moves roster king
  · intro id p found
    obtain ⟨p', found', kind, color, -⟩ := moved id p found
    exact ⟨p', found', kind, color⟩
  · exact linked
  · intro id p' s found' square'
    cases found : b.piece? id with
    | none => rw [fresh id found] at found'; cases found'
    | some p =>
      obtain ⟨q, found'', -, color, captured, onBoard⟩ := moved id p found
      rw [found'] at found''
      cases found''
      have onBoard' : p.square.isSome := by rw [← onBoard, square']; rfl
      obtain ⟨s₀, square⟩ := Option.isSome_iff_exists.mp onBoard'
      rw [captured, color]
      exact coherent.standing id p s₀ found square
  · intro c id member
    obtain ⟨p, found, -, flag⟩ := coherent.enrolled c id member
    obtain ⟨p', found', -, -, captured, onBoard⟩ := moved id p found
    exact ⟨p', found', by rw [onBoard, captured, flag]⟩

theorem relocate (coherent : b.Coherent) {id : PieceId} {o t : Square}
    (held : b.occupant o = some id) (empty : b.occupant t = none) :
    ((b.lift id).put id t).Coherent := by
  obtain ⟨p, found, standing⟩ := coherent.piece?_of_occupant held
  have emptyAfter : (b.lift id).occupant t = none := by
    simp [empty]
  apply coherent.of_relocation (by simp) (by simp)
  · exact (coherent.linked.lift id).put emptyAfter (by simp [found]) (square_piece_lift b id)
  · intro other q found'
    by_cases same : other = id
    · subst same
      rw [found] at found'
      cases found'
      simp [found, standing]
    · simp [same, found']
  · intro other missing
    have apart : other ≠ id := by
      rintro rfl
      simp [found] at missing
    simp [apart, missing]

theorem castle (coherent : b.Coherent) {k r : PieceId} {ko ro kt rt : Square}
    (kingHeld : b.occupant ko = some k) (rookHeld : b.occupant ro = some r) (apart : k ≠ r)
    (targets : kt ≠ rt)
    (kingClear : b.occupant kt = none ∨ b.occupant kt = some k ∨ b.occupant kt = some r)
    (rookClear : b.occupant rt = none ∨ b.occupant rt = some k ∨ b.occupant rt = some r) :
    ((((b.lift k).lift r).put k kt).put r rt).Coherent := by
  obtain ⟨pk, foundK, standingK⟩ := coherent.piece?_of_occupant kingHeld
  obtain ⟨pr, foundR, standingR⟩ := coherent.piece?_of_occupant rookHeld
  have squareK := coherent.piece_square_of_occupant kingHeld
  have squareR := coherent.piece_square_of_occupant rookHeld
  have cleared : ∀ t, (b.occupant t = none ∨ b.occupant t = some k ∨ b.occupant t = some r) →
      ((b.lift k).lift r).occupant t = none := by
    intro t clear
    have pieceR : (b.lift k).piece r = b.piece r := piece_lift_of_ne b (Ne.symm apart)
    rcases clear with held | held | held
    · simp [held]
    · have := coherent.piece_square_of_occupant held
      simp [held, this]
    · have := coherent.piece_square_of_occupant held
      simp [held, this, pieceR, Ne.symm apart]
  have linked : ((((b.lift k).lift r).put k kt).put r rt).Linked := by
    have lifted := (coherent.linked.lift k).lift r
    have kingDown : (((b.lift k).lift r).put k kt).Linked := lifted.put (cleared kt kingClear) (by simp [foundK])
      (by rw [piece_lift_of_ne _ apart, square_piece_lift])
    exact kingDown.put (by simp [targets.symm, cleared rt rookClear]) (by simp [foundR, Ne.symm apart])
      (by rw [piece_put_of_ne _ _ (Ne.symm apart), square_piece_lift])
  apply coherent.of_relocation (by simp) (by simp) linked
  · intro other q found
    by_cases isRook : other = r
    · subst isRook
      rw [foundR] at found
      cases found
      simp [foundR, Ne.symm apart, standingR]
    · by_cases isKing : other = k
      · subst isKing
        rw [foundK] at found
        cases found
        simp [foundK, apart, standingK]
      · simp [isRook, isKing, found]
  · intro other missing
    have notRook : other ≠ r := by
      rintro rfl
      simp [foundR] at missing
    have notKing : other ≠ k := by
      rintro rfl
      simp [foundK] at missing
    simp [notRook, notKing, missing]

theorem occupy (coherent : b.Coherent) {id : PieceId} {s : Square} (empty : b.occupant s = none)
    (present : (b.piece? id).isSome) (member : id ∈ b.roster (b.piece id).color) :
    (((b.lift id).modifyPiece id fun p => { p with captured := false }).put id s).Coherent := by
  obtain ⟨p, found⟩ := Option.isSome_iff_exists.mp present
  have emptyAfter : ((b.lift id).modifyPiece id fun p => { p with captured := false }).occupant s = none := by
    simp [empty]
  apply coherent.of_moves (by simp) (by simp)
  · intro other q found'
    by_cases same : other = id
    · subst same
      simp [found']
    · simp [same, found']
  · have linked := (coherent.linked.lift id).modifyPiece id
      (fun p => { p with captured := false }) fun _ => rfl
    exact linked.put emptyAfter (by simp [found]) (by simp [piece, found])
  · intro other q s' found' square
    simp only [piece?_put, piece?_modifyPiece, piece?_lift] at found'
    split at found'
    · rename_i same
      subst same
      simp only [found, Option.map_some, Option.some.injEq] at found'
      subst found'
      rw [piece_eq_of_piece? b found] at member
      exact ⟨rfl, member⟩
    · exact coherent.standing other q s' found' square
  · intro c other member'
    simp only [piece?_put, piece?_modifyPiece, piece?_lift]
    split
    · rename_i same
      subst same
      simp [found]
    · obtain ⟨q, found', -, flag⟩ := coherent.enrolled c other member'
      exact ⟨q, found', flag⟩

theorem of_removal {b' : Board} (coherent : b.Coherent) {s : Square} {id : PieceId}
    (held : b.occupant s = some id)
    (occupant : ∀ t, b'.occupant t = (b.lift id).occupant t)
    (piece? : ∀ x, b'.piece? x = (b.lift id).piece? x)
    (roster : ∀ c, b'.roster c =
      if c = (b.piece id).color then (b.roster c).filter (· ≠ id) else b.roster c)
    (king : ∀ c, b'.king c =
      if c = (b.piece id).color ∧ b.king c = some id then none else b.king c) :
    b'.Coherent := by
  have piece : ∀ x, x ≠ id → b'.piece x = b.piece x := by
    intro x apart
    rw [Board.piece, piece?, ← Board.piece, piece_lift_of_ne b apart]
  have member : ∀ c x, x ∈ b'.roster c ↔ x ∈ b.roster c ∧ x ≠ id := by
    intro c x
    rw [roster]
    split
    · simp
    · rename_i otherColor
      refine ⟨fun old => ⟨old, ?_⟩, fun both => both.1⟩
      rintro rfl
      exact otherColor (coherent.color_of_roster old).symm
  constructor
  · intro t x
    rw [occupant, piece?]
    exact coherent.linked.lift id t x
  · intro x p t found square
    rw [piece?] at found
    by_cases same : x = id
    · subst same
      simp only [piece?_lift, if_true] at found
      obtain ⟨q, -, rfl⟩ := Option.map_eq_some_iff.mp found
      cases square
    · simp only [piece?_lift, same, if_false] at found
      have := coherent.standing x p t found square
      exact ⟨this.1, (member _ x).mpr ⟨this.2, same⟩⟩
  · intro c x listed
    obtain ⟨old, apart⟩ := (member c x).mp listed
    rw [piece?]
    simp only [piece?_lift, apart, if_false]
    exact coherent.enrolled c x old
  · intro c
    rw [roster]
    split
    · rw [Array.toList_filter]
      exact (coherent.nodup c).filter _
    · exact coherent.nodup c
  · intro c x y listed listed' isKing isKing'
    obtain ⟨old, apart⟩ := (member c x).mp listed
    obtain ⟨old', apart'⟩ := (member c y).mp listed'
    rw [piece x apart] at isKing
    rw [piece y apart'] at isKing'
    exact coherent.one_king c x y old old' isKing isKing'
  · intro c x
    rw [king, member]
    split
    · rename_i removed
      simp only [reduceCtorEq, false_iff, not_and]
      rintro ⟨old, apart⟩ isKing
      rw [piece x apart] at isKing
      have := (coherent.king_iff c x).mpr ⟨old, isKing⟩
      rw [removed.2] at this
      exact apart (Option.some.inj this).symm
    · rename_i kept
      rw [coherent.king_iff]
      constructor
      · rintro ⟨old, isKing⟩
        have apart : x ≠ id := by
          rintro rfl
          exact kept ⟨(coherent.color_of_roster old).symm,
            (coherent.king_iff c x).mpr ⟨old, isKing⟩⟩
        exact ⟨⟨old, apart⟩, by rw [piece x apart]; exact isKing⟩
      · rintro ⟨⟨old, apart⟩, isKing⟩
        exact ⟨old, by rw [← piece x apart]; exact isKing⟩

/-- Standing a new piece where a piece stood and putting it in that piece's place in the
roster keeps the views coherent, when the new piece is off the board, not captured, of the
same colour and in no roster, and neither is a king. This is a promotion, and taking one
back. -/
theorem swap (coherent : b.Coherent) {old new : PieceId} {t : Square} {r : Piece}
    (held : b.occupant t = some old) (found : b.piece? new = some r) (off : r.square = none)
    (uncaptured : r.captured = false) (color : r.color = (b.piece old).color)
    (outside : new ∉ b.roster r.color) (newKind : r.kind ≠ .king)
    (oldKind : (b.piece old).kind ≠ .king) :
    (((b.lift old).put new t).replaceInRoster old new).Coherent := by
  obtain ⟨p, foundOld, standingOld⟩ := coherent.piece?_of_occupant held
  have pieceOld := piece_eq_of_piece? b foundOld
  rw [pieceOld] at color oldKind
  obtain ⟨-, oldMember⟩ := coherent.standing old p t foundOld standingOld
  rw [← color] at oldMember
  have apart : new ≠ old := by
    rintro rfl
    rw [found] at foundOld
    cases foundOld
    rw [off] at standingOld
    cases standingOld
  have roster : ∀ c, (((b.lift old).put new t).replaceInRoster old new).roster c =
      if c = r.color then (b.roster c).map (fun x => if x = old then new else x)
      else b.roster c := by
    intro c
    rw [roster_replaceInRoster, roster_put, roster_lift, piece_put_of_ne _ _ (Ne.symm apart)]
    simp [piece, foundOld, color]
  have otherRoster : ∀ c x, x ∈ b.roster c → c ≠ r.color → x ≠ old ∧ x ≠ new := by
    intro c x member otherColor
    refine ⟨?_, ?_⟩ <;> rintro rfl
    · exact otherColor ((coherent.color_of_roster member).symm.trans (by rw [pieceOld, color]))
    · exact otherColor ((coherent.color_of_roster member).symm.trans
        (by rw [piece_eq_of_piece? b found]))
  have member : ∀ c x, x ∈ (((b.lift old).put new t).replaceInRoster old new).roster c ↔
      (c = r.color ∧ x = new) ∨ (x ≠ old ∧ x ≠ new ∧ x ∈ b.roster c) := by
    intro c x
    rw [roster]
    split
    · rename_i sameColor
      subst sameColor
      rw [mem_replace]
      constructor
      · rintro (⟨rfl, -⟩ | ⟨apart', listed⟩)
        · exact Or.inl ⟨rfl, rfl⟩
        · exact Or.inr ⟨apart', fun same => outside (same ▸ listed), listed⟩
      · rintro (⟨-, rfl⟩ | ⟨apart', -, listed⟩)
        · exact Or.inl ⟨rfl, oldMember⟩
        · exact Or.inr ⟨apart', listed⟩
    · rename_i otherColor
      constructor
      · intro listed
        obtain ⟨a, b⟩ := otherRoster c x listed otherColor
        exact Or.inr ⟨a, b, listed⟩
      · rintro (⟨sameColor, -⟩ | ⟨-, -, listed⟩)
        · exact absurd sameColor otherColor
        · exact listed
  have piece? : ∀ x, (((b.lift old).put new t).replaceInRoster old new).piece? x =
      if x = new then some { r with square := some t }
      else if x = old then some { p with square := none } else b.piece? x := by
    intro x
    by_cases isNew : x = new
    · subst isNew
      simp [found, apart]
    · by_cases isOld : x = old
      · subst isOld
        simp [foundOld, isNew]
      · simp [isNew, isOld]
  have piece : ∀ x, x ≠ old → x ≠ new →
      (((b.lift old).put new t).replaceInRoster old new).piece x = b.piece x := by
    intro x notOld notNew
    simp [Board.piece, piece?, notOld, notNew]
  constructor
  · have emptied : (b.lift old).occupant t = none := by
      simp [pieceOld, standingOld, held]
    have linked : ((b.lift old).put new t).Linked := (coherent.linked.lift old).put emptied
      (by simp [found, apart])
      (by rw [piece_lift_of_ne _ apart, piece_eq_of_piece? b found, off])
    intro s x
    simpa using linked s x
  · intro x q s found' square
    rw [piece?] at found'
    split at found'
    · rename_i isNew
      subst isNew
      cases found'
      exact ⟨uncaptured, (member _ x).mpr (Or.inl ⟨rfl, rfl⟩)⟩
    · rename_i isNew
      split at found'
      · cases found'
        cases square
      · rename_i isOld
        have := coherent.standing x q s found' square
        exact ⟨this.1, (member _ x).mpr (Or.inr ⟨isOld, isNew, this.2⟩)⟩
  · intro c x listed
    rw [piece?]
    rcases (member c x).mp listed with ⟨rfl, rfl⟩ | ⟨notOld, notNew, listed'⟩
    · simp [uncaptured]
    · simp only [notOld, notNew, if_false]
      exact coherent.enrolled c x listed'
  · intro c
    rw [roster]
    split
    · rename_i sameColor
      subst sameColor
      rw [Array.toList_map]
      apply List.Nodup.map_on _ (coherent.nodup _)
      intro x listed y listed' same
      simp only [Array.mem_toList_iff] at listed listed'
      by_cases xOld : x = old <;> by_cases yOld : y = old <;> simp only [xOld, yOld, if_true,
        if_false] at same
      · exact xOld.trans yOld.symm
      · exact absurd (same ▸ listed') (by rw [xOld] at listed; exact fun h => outside h)
      · exact absurd (same ▸ listed) outside
      · exact same
    · exact coherent.nodup c
  · intro c x y listed listed' isKing isKing'
    rcases (member c x).mp listed with ⟨-, rfl⟩ | ⟨notOld, notNew, old⟩
    · simp [Board.piece, piece?] at isKing
      exact absurd isKing newKind
    rcases (member c y).mp listed' with ⟨-, rfl⟩ | ⟨notOld', notNew', old'⟩
    · simp [Board.piece, piece?] at isKing'
      exact absurd isKing' newKind
    rw [piece x notOld notNew] at isKing
    rw [piece y notOld' notNew'] at isKing'
    exact coherent.one_king c x y old old' isKing isKing'
  · intro c x
    rw [king_replaceInRoster, king_put, king_lift, member, coherent.king_iff]
    constructor
    · rintro ⟨listed, isKing⟩
      have notOld : x ≠ old := by
        rintro rfl
        exact oldKind (pieceOld ▸ isKing)
      have notNew : x ≠ new := by
        rintro rfl
        have sameColor := coherent.color_of_roster listed
        rw [piece_eq_of_piece? b found] at sameColor
        exact outside (sameColor ▸ listed)
      exact ⟨Or.inr ⟨notOld, notNew, listed⟩, by rw [piece x notOld notNew]; exact isKing⟩
    · rintro ⟨⟨-, rfl⟩ | ⟨notOld, notNew, listed⟩, isKing⟩
      · simp [Board.piece, piece?] at isKing
        exact absurd isKing newKind
      · exact ⟨listed, by rw [← piece x notOld notNew]; exact isKing⟩

theorem modifyPiece (coherent : b.Coherent) (id : PieceId) (f : Piece → Piece)
    (kind : ∀ p, (f p).kind = p.kind) (color : ∀ p, (f p).color = p.color)
    (square : ∀ p, (f p).square = p.square) (captured : ∀ p, (f p).captured = p.captured) :
    (b.modifyPiece id f).Coherent := by
  apply coherent.of_relocation (by simp) (by simp) (coherent.linked.modifyPiece id f square)
  · intro other q found
    by_cases same : other = id
    · subst same
      simp [found, kind, color, captured, square]
    · simp [same, found]
  · intro other missing
    by_cases same : other = id
    · subst same
      simp [missing]
    · simp [same, missing]

theorem createPiece (coherent : b.Coherent) (kind : PieceKind) (color : Color) :
    (b.createPiece kind color).1.Coherent := by
  apply coherent.of_moves (by simp) (by simp)
  · intro id p found
    have : id.index ≠ b.pieces.size := Nat.ne_of_lt (lt_size_of_piece? found)
    simp [this, found]
  · intro s id
    simp only [occupant_createPiece, piece?_createPiece]
    split
    · rename_i fresh
      have : id = ⟨b.pieces.size⟩ := by cases id; simp_all
      subst this
      simp [coherent.occupant_ne_fresh s]
    · exact coherent.occupant_iff s id
  · intro id p s found square
    simp only [piece?_createPiece] at found
    split at found
    · cases found
      cases square
    · exact coherent.standing id p s found square
  · intro c id member
    simp only [piece?_createPiece, if_neg (coherent.ne_fresh_of_roster member)]
    obtain ⟨p, found, -, flag⟩ := coherent.enrolled c id member
    exact ⟨p, found, flag⟩

theorem spawn (coherent : b.Coherent) {kind : PieceKind} {color : Color} {s : Square}
    (empty : b.occupant s = none) (noKing : kind = .king → b.king color = none) :
    (b.spawn kind color s).1.Coherent := by
  have piece_spawn : ∀ id, (b.spawn kind color s).1.piece id =
      if id.index = b.pieces.size then { kind, color, square := some s } else b.piece id := by
    intro id
    simp only [piece, piece?_spawn]
    split <;> rfl
  constructor
  · intro t id
    simp only [occupant_spawn, piece?_spawn]
    by_cases here : t = s
    · subst here
      by_cases fresh : id.index = b.pieces.size
      · have : id = ⟨b.pieces.size⟩ := by cases id; simp_all
        subst this
        simp
      · have : (⟨b.pieces.size⟩ : PieceId) ≠ id := fun h => fresh (by rw [← h])
        simp only [if_true, fresh, if_false, Option.some.injEq, this, false_iff]
        rintro ⟨p, found, standing⟩
        have := (coherent.occupant_iff t id).mpr ⟨p, found, standing⟩
        rw [empty] at this
        cases this
    · by_cases fresh : id.index = b.pieces.size
      · have : id = ⟨b.pieces.size⟩ := by cases id; simp_all
        subst this
        simp only [here, if_false, if_true, Option.some.injEq, exists_eq_left']
        exact ⟨fun held => absurd held (coherent.occupant_ne_fresh t), fun same => absurd same.symm here⟩
      · simp only [here, fresh, if_false]
        exact coherent.occupant_iff t id
  · intro id p t found standing
    simp only [piece?_spawn] at found
    simp only [roster_spawn]
    split at found
    · rename_i fresh
      cases found
      have : id = ⟨b.pieces.size⟩ := by cases id; simp_all
      simp [this]
    · have := coherent.standing id p t found standing
      refine ⟨this.1, ?_⟩
      split
      · exact Array.mem_push_of_mem _ this.2
      · exact this.2
  · intro c id member
    simp only [roster_spawn] at member
    simp only [piece?_spawn]
    split at member
    · rename_i sameColor
      rcases Array.mem_push.mp member with old | rfl
      · rw [if_neg (coherent.ne_fresh_of_roster old)]
        exact coherent.enrolled c id old
      · simp [sameColor]
    · rw [if_neg (coherent.ne_fresh_of_roster member)]
      exact coherent.enrolled c id member
  · intro c
    simp only [roster_spawn]
    split
    · rw [Array.toList_push, List.nodup_append]
      refine ⟨coherent.nodup c, by simp, ?_⟩
      intro x member y single
      rw [List.mem_singleton] at single
      subst single
      exact fun same => coherent.fresh_not_mem_roster c (same ▸ Array.mem_toList_iff.mp member)
    · exact coherent.nodup c
  · intro c id id' member member' king king'
    simp only [roster_spawn] at member member'
    rw [piece_spawn] at king king'
    by_cases sameColor : c = color
    · rw [if_pos sameColor] at member member'
      subst sameColor
      have noOld : ∀ x, x ∈ b.roster c → (b.piece x).kind = .king → kind = .king → False :=
        fun x old oldKing newKing => by
          have := (coherent.king_iff c x).mpr ⟨old, oldKing⟩
          rw [noKing newKing] at this
          cases this
      rcases Array.mem_push.mp member with old | rfl <;>
        rcases Array.mem_push.mp member' with old' | rfl
      · rw [if_neg (coherent.ne_fresh_of_roster old)] at king
        rw [if_neg (coherent.ne_fresh_of_roster old')] at king'
        exact coherent.one_king c id id' old old' king king'
      · rw [if_neg (coherent.ne_fresh_of_roster old)] at king
        simp at king'
        exact (noOld id old king king').elim
      · rw [if_neg (coherent.ne_fresh_of_roster old')] at king'
        simp at king
        exact (noOld id' old' king' king).elim
      · rfl
    · rw [if_neg sameColor] at member member'
      rw [if_neg (coherent.ne_fresh_of_roster member)] at king
      rw [if_neg (coherent.ne_fresh_of_roster member')] at king'
      exact coherent.one_king c id id' member member' king king'
  · intro c id
    simp only [king_spawn, roster_spawn, piece_spawn]
    by_cases sameColor : c = color
    · subst sameColor
      by_cases newKing : kind = .king
      · have none := noKing newKing
        simp only [newKing, and_self, if_true, Option.some.injEq, Array.mem_push]
        constructor
        · rintro rfl
          simp
        · rintro ⟨old | rfl, king⟩
          · rw [if_neg (coherent.ne_fresh_of_roster old)] at king
            have := (coherent.king_iff c id).mpr ⟨old, king⟩
            rw [none] at this
            cases this
          · rfl
      · simp only [newKing, and_false, if_false, if_true, Array.mem_push]
        rw [coherent.king_iff]
        constructor
        · rintro ⟨old, king⟩
          exact ⟨Or.inl old, by rw [if_neg (coherent.ne_fresh_of_roster old)]; exact king⟩
        · rintro ⟨old | rfl, king⟩
          · rw [if_neg (coherent.ne_fresh_of_roster old)] at king
            exact ⟨old, king⟩
          · simp at king
            exact (newKing king).elim
    · simp only [sameColor, false_and, if_false]
      rw [coherent.king_iff]
      constructor
      · rintro ⟨member, king⟩
        exact ⟨member, by rw [if_neg (coherent.ne_fresh_of_roster member)]; exact king⟩
      · rintro ⟨member, king⟩
        rw [if_neg (coherent.ne_fresh_of_roster member)] at king
        exact ⟨member, king⟩

end Coherent

namespace PawnsOffEdge

variable {b : Board}

theorem of_bare {x y : Board} (same : x.bare = y.bare) (pawns : y.PawnsOffEdge) :
    x.PawnsOffEdge := by
  intro s id held pawn
  rw [occupant_of_bare same] at held
  rw [← Piece.bare_kind, piece_bare_of_bare same, Piece.bare_kind] at pawn
  exact pawns s id held pawn

theorem of_occupants {b' : Board} (pawns : b.PawnsOffEdge)
    (placed : ∀ s id, b'.occupant s = some id → (b'.piece id).kind = .pawn →
      (b.occupant s = some id ∧ (b.piece id).kind = .pawn) ∨
        (s.rank ≠ Rank.back .white ∧ s.rank ≠ Rank.back .black)) : b'.PawnsOffEdge := by
  intro s id held pawn
  rcases placed s id held pawn with ⟨old, oldPawn⟩ | off
  · exact pawns s id old oldPawn
  · exact off

theorem lift (pawns : b.PawnsOffEdge) (id : PieceId) : (b.lift id).PawnsOffEdge := by
  apply pawns.of_occupants
  intro s x held pawn
  simp only [occupant_lift] at held
  split at held
  · cases held
  · exact Or.inl ⟨held, by rwa [kind_piece_lift] at pawn⟩

theorem modifyPiece (pawns : b.PawnsOffEdge) (id : PieceId) (f : Piece → Piece)
    (keeps : ∀ p, (f p).kind = p.kind) : (b.modifyPiece id f).PawnsOffEdge := by
  apply pawns.of_occupants
  intro s x held pawn
  rw [occupant_modifyPiece] at held
  exact Or.inl ⟨held, by rwa [kind_piece_modifyPiece b id x f keeps] at pawn⟩

theorem put (pawns : b.PawnsOffEdge) (id : PieceId) (s : Square)
    (allowed : (b.piece id).kind = .pawn → s.rank ≠ Rank.back .white ∧ s.rank ≠ Rank.back .black) :
    (b.put id s).PawnsOffEdge := by
  apply pawns.of_occupants
  intro t x held pawn
  rw [kind_piece_put] at pawn
  simp only [occupant_put] at held
  split at held
  · rename_i here
    subst here
    cases held
    exact Or.inr (allowed pawn)
  · exact Or.inl ⟨held, pawn⟩

theorem replaceInRoster (pawns : b.PawnsOffEdge) (old new : PieceId) :
    (b.replaceInRoster old new).PawnsOffEdge := by
  intro s x held pawn
  simp only [occupant_replaceInRoster] at held
  simp only [Board.piece, piece?_replaceInRoster] at pawn
  exact pawns s x held pawn

end PawnsOffEdge

theorem WellFormed.of_bare {x y : Board} (same : x.bare = y.bare) (wellFormed : y.WellFormed) :
    x.WellFormed :=
  ⟨Coherent.of_bare same wellFormed.toCoherent, PawnsOffEdge.of_bare same wellFormed.pawns⟩

end Board

end Chess
