import Chess.Proofs.Board.Position
import Chess.Proofs.Board.Setup

namespace Chess

/-! Building a position from a setup, and reading the setup back off it.

Placing goes square by square, rank 1 to 8 and file a to h, and keeps `Placed`: the squares
placed so far show the setup's letters, the others are empty, and a colour has a king only once
one of its king letters is placed. Castling rights then go into move counts, wing by wing. Each
wing's right is `Decided` once applied, and applying another wing's right keeps it so: no rook
belongs to two wings and no rook is a king. A position built from a setup therefore shows that
setup, and the setup of a well-formed board always builds a position. -/

theorem pieceLetter_ne_blank (kind : PieceKind) (color : Color) : pieceLetter kind color ≠ ' ' := by
  cases kind <;> cases color <;> decide

theorem toNat_lt_of_pieceOfLetter? {c : Char} (known : (pieceOfLetter? c).isSome) : c.toNat < 128 := by
  by_contra wide
  have notLower : ¬('a'.val ≤ c.val ∧ c.val ≤ 'z'.val) := by
    rintro ⟨-, upTo⟩
    rw [UInt32.le_iff_toNat_le] at upTo
    simp only [Char.toNat] at wide
    change c.val.toNat ≤ 122 at upTo
    omega
  have same : c.toUpper = c := by rw [Char.toUpper, dif_neg notLower]
  simp only [pieceOfLetter?, same, Option.isSome_map] at known
  unfold PieceKind.ofUpper? at known
  split at known <;> simp_all

theorem pieceLetter_of_pieceOfLetter? {c : Char} {kind : PieceKind} {color : Color}
    (read : pieceOfLetter? c = some (kind, color)) : pieceLetter kind color = c := by
  have ascii := toNat_lt_of_pieceOfLetter? (c := c) (by simp [read])
  have all : ∀ n < 128, ((pieceOfLetter? (Char.ofNat n)).all fun p =>
      pieceLetter p.1 p.2 == Char.ofNat n) = true := by decide
  have shown := all c.toNat ascii
  rw [Char.ofNat_toNat, read] at shown
  simpa using shown

namespace Setup

def letterOn (st : Setup) (s : Square) : Char := st.letterAt s.file.index s.rank.index

end Setup

namespace Board

variable {b : Board}

theorem letterOn_eq_blank_iff (b : Board) (s : Square) :
    b.letterOn s = ' ' ↔ b.pieceAt? s = none := by
  unfold letterOn
  cases b.pieceAt? s with
  | none => simp
  | some p => simpa [Piece.letter] using pieceLetter_ne_blank p.kind p.color

@[simp] theorem letterOn_regenerate (s : Square) : b.regenerate.letterOn s = b.letterOn s := by
  cases held : b.occupant s <;> simp [letterOn, pieceAt?, held, Piece.letter]

theorem Coherent.letterOn_spawn (coherent : b.Coherent) (kind : PieceKind) (color : Color)
    (s t : Square) :
    (b.spawn kind color s).1.letterOn t = if t = s then pieceLetter kind color else b.letterOn t := by
  unfold letterOn pieceAt?
  rw [occupant_spawn]
  split
  · simp [Board.piece, Piece.letter]
  · cases held : b.occupant t with
    | none => rfl
    | some id =>
      have old : id.index ≠ b.pieces.size := Nat.ne_of_lt (coherent.lt_size_of_occupant held)
      simp [Board.piece, old]

@[simp] theorem started_spawn (kind : PieceKind) (color : Color) (s : Square) :
    (b.spawn kind color s).1.started = b.started := by
  simp only [spawn]
  split <;> cases color <;> rfl

theorem nodup_setupOrder : setupOrder.Nodup := by decide

theorem mem_setupOrder (s : Square) : s ∈ setupOrder := by
  simp only [setupOrder, List.mem_flatMap, List.mem_finRange, List.mem_map, true_and]
  exact ⟨s.rank.index, s.file.index, Square.make_file_rank s⟩

theorem placePiece_of_allowed {kind : PieceKind} {color : Color} {s : Square}
    (fresh : b.started = false) (empty : b.occupant s = none)
    (noKing : kind = .king → b.king color = none)
    (allowed : kind = .pawn → s.rank ≠ Rank.back .white ∧ s.rank ≠ Rank.back .black) :
    b.placePiece kind color s = .ok ((b.spawn kind color s).1.regenerate, ⟨b.pieces.size⟩) := by
  have noSecondKing : ¬(kind = .king ∧ (b.king color).isSome) := by
    rintro ⟨king, some⟩
    simp [noKing king] at some
  have offEdge : ¬(kind = .pawn ∧ (s.rank = Rank.back .white ∨ s.rank = Rank.back .black)) := by
    rintro ⟨pawn, edge | edge⟩
    · exact (allowed pawn).1 edge
    · exact (allowed pawn).2 edge
  simp [placePiece, ensureSetup, fresh, empty, noSecondKing, offEdge]

/-- The board built so far from a setup once the squares of `done` are placed: well formed and
not started, showing the setup's letter on each square placed and a blank elsewhere, with a
king of a colour only once a king letter of that colour has been placed. -/
structure Placed (st : Setup) (done : List Square) (x : Board) : Prop where
  wellFormed : x.WellFormed
  fresh : x.started = false
  shows : ∀ t, x.letterOn t = if t ∈ done then st.letterOn t else ' '
  king : ∀ c, x.king c = none ∨ ∃ t ∈ done, pieceOfLetter? (st.letterOn t) = some (.king, c)

theorem placed_empty (st : Setup) : Placed st [] empty := by
  refine ⟨WellFormed.empty, rfl, fun t => ?_, fun c => Or.inl (king_empty c)⟩
  simp [letterOn, pieceAt?]

namespace Placed

variable {st : Setup} {done : List Square} {x : Board}

theorem placeFromSetup (placed : Placed st done x) {s : Square} (fresh : s ∉ done) {y : Board}
    (step : Board.placeFromSetup st x s = .ok y) : Placed st (done ++ [s]) y := by
  have member (t : Square) : t ∈ done ++ [s] ↔ t ∈ done ∨ t = s := by simp
  unfold Board.placeFromSetup at step
  dsimp only at step
  split at step
  · rename_i blank
    cases step
    refine ⟨placed.wellFormed, placed.fresh, fun t => ?_, fun c => ?_⟩
    · by_cases here : t = s
      · subst here
        rw [placed.shows, if_neg fresh, if_pos (by simp)]
        exact blank.symm
      · rw [placed.shows]
        simp [here]
    · rcases placed.king c with none | ⟨t, member, king⟩
      · exact Or.inl none
      · exact Or.inr ⟨t, by simp [member], king⟩
  split at step
  · rename_i kind color read
    obtain ⟨⟨z, id⟩, stood, taken⟩ := Except.bind_eq_ok.mp step
    cases taken
    obtain ⟨started, -, -, -, rfl, -⟩ := placePiece_eq_ok stood
    refine ⟨placed.wellFormed.placePiece stood, by simpa using started, fun t => ?_, fun c => ?_⟩
    · rw [letterOn_regenerate, placed.wellFormed.letterOn_spawn]
      by_cases here : t = s
      · subst here
        simp [pieceLetter_of_pieceOfLetter? read, Setup.letterOn]
      · rw [if_neg here, placed.shows]
        simp [here]
    · rw [king_regenerate, king_spawn]
      split
      · rename_i king
        obtain ⟨rfl, rfl⟩ := king
        exact Or.inr ⟨s, by simp, read⟩
      · rcases placed.king c with none | ⟨t, member, king⟩
        · exact Or.inl none
        · exact Or.inr ⟨t, by simp [member], king⟩
  · cases step


theorem foldlM : ∀ (todo : List Square) {done : List Square} {x y : Board}, Placed st done x →
    (done ++ todo).Nodup → todo.foldlM (Board.placeFromSetup st) x = .ok y →
    Placed st (done ++ todo) y
  | [], done, x, y, placed, _, run => by
    cases run
    simpa using placed
  | s :: todo, done, x, y, placed, nodup, run => by
    rw [List.foldlM_cons] at run
    obtain ⟨z, step, rest⟩ := Except.bind_eq_ok.mp run
    have fresh : s ∉ done := fun member =>
      List.disjoint_of_nodup_append nodup member (List.mem_cons_self)
    have shifted := foldlM todo (placed.placeFromSetup fresh step) (by simpa using nodup) rest
    simpa using shifted

theorem occupant_eq_none (placed : Placed st done x) {s : Square} (fresh : s ∉ done) :
    x.occupant s = none := by
  have blankHere : x.letterOn s = ' ' := by rw [placed.shows, if_neg fresh]
  simpa [pieceAt?] using (letterOn_eq_blank_iff x s).mp blankHere

/-- Placing squares one after another succeeds when each square not yet placed can be placed. -/
theorem foldlM_ok_of_steps
    (steps : ∀ {done : List Square} {x : Board} {s : Square}, Placed st done x → s ∉ done →
      ∃ y, Board.placeFromSetup st x s = .ok y) :
    ∀ (todo : List Square) {done : List Square} {x : Board}, Placed st done x → (done ++ todo).Nodup →
      ∃ y, todo.foldlM (Board.placeFromSetup st) x = .ok y
  | [], _, x, _, _ => ⟨x, rfl⟩
  | s :: todo, done, x, placed, nodup => by
    have fresh : s ∉ done := fun member =>
      List.disjoint_of_nodup_append nodup member (List.mem_cons_self)
    obtain ⟨z, step⟩ := steps placed fresh
    obtain ⟨y, rest⟩ := foldlM_ok_of_steps steps todo (placed.placeFromSetup fresh step)
      (by simpa using nodup)
    refine ⟨y, ?_⟩
    rw [List.foldlM_cons, step]
    exact rest

end Placed

theorem Coherent.eq_of_kings (coherent : b.Coherent) {s t : Square} {p q : Piece}
    (atS : b.pieceAt? s = some p) (atT : b.pieceAt? t = some q) (kingP : p.kind = .king)
    (kingQ : q.kind = .king) (color : p.color = q.color) : s = t := by
  obtain ⟨i, heldS, rfl⟩ := Option.map_eq_some_iff.mp atS
  obtain ⟨j, heldT, rfl⟩ := Option.map_eq_some_iff.mp atT
  have kingS := (coherent.kingSquare_eq_some_iff (b.piece i).color s).mpr ⟨i, heldS, kingP, rfl⟩
  have kingT := (coherent.kingSquare_eq_some_iff (b.piece i).color t).mpr
    ⟨j, heldT, kingQ, color.symm⟩
  exact Option.some.inj (kingS.symm.trans kingT)

section Standing

variable {st : Setup} (wellFormed : b.WellFormed) (shows : ∀ t, st.letterOn t = b.letterOn t)
include wellFormed shows

theorem Placed.placeFromSetup_ok {done : List Square} {x : Board} (placed : Placed st done x)
    {s : Square} (fresh : s ∉ done) : ∃ y, Board.placeFromSetup st x s = .ok y := by
  unfold Board.placeFromSetup
  dsimp only
  by_cases blank : st.letterAt s.file.index s.rank.index = ' '
  · exact ⟨x, by simp [blank]⟩
  obtain ⟨p, atS⟩ : ∃ p, b.pieceAt? s = some p := by
    refine Option.ne_none_iff_exists'.mp fun none => blank ?_
    exact (shows s).trans ((letterOn_eq_blank_iff b s).mpr none)
  have read : pieceOfLetter? (st.letterAt s.file.index s.rank.index) = some (p.kind, p.color) := by
    change pieceOfLetter? (st.letterOn s) = _
    rw [shows, pieceOfLetter?_letterOn, atS, Option.map_some]
  obtain ⟨id, held, rfl⟩ := Option.map_eq_some_iff.mp atS
  have empty := placed.occupant_eq_none fresh
  have noKing : (b.piece id).kind = .king → x.king (b.piece id).color = none := by
    intro king
    rcases placed.king (b.piece id).color with none | ⟨t, member, kingAt⟩
    · exact none
    · exfalso
      rw [shows, pieceOfLetter?_letterOn] at kingAt
      obtain ⟨q, atT, kinds⟩ := Option.map_eq_some_iff.mp kingAt
      obtain ⟨kingQ, colorQ⟩ := Prod.mk.inj kinds
      have same := wellFormed.toCoherent.eq_of_kings atS atT king kingQ colorQ.symm
      exact fresh (same ▸ member)
  rw [if_neg blank, read]
  simp only
  rw [placePiece_of_allowed placed.fresh empty noKing (wellFormed.pawns s id held)]
  exact ⟨_, rfl⟩

end Standing

/-! ### Castling rights in move counts -/

theorem max_one_ne_zero (a : UInt32) : max a 1 ≠ 0 := by
  simp only [max, ne_eq]
  split
  · decide
  · rename_i big
    intro zero
    subst zero
    exact big (by decide)

theorem piece_modifyPiece_of_ne {id t : PieceId} (f : Piece → Piece) (other : t ≠ id) :
    (b.modifyPiece id f).piece t = b.piece t := by
  simp [piece, other]

theorem square_piece_modifyPiece (id t : PieceId) {f : Piece → Piece}
    (keeps : ∀ p, (f p).square = p.square) :
    ((b.modifyPiece id f).piece t).square = (b.piece t).square := by
  simp only [piece, piece?_modifyPiece]
  split <;> cases b.piece? t <;> simp [keeps]

theorem moveCount_modifyPiece_zero (id : PieceId) :
    ((b.modifyPiece id fun p => { p with moveCount := 0 }).piece id).moveCount = 0 := by
  simp only [piece, piece?_modifyPiece, if_true]
  cases b.piece? id <;> rfl

theorem kingSquare_modifyPiece (id : PieceId) {f : Piece → Piece}
    (square : ∀ p, (f p).square = p.square) (c : Color) :
    (b.modifyPiece id f).kingSquare c = b.kingSquare c := by
  simp [kingSquare, square_piece_modifyPiece _ _ square]

theorem wingRooks_modifyPiece (id : PieceId) {f : Piece → Piece} (kind : ∀ p, (f p).kind = p.kind)
    (color : ∀ p, (f p).color = p.color) (square : ∀ p, (f p).square = p.square) (c : Color)
    (side : CastleSide) : (b.modifyPiece id f).wingRooks c side = b.wingRooks c side := by
  simp only [wingRooks, kingSquare_modifyPiece id square, occupant_modifyPiece,
    kind_piece_modifyPiece _ _ _ f kind, color_piece_modifyPiece _ _ _ f color]

theorem letterOn_modifyPiece (id : PieceId) {f : Piece → Piece} (kind : ∀ p, (f p).kind = p.kind)
    (color : ∀ p, (f p).color = p.color) (s : Square) :
    (b.modifyPiece id f).letterOn s = b.letterOn s := by
  cases held : b.occupant s <;>
    simp [letterOn, pieceAt?, held, Piece.letter, kind_piece_modifyPiece _ _ _ f kind,
      color_piece_modifyPiece _ _ _ f color]

/-- Boards that differ at most in their pieces' move counts: the same letters, kings, wing
rooks, side to move, en-passant file and clocks. -/
structure Recounted (x y : Board) : Prop where
  letterOn : ∀ s, y.letterOn s = x.letterOn s
  king : ∀ c, y.king c = x.king c
  wingRooks : ∀ c side, y.wingRooks c side = x.wingRooks c side
  side : y.side = x.side
  enPassant : y.enPassant = x.enPassant
  halfmove : y.halfmove = x.halfmove
  fullmove : y.fullmove = x.fullmove

namespace Recounted

theorem refl (x : Board) : Recounted x x :=
  ⟨fun _ => rfl, fun _ => rfl, fun _ _ => rfl, rfl, rfl, rfl, rfl⟩

theorem trans {x y z : Board} (first : Recounted x y) (second : Recounted y z) : Recounted x z :=
  ⟨fun s => (second.letterOn s).trans (first.letterOn s),
    fun c => (second.king c).trans (first.king c),
    fun c side => (second.wingRooks c side).trans (first.wingRooks c side),
    second.side.trans first.side, second.enPassant.trans first.enPassant,
    second.halfmove.trans first.halfmove, second.fullmove.trans first.fullmove⟩

theorem setMoveCount (x : Board) (id : PieceId) (count : UInt32 → UInt32) :
    Recounted x (x.modifyPiece id fun p => { p with moveCount := count p.moveCount }) :=
  ⟨letterOn_modifyPiece id (fun _ => rfl) (fun _ => rfl), fun c => by simp,
    wingRooks_modifyPiece id (fun _ => rfl) (fun _ => rfl) (fun _ => rfl), rfl, rfl, rfl, rfl⟩

end Recounted

def markMoved (b : Board) (rooks : List PieceId) : Board :=
  rooks.foldl (fun b r => b.modifyPiece r fun p => { p with moveCount := max p.moveCount 1 }) b

theorem recounted_markMoved : ∀ (rooks : List PieceId) (x : Board), Recounted x (markMoved x rooks)
  | [], x => Recounted.refl x
  | r :: rooks, x =>
    (Recounted.setMoveCount x r (max · 1)).trans (recounted_markMoved rooks _)

theorem piece_markMoved_of_not_mem {id : PieceId} :
    ∀ {rooks : List PieceId} {x : Board}, id ∉ rooks → (markMoved x rooks).piece id = x.piece id
  | [], _, _ => rfl
  | r :: rooks, x, outside => by
    rw [List.mem_cons, not_or] at outside
    change (markMoved (x.modifyPiece r _) rooks).piece id = _
    rw [piece_markMoved_of_not_mem outside.2, piece_modifyPiece_of_ne _ outside.1]

theorem moveCount_markMoved_ne_zero {id : PieceId} :
    ∀ {rooks : List PieceId} {x : Board}, (x.piece? id).isSome → id ∈ rooks →
      ((markMoved x rooks).piece id).moveCount ≠ 0
  | [], _, _, member => absurd member List.not_mem_nil
  | r :: rooks, x, found, member => by
    have step : markMoved x (r :: rooks) = markMoved (x.modifyPiece r fun p =>
        { p with moveCount := max p.moveCount 1 }) rooks := rfl
    rw [step]
    by_cases later : id ∈ rooks
    · refine moveCount_markMoved_ne_zero ?_ later
      rw [piece?_modifyPiece]
      split <;> simpa using found
    · have first : id = r := by simpa [later] using member
      subst first
      rw [piece_markMoved_of_not_mem later]
      obtain ⟨p, found⟩ := Option.isSome_iff_exists.mp found
      simp [piece, found, max_one_ne_zero]

theorem applyCastleRights_eq_ok {x y : Board} {c : Color} {side : CastleSide} {allowed : Bool}
    (applied : x.applyCastleRights c side allowed = .ok y) :
    (allowed = false ∧ y = markMoved x (x.wingRooks c side)) ∨
      (allowed = true ∧ ∃ k r, x.king c = some k ∧ x.castleRook? c side = some r ∧
        y = ((markMoved x ((x.wingRooks c side).drop 1)).modifyPiece k fun p =>
          { p with moveCount := 0 }).modifyPiece r fun p => { p with moveCount := 0 }) := by
  unfold Board.applyCastleRights at applied
  cases allowed
  · simp only [Bool.not_false, if_true, Except.pure_eq_ok, Except.ok.injEq] at applied
    exact Or.inl ⟨rfl, applied.symm⟩
  · simp only [Bool.not_true, Bool.false_eq_true, if_false] at applied
    split at applied
    · rename_i r rook
      split at applied
      · rename_i k king
        cases applied
        refine Or.inr ⟨rfl, k, r, ?_, rook, rfl⟩
        rw [← king]
        exact ((recounted_markMoved _ x).king c).symm
      · cases applied
    · cases applied

theorem applyCastleRights_ok {x : Board} {c : Color} {side : CastleSide} {allowed : Bool}
    (can : allowed = true → (x.king c).isSome ∧ (x.castleRook? c side).isSome) :
    ∃ y, x.applyCastleRights c side allowed = .ok y := by
  unfold Board.applyCastleRights
  cases allowed
  · exact ⟨_, rfl⟩
  · obtain ⟨king, rook⟩ := can rfl
    obtain ⟨k, hk⟩ := Option.isSome_iff_exists.mp king
    obtain ⟨r, hr⟩ := Option.isSome_iff_exists.mp rook
    have kept : (markMoved x ((x.wingRooks c side).drop 1)).king c = some k :=
      ((recounted_markMoved _ x).king c).trans hk
    simp only [castleRook?] at hr
    simp only [Bool.not_true, Bool.false_eq_true, ↓reduceIte, hr]
    split
    · exact ⟨_, rfl⟩
    · rename_i none
      exact (none k kept).elim

theorem file_of_mem_wingRooks {c : Color} {side : CastleSide} {r : PieceId}
    (member : r ∈ b.wingRooks c side) :
    ∃ ks s, b.kingSquare c = some ks ∧ b.occupant s = some r ∧ (b.piece r).color = c ∧
      (side = .kingside → ks.file.index < s.file.index) ∧
      (side = .queenside → s.file.index < ks.file.index) := by
  unfold wingRooks at member
  split at member
  · cases member
  rename_i ks kingSq
  split at member
  · cases member
  obtain ⟨f, fileMember, found⟩ := List.mem_filterMap.mp member
  dsimp only at found
  split at found
  · rename_i id held
    split at found
    · rename_i rook
      cases found
      refine ⟨ks, _, kingSq, held, rook.1, fun kingside => ?_, fun queenside => ?_⟩
      · subst kingside
        simp only [List.mem_reverse, List.mem_filter, List.mem_range, decide_eq_true_eq] at fileMember
        rw [Square.file_make, Fin.lt_def]
        simp only [Nat.mod_eq_of_lt fileMember.1]
        exact fileMember.2
      · subst queenside
        simp only [List.mem_filter, List.mem_range, decide_eq_true_eq] at fileMember
        rw [Square.file_make, Fin.lt_def]
        simp only [Nat.mod_eq_of_lt fileMember.1]
        exact fileMember.2
    · cases found
  · cases found

theorem kingSquare_of_mem_wingRooks {c : Color} {side : CastleSide} {r : PieceId}
    (member : r ∈ b.wingRooks c side) : (b.kingSquare c).isSome := by
  obtain ⟨ks, -, king, -⟩ := file_of_mem_wingRooks member
  simp [king]

theorem Coherent.not_mem_wingRooks (coherent : b.Coherent) {c c' : Color} {side side' : CastleSide}
    (differ : (c, side) ≠ (c', side')) {r : PieceId} (member : r ∈ b.wingRooks c side) :
    r ∉ b.wingRooks c' side' := by
  intro member'
  obtain ⟨ks, s, king, held, color, kingside, queenside⟩ := file_of_mem_wingRooks member
  obtain ⟨ks', s', king', held', color', kingside', queenside'⟩ := file_of_mem_wingRooks member'
  have sameColor : c = c' := color.symm.trans color'
  subst sameColor
  have sameKing : ks = ks' := Option.some.inj (king.symm.trans king')
  have sameSquare : s = s' := coherent.square_eq_of_occupant held held'
  subst sameKing sameSquare
  cases side <;> cases side'
  · exact differ rfl
  · exact lt_asymm (kingside rfl) (queenside' rfl)
  · exact lt_asymm (kingside' rfl) (queenside rfl)
  · exact differ rfl

theorem Coherent.king_ne_of_mem_wingRooks (coherent : b.Coherent) {c c' : Color}
    {side : CastleSide} {r : PieceId} (member : r ∈ b.wingRooks c side) : b.king c' ≠ some r := by
  intro king
  obtain ⟨-, -, -, -, rook⟩ := occupant_of_mem_wingRooks member
  rw [((coherent.king_iff c' r).mp king).2] at rook
  cases rook

theorem Recounted.applyCastleRights {x y : Board} {c : Color} {side : CastleSide} {allowed : Bool}
    (applied : x.applyCastleRights c side allowed = .ok y) : Recounted x y := by
  rcases applyCastleRights_eq_ok applied with ⟨-, rfl⟩ | ⟨-, k, r, -, -, rfl⟩
  · exact recounted_markMoved _ x
  · exact (recounted_markMoved _ x).trans ((Recounted.setMoveCount _ k fun _ => 0).trans
      (Recounted.setMoveCount _ r fun _ => 0))

theorem moveCount_applyCastleRights {x y : Board} {c : Color} {side : CastleSide}
    {allowed : Bool} (applied : x.applyCastleRights c side allowed = .ok y) {id : PieceId}
    (outside : id ∉ x.wingRooks c side) :
    (y.piece id).moveCount = (x.piece id).moveCount ∨
      (x.king c = some id ∧ (y.piece id).moveCount = 0) := by
  rcases applyCastleRights_eq_ok applied with ⟨-, rfl⟩ | ⟨-, k, r, king, rook, rfl⟩
  · exact Or.inl (by rw [piece_markMoved_of_not_mem outside])
  · have notRook : id ≠ r := fun same => outside (same ▸ List.mem_of_head? rook)
    rw [piece_modifyPiece_of_ne _ notRook]
    by_cases isKing : id = k
    · subst isKing
      exact Or.inr ⟨king, moveCount_modifyPiece_zero id⟩
    · rw [piece_modifyPiece_of_ne _ isKing,
        piece_markMoved_of_not_mem fun member => outside (List.mem_of_mem_drop member)]
      exact Or.inl rfl

/-- A castling right as a setup grants or withdraws it in move counts: granted, the king and
the castle rook of the wing are unmoved; withdrawn, every rook of the wing has moved. -/
def Decided (x : Board) (c : Color) (side : CastleSide) : Bool → Prop
  | true => ∃ k r, x.king c = some k ∧ x.castleRook? c side = some r ∧
      (x.piece k).moveCount = 0 ∧ (x.piece r).moveCount = 0
  | false => ∀ r ∈ x.wingRooks c side, (x.piece r).moveCount ≠ 0

namespace Decided

variable {x y : Board} {c : Color} {side : CastleSide}

theorem canCastle {allowed : Bool} (decided : Decided x c side allowed) :
    x.canCastle c side = allowed := by
  cases allowed with
  | true =>
    obtain ⟨k, r, king, rook, kingCount, rookCount⟩ := decided
    simp [Board.canCastle, king, rook, kingCount, rookCount]
  | false =>
    unfold Board.canCastle
    split
    · rfl
    split
    · rfl
    split
    · rename_i r rook
      simpa using decided r (List.mem_of_head? rook)
    · rfl

theorem of_applyCastleRights (coherent : x.Coherent) {allowed : Bool}
    (applied : x.applyCastleRights c side allowed = .ok y) : Decided y c side allowed := by
  have recount := Recounted.applyCastleRights applied
  rcases applyCastleRights_eq_ok applied with ⟨rfl, rfl⟩ | ⟨rfl, k, r, king, rook, rfl⟩
  · intro r member
    rw [recount.wingRooks] at member
    obtain ⟨s, held, -⟩ := occupant_of_mem_wingRooks member
    obtain ⟨p, found, -⟩ := coherent.piece?_of_occupant held
    exact moveCount_markMoved_ne_zero (by simp [found]) member
  · refine ⟨k, r, (recount.king c).trans king, ?_, ?_, moveCount_modifyPiece_zero r⟩
    · rw [castleRook?, recount.wingRooks]
      exact rook
    · by_cases same : k = r
      · subst same
        exact moveCount_modifyPiece_zero k
      · rw [piece_modifyPiece_of_ne _ same]
        exact moveCount_modifyPiece_zero k

theorem applyCastleRights {decision : Bool} (decided : Decided x c side decision)
    (coherent : x.Coherent) {c' : Color} {side' : CastleSide} (differ : (c', side') ≠ (c, side))
    {allowed : Bool} (applied : x.applyCastleRights c' side' allowed = .ok y) :
    Decided y c side decision := by
  have recount := Recounted.applyCastleRights applied
  cases decision with
  | true =>
    obtain ⟨k, r, king, rook, kingCount, rookCount⟩ := decided
    have kingOut : k ∉ x.wingRooks c' side' := fun member =>
      coherent.king_ne_of_mem_wingRooks member king
    have rookOut : r ∉ x.wingRooks c' side' :=
      coherent.not_mem_wingRooks differ.symm (List.mem_of_head? rook)
    refine ⟨k, r, (recount.king c).trans king, ?_, ?_, ?_⟩
    · rw [castleRook?, recount.wingRooks]
      exact rook
    · rcases moveCount_applyCastleRights applied kingOut with same | ⟨-, zero⟩
      · rw [same, kingCount]
      · exact zero
    · rcases moveCount_applyCastleRights applied rookOut with same | ⟨-, zero⟩
      · rw [same, rookCount]
      · exact zero
  | false =>
    intro r member
    rw [recount.wingRooks] at member
    have rookOut : r ∉ x.wingRooks c' side' := coherent.not_mem_wingRooks differ.symm member
    rcases moveCount_applyCastleRights applied rookOut with same | ⟨king, -⟩
    · rw [same]
      exact decided r member
    · exact absurd king (coherent.king_ne_of_mem_wingRooks member)

end Decided

def grantStep (st : Setup) (b : Board) (w : Color × CastleSide) : Except MoveError Board :=
  b.applyCastleRights w.1 w.2 (st.castling.get w.1 w.2)

theorem finishSetup_eq (st : Setup) (b : Board) : Board.finishSetup st b = (do
    let x ← [(Color.white, CastleSide.kingside), (.white, .queenside), (.black, .kingside),
      (.black, .queenside)].foldlM (grantStep st)
        { b with side := st.side, enPassant := st.enPassant, halfmove := st.halfmove,
                 fullmove := st.fullmove }
    pure x.regenerate) := rfl

theorem recounted_foldlM (st : Setup) (todo : List (Color × CastleSide)) {x y : Board}
    (run : todo.foldlM (grantStep st) x = .ok y) : Recounted x y :=
  Except.foldlM_induction (P := Recounted x)
    (fun _ _ _ recount step => recount.trans (Recounted.applyCastleRights step)) todo x y
    (Recounted.refl x) run

/-- A property of wings that granting or withdrawing a wing's right gives it, and that granting
or withdrawing another wing's keeps, holds of every wing once the rights of distinct wings are
applied one after another. -/
theorem foldlM_grantStep_keeps (st : Setup) (P : Board → Color × CastleSide → Prop)
    (own : ∀ {x y : Board} (w : Color × CastleSide), x.WellFormed → grantStep st x w = .ok y → P y w)
    (other : ∀ {x y : Board} (w v : Color × CastleSide), x.WellFormed → w ≠ v → P x v →
      grantStep st x w = .ok y → P y v) :
    ∀ (todo done : List (Color × CastleSide)) {x y : Board}, x.WellFormed → (done ++ todo).Nodup →
      (∀ w ∈ done, P x w) → todo.foldlM (grantStep st) x = .ok y → ∀ w ∈ done ++ todo, P y w
  | [], done, x, y, _, _, kept, run => by
    cases run
    simpa using kept
  | w :: todo, done, x, y, wellFormed, nodup, kept, run => by
    rw [List.foldlM_cons] at run
    obtain ⟨z, step, rest⟩ := Except.bind_eq_ok.mp run
    have fresh : w ∉ done := fun member =>
      List.disjoint_of_nodup_append nodup member (List.mem_cons_self)
    have kept' : ∀ v ∈ done ++ [w], P z v := by
      intro v member
      rcases List.mem_append.mp member with old | new
      · exact other w v wellFormed (fun same => fresh (same ▸ old)) (kept v old) step
      · obtain rfl := List.mem_singleton.mp new
        exact own v wellFormed step
    have shifted := foldlM_grantStep_keeps st P own other todo (done ++ [w])
      (wellFormed.applyCastleRights step) (by simpa using nodup) kept' rest
    simpa using shifted

theorem decided_foldlM (st : Setup) (todo done : List (Color × CastleSide)) {x y : Board}
    (wellFormed : x.WellFormed) (nodup : (done ++ todo).Nodup)
    (decided : ∀ w ∈ done, Decided x w.1 w.2 (st.castling.get w.1 w.2))
    (run : todo.foldlM (grantStep st) x = .ok y) :
    ∀ w ∈ done ++ todo, Decided y w.1 w.2 (st.castling.get w.1 w.2) :=
  foldlM_grantStep_keeps st (fun x w => Decided x w.1 w.2 (st.castling.get w.1 w.2))
    (fun _ wellFormed step => Decided.of_applyCastleRights wellFormed.toCoherent step)
    (fun w v wellFormed differ decided step => decided.applyCastleRights wellFormed.toCoherent
      (by simpa using differ) step)
    todo done wellFormed nodup decided run

theorem foldlM_grantStep_ok (st : Setup) (x₀ : Board)
    (rooks : ∀ w : Color × CastleSide, st.castling.get w.1 w.2 = true → x₀.wingRooks w.1 w.2 ≠ []) :
    ∀ (todo : List (Color × CastleSide)) {x : Board}, Recounted x₀ x →
      ∃ y, todo.foldlM (grantStep st) x = .ok y
  | [], x, _ => ⟨x, rfl⟩
  | w :: todo, x, recount => by
    have can : st.castling.get w.1 w.2 = true →
        (x.king w.1).isSome ∧ (x.castleRook? w.1 w.2).isSome := by
      intro granted
      obtain ⟨r, rs, wing⟩ := List.exists_cons_of_ne_nil (rooks w granted)
      rw [← recount.wingRooks] at wing
      have kingSq := kingSquare_of_mem_wingRooks (wing ▸ List.mem_cons_self)
      refine ⟨?_, by simp [castleRook?, wing]⟩
      cases king : x.king w.1 <;> simp_all [kingSquare]
    obtain ⟨z, step⟩ := applyCastleRights_ok can
    obtain ⟨y, rest⟩ := foldlM_grantStep_ok st x₀ rooks todo
      (recount.trans (Recounted.applyCastleRights step))
    exact ⟨y, by rw [List.foldlM_cons]; exact (Except.bind_eq_ok.mpr ⟨z, step, rest⟩)⟩

/-! ### Boards showing one placement -/

section Letters

variable {x y : Board}

theorem kinds_of_letterOn {s : Square} (same : x.letterOn s = y.letterOn s) :
    (x.pieceAt? s).map (fun p => (p.kind, p.color)) =
      (y.pieceAt? s).map (fun p => (p.kind, p.color)) := by
  rw [← pieceOfLetter?_letterOn, ← pieceOfLetter?_letterOn, same]

theorem Coherent.kingSquare_eq_some_iff_kinds (coherent : b.Coherent) (c : Color) (s : Square) :
    b.kingSquare c = some s ↔ (b.pieceAt? s).map (fun p => (p.kind, p.color)) = some (.king, c) := by
  rw [coherent.kingSquare_eq_some_iff]
  simp [pieceAt?]

theorem kingSquare_eq_of_letterOn (cx : x.Coherent) (cy : y.Coherent)
    (letters : ∀ s, x.letterOn s = y.letterOn s) (c : Color) : x.kingSquare c = y.kingSquare c :=
  Option.ext fun s => by
    rw [cx.kingSquare_eq_some_iff_kinds, cy.kingSquare_eq_some_iff_kinds, kinds_of_letterOn (letters s)]

theorem wingRooks_squares_of_letterOn (cx : x.Coherent) (cy : y.Coherent)
    (letters : ∀ s, x.letterOn s = y.letterOn s) (c : Color) (side : CastleSide) :
    (x.wingRooks c side).map (fun r => (x.piece r).square) =
      (y.wingRooks c side).map (fun r => (y.piece r).square) := by
  unfold wingRooks
  rw [kingSquare_eq_of_letterOn cx cy letters c]
  split
  · rfl
  split
  · rfl
  simp only [List.map_filterMap]
  refine List.filterMap_congr fun f _ => ?_
  generalize Square.make ⟨⟨f % 8, Nat.mod_lt _ (by decide)⟩⟩ (Rank.back c) = t
  have kinds := kinds_of_letterOn (letters t)
  cases hx : x.occupant t with
  | none =>
    cases hy : y.occupant t with
    | none => rfl
    | some iy => simp [pieceAt?, hx, hy] at kinds
  | some ix =>
    cases hy : y.occupant t with
    | none => simp [pieceAt?, hx, hy] at kinds
    | some iy =>
      simp only [pieceAt?, hx, hy, Option.map_some, Option.some.injEq, Prod.mk.injEq] at kinds
      dsimp only
      rw [kinds.1, kinds.2]
      split <;> simp [cx.piece_square_of_occupant hx, cy.piece_square_of_occupant hy]

theorem wingRooks_eq_nil_of_letterOn (cx : x.Coherent) (cy : y.Coherent)
    (letters : ∀ s, x.letterOn s = y.letterOn s) (c : Color) (side : CastleSide) :
    x.wingRooks c side = [] ↔ y.wingRooks c side = [] := by
  have lengths := congrArg List.length (wingRooks_squares_of_letterOn cx cy letters c side)
  simp only [List.length_map] at lengths
  rw [← List.length_eq_zero_iff, lengths, List.length_eq_zero_iff]

end Letters

/-! ### The setup a board shows -/

/-- The setup a board shows: its placement, side to move, castling rights, en-passant file and
clocks. -/
def setup (b : Board) : Setup :=
  { placement := b.placement, side := b.side, castling := b.castleRights,
    enPassant := b.enPassant, halfmove := b.halfmove, fullmove := b.fullmove }

theorem setup_letterOn (b : Board) (s : Square) : b.setup.letterOn s = b.letterOn s := by
  rw [Setup.letterOn, setup, Setup.letterAt, placement_get]
  exact congrArg b.letterOn (Square.make_file_rank s)

theorem placement_eq_of_letterOn {st : Setup} (shows : ∀ s, b.letterOn s = st.letterOn s) :
    b.placement = st.placement := by
  refine Vector.ext fun f fileBound => Vector.ext fun r rankBound => ?_
  have board := placement_get b ⟨f, fileBound⟩ ⟨r, rankBound⟩
  have shown := shows (Square.make ⟨⟨f, fileBound⟩⟩ ⟨⟨r, rankBound⟩⟩)
  simp only [Setup.letterOn, Square.file_make, Square.rank_make, Setup.letterAt] at shown
  simp only [Vector.get_eq_getElem] at board shown
  rw [board, shown]

theorem castleRights_get (b : Board) (c : Color) (side : CastleSide) :
    b.castleRights.get c side = b.canCastle c side := by
  cases c <;> cases side <;> rfl

theorem castleRights_eq_of_canCastle {rights : CastleRights}
    (can : ∀ c side, b.canCastle c side = rights.get c side) : b.castleRights = rights := by
  obtain ⟨whiteKingside, whiteQueenside, blackKingside, blackQueenside⟩ := rights
  simp only [castleRights, CastleRights.mk.injEq]
  exact ⟨can .white .kingside, can .white .queenside, can .black .kingside, can .black .queenside⟩

theorem canCastle_regenerate (b : Board) (c : Color) (side : CastleSide) :
    b.regenerate.canCastle c side = b.canCastle c side :=
  (Agree.of_bare (bare_regenerate b)).canCastle c side

theorem placed_of_ofSetup {st : Setup} {y : Board}
    (placing : setupOrder.foldlM (Board.placeFromSetup st) empty = .ok y) :
    Placed st setupOrder y := by
  simpa using Placed.foldlM setupOrder (placed_empty st) (by simpa using nodup_setupOrder) placing

theorem setup_ofSetup {st : Setup} {b : Board} (built : Board.ofSetup st = .ok b) : b.setup = st := by
  obtain ⟨y, placing, finished⟩ := Except.bind_eq_ok.mp built
  have placed := placed_of_ofSetup placing
  rw [finishSetup_eq] at finished
  obtain ⟨z, granting, regenerated⟩ := Except.bind_eq_ok.mp finished
  cases regenerated
  have recount := recounted_foldlM st _ granting
  have decided := decided_foldlM st _ []
    (placed.wellFormed.of_settings st.side st.enPassant st.halfmove st.fullmove) (by decide)
    (by simp) granting
  have letters (s : Square) : z.regenerate.letterOn s = st.letterOn s := by
    rw [letterOn_regenerate, recount.letterOn]
    exact (placed.shows s).trans (if_pos (mem_setupOrder s))
  have can (c : Color) (side : CastleSide) :
      z.regenerate.canCastle c side = st.castling.get c side := by
    rw [canCastle_regenerate]
    exact (decided (c, side) (by cases c <;> cases side <;> simp)).canCastle
  obtain ⟨placement, side, castling, enPassant, halfmove, fullmove⟩ := st
  simp only [setup, Setup.mk.injEq]
  exact ⟨placement_eq_of_letterOn letters, by simp [recount.side], castleRights_eq_of_canCastle can,
    by simp [recount.enPassant], by simp [recount.halfmove], by simp [recount.fullmove]⟩

theorem ofSetup_setup_ok {b : Board} (wellFormed : b.WellFormed) :
    ∃ b', Board.ofSetup b.setup = .ok b' := by
  have shows := setup_letterOn b
  obtain ⟨y, placing⟩ := Placed.foldlM_ok_of_steps
    (fun placed fresh => placed.placeFromSetup_ok wellFormed shows fresh) setupOrder (placed_empty _)
    (by simpa using nodup_setupOrder)
  have placed := placed_of_ofSetup placing
  have letters (s : Square) : y.letterOn s = b.letterOn s := by
    rw [placed.shows, if_pos (mem_setupOrder s), shows]
  have rooks : ∀ w : Color × CastleSide, b.setup.castling.get w.1 w.2 = true →
      y.wingRooks w.1 w.2 ≠ [] := by
    intro w granted none
    rw [setup, castleRights_get] at granted
    obtain ⟨k, r, -, rook⟩ := exists_of_canCastle granted
    rw [wingRooks_eq_nil_of_letterOn placed.wellFormed.toCoherent wellFormed.toCoherent letters]
      at none
    simp [castleRook?, none] at rook
  obtain ⟨z, granting⟩ := foldlM_grantStep_ok b.setup
    { y with side := b.setup.side, enPassant := b.setup.enPassant,
             halfmove := b.setup.halfmove, fullmove := b.setup.fullmove }
    rooks _ (Recounted.refl _)
  refine ⟨z.regenerate, ?_⟩
  rw [Board.ofSetup, placing, Except.ok_bind, finishSetup_eq, granting]
  rfl

end Board
end Chess
