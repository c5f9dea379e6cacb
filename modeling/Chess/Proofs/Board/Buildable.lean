import Chess.Proofs.Notation.CastlingLetters

namespace Chess

/-! Which setups build a position. A setup builds one exactly when every letter it shows names
a piece, no colour has two kings, no pawn stands on the first or last rank, and every castling
right it grants finds the colour's king on its back rank with a rook of the colour beyond it on
that wing. The position then shows the setup on a well-formed board; any other setup is refused
as an illegal state. -/

namespace Setup

/-- A setup a position can be built from: every letter it shows names a piece, no colour has
two kings, no pawn stands on the first or last rank, and every castling right it grants has the
colour's king on its back rank with a rook of the colour on that rank beyond the king on the
wing. -/
structure Buildable (st : Setup) : Prop where
  letters : ∀ s, st.letterOn s ≠ ' ' → ∃ kind color, st.letterOn s = pieceLetter kind color
  kings : ∀ c s t, st.letterOn s = pieceLetter .king c → st.letterOn t = pieceLetter .king c → s = t
  pawns : ∀ c s, st.letterOn s = pieceLetter .pawn c →
    s.rank ≠ Rank.back .white ∧ s.rank ≠ Rank.back .black
  castling : ∀ c side, st.castling.get c side = true → ∃ k r : Square,
    k.rank = Rank.back c ∧ st.letterOn k = pieceLetter .king c ∧
      r.rank = Rank.back c ∧ st.letterOn r = pieceLetter .rook c ∧
      side.Beyond k.file.index r.file.index

end Setup

namespace Board

variable {b : Board}

theorem letterOn_eq_pieceLetter_iff {s : Square} {kind : PieceKind} {color : Color} :
    b.letterOn s = pieceLetter kind color ↔
      ∃ id, b.occupant s = some id ∧ (b.piece id).kind = kind ∧ (b.piece id).color = color := by
  constructor
  · intro shown
    have read := pieceOfLetter?_letterOn b s
    rw [shown, pieceOfLetter?_pieceLetter] at read
    obtain ⟨p, found, same⟩ := Option.map_eq_some_iff.mp read.symm
    obtain ⟨id, held, rfl⟩ := Option.map_eq_some_iff.mp found
    obtain ⟨kind', color'⟩ := Prod.mk.inj same
    exact ⟨id, held, kind', color'⟩
  · rintro ⟨id, held, rfl, rfl⟩
    exact letterOn_of_occupant held

theorem mem_wingRooks_of_beyond {c : Color} {side : CastleSide} {ks s : Square} {r : PieceId}
    (kingSq : b.kingSquare c = some ks) (kingRank : ks.rank = Rank.back c)
    (held : b.occupant s = some r) (kind : (b.piece r).kind = .rook)
    (color : (b.piece r).color = c) (rank : s.rank = Rank.back c)
    (beyond : side.Beyond ks.file.index s.file.index) : r ∈ b.wingRooks c side := by
  have square : Square.make ⟨⟨s.file.index.val % 8, Nat.mod_lt _ (by decide)⟩⟩ (Rank.back c) = s := by
    rw [← rank]
    conv_rhs => rw [← Square.make_file_rank s]
    simp [Nat.mod_eq_of_lt s.file.index.isLt]
  unfold wingRooks
  simp only [kingSq, kingRank, ne_eq, not_true_eq_false, if_false]
  refine List.mem_filterMap.mpr ⟨s.file.index.val, ?_, ?_⟩
  · have files : ks.file.index.val < s.file.index.val ∨ s.file.index.val < ks.file.index.val := by
      cases side with
      | kingside => exact .inl beyond
      | queenside => exact .inr beyond
    cases side <;> simp_all [CastleSide.Beyond, s.file.index.isLt]
  · simp [square, held, kind, color]

/-! ### Building a buildable setup -/

section Building

variable {st : Setup} (buildable : st.Buildable)
include buildable

theorem Placed.placeFromSetup_ok_of_buildable {done : List Square} {x : Board}
    (placed : Placed st done x) {s : Square} (fresh : s ∉ done) :
    ∃ y, Board.placeFromSetup st x s = .ok y := by
  unfold Board.placeFromSetup
  dsimp only
  by_cases blank : st.letterAt s.file.index s.rank.index = ' '
  · exact ⟨x, by simp [blank]⟩
  obtain ⟨kind, color, shown⟩ := buildable.letters s blank
  have read : pieceOfLetter? (st.letterAt s.file.index s.rank.index) = some (kind, color) := by
    change pieceOfLetter? (st.letterOn s) = _
    rw [shown, pieceOfLetter?_pieceLetter]
  have empty := placed.occupant_eq_none fresh
  have noKing : kind = .king → x.king color = none := by
    rintro rfl
    rcases placed.king color with none | ⟨t, member, kingAt⟩
    · exact none
    · have same := buildable.kings color s t shown (pieceLetter_of_pieceOfLetter? kingAt).symm
      exact absurd (same ▸ member) fresh
  have allowed : kind = .pawn → s.rank ≠ Rank.back .white ∧ s.rank ≠ Rank.back .black := by
    rintro rfl
    exact buildable.pawns color s shown
  rw [if_neg blank, read]
  simp only
  rw [placePiece_of_allowed placed.fresh empty noKing allowed]
  exact ⟨_, rfl⟩

theorem wingRooks_ne_nil_of_buildable {y : Board} (placed : Placed st setupOrder y) {c : Color}
    {side : CastleSide} (granted : st.castling.get c side = true) : y.wingRooks c side ≠ [] := by
  obtain ⟨k, r, kingRank, kingShown, rookRank, rookShown, beyond⟩ :=
    buildable.castling c side granted
  have letters (s : Square) : y.letterOn s = st.letterOn s := by
    rw [placed.shows, if_pos (mem_setupOrder s)]
  have kingSq : y.kingSquare c = some k :=
    placed.wellFormed.toCoherent.kingSquare_eq_some_iff_letterOn.mpr (by rw [letters, kingShown])
  obtain ⟨id, held, kind, color⟩ := letterOn_eq_pieceLetter_iff.mp ((letters r).trans rookShown)
  exact List.ne_nil_of_mem (mem_wingRooks_of_beyond kingSq kingRank held kind color rookRank beyond)

theorem ofSetup_ok_of_buildable : ∃ b, Board.ofSetup st = .ok b := by
  obtain ⟨y, placing⟩ := Placed.foldlM_ok_of_steps
    (fun placed fresh => placed.placeFromSetup_ok_of_buildable buildable fresh) setupOrder
    (placed_empty st) (by simpa using nodup_setupOrder)
  have placed := placed_of_ofSetup placing
  obtain ⟨z, granting⟩ := foldlM_grantStep_ok st
    { y with side := st.side, enPassant := st.enPassant, halfmove := st.halfmove,
             fullmove := st.fullmove }
    (fun _ granted => wingRooks_ne_nil_of_buildable buildable placed granted) _ (Recounted.refl _)
  refine ⟨z.regenerate, ?_⟩
  rw [Board.ofSetup, placing, Except.ok_bind, finishSetup_eq, granting]
  rfl

end Building

/-! ### What a built setup shows -/

/-- A setup that builds a position is buildable: the board placed from it shows its letters
as pieces, one king of a colour at most and no pawn on an edge rank, and every wing it grants
found a castle rook. -/
theorem buildable_of_ofSetup {st : Setup} (built : Board.ofSetup st = .ok b) : st.Buildable := by
  obtain ⟨y, placing, finished⟩ := Except.bind_eq_ok.mp built
  have placed := placed_of_ofSetup placing
  have coherent := placed.wellFormed.toCoherent
  have letters (s : Square) : st.letterOn s = y.letterOn s := by
    rw [placed.shows, if_pos (mem_setupOrder s)]
  refine ⟨fun s shown => ?letters, fun c s t atS atT => ?kings, fun c s shown => ?pawns,
    fun c side granted => ?castling⟩
  case letters =>
    rw [letters] at shown ⊢
    obtain ⟨p, found⟩ := Option.ne_none_iff_exists'.mp ((letterOn_eq_blank_iff y s).not.mp shown)
    obtain ⟨id, held, rfl⟩ := Option.map_eq_some_iff.mp found
    exact ⟨_, _, letterOn_of_occupant held⟩
  case kings =>
    rw [letters] at atS atT
    exact Option.some.inj ((coherent.kingSquare_eq_some_iff_letterOn.mpr atS).symm.trans
      (coherent.kingSquare_eq_some_iff_letterOn.mpr atT))
  case pawns =>
    obtain ⟨id, held, kind, -⟩ := letterOn_eq_pieceLetter_iff.mp ((letters s).symm.trans shown)
    exact placed.wellFormed.pawns s id held kind
  case castling =>
    rw [finishSetup_eq] at finished
    obtain ⟨z, granting, -⟩ := Except.bind_eq_ok.mp finished
    have recount := recounted_foldlM st _ granting
    have decided := decided_foldlM st _ []
      (placed.wellFormed.of_settings st.side st.enPassant st.halfmove st.fullmove) (by decide)
      (by simp) granting (c, side) (by cases c <;> cases side <;> simp)
    rw [granted] at decided
    obtain ⟨-, r, -, rook, -, -⟩ := decided
    have member : r ∈ y.wingRooks c side := by
      rw [castleRook?, recount.wingRooks] at rook
      exact List.mem_of_head? rook
    obtain ⟨ks, kingSq, kingRank⟩ := kingRank_of_mem_wingRooks member
    obtain ⟨ks', s, kingSq', held, beyond⟩ := beyond_of_mem_wingRooks member
    obtain rfl : ks = ks' := Option.some.inj (kingSq.symm.trans kingSq')
    obtain ⟨s', held', rank, color, kind⟩ := occupant_of_mem_wingRooks member
    obtain rfl : s = s' := coherent.square_eq_of_occupant held held'
    refine ⟨ks, s, kingRank, ?_, rank, ?_, beyond⟩
    · rw [letters]
      exact coherent.kingSquare_eq_some_iff_letterOn.mp kingSq
    · rw [letters, letterOn_of_occupant held, kind, color]

/-! ### Refusals -/

theorem placePiece_error {kind : PieceKind} {color : Color} {s : Square} {e : MoveError}
    (refused : b.placePiece kind color s = .error e) : ∃ msg, e = .illegalState msg := by
  unfold placePiece ensureSetup at refused
  split_ifs at refused <;> cases refused <;> exact ⟨_, rfl⟩

theorem applyCastleRights_error {c : Color} {side : CastleSide} {allowed : Bool} {e : MoveError}
    (refused : b.applyCastleRights c side allowed = .error e) : ∃ msg, e = .illegalState msg := by
  unfold applyCastleRights at refused
  dsimp only at refused
  split at refused
  · cases refused
  · split at refused
    · split at refused
      · cases refused
      · cases refused
        exact ⟨_, rfl⟩
    · cases refused
      exact ⟨_, rfl⟩

theorem placeFromSetup_error {st : Setup} {s : Square} {e : MoveError}
    (refused : Board.placeFromSetup st b s = .error e) : ∃ msg, e = .illegalState msg := by
  unfold Board.placeFromSetup at refused
  dsimp only at refused
  split at refused
  · cases refused
  · split at refused
    · rcases Except.bind_eq_error.mp refused with placing | ⟨_, -, placed⟩
      · exact placePiece_error placing
      · cases placed
    · cases refused
      exact ⟨_, rfl⟩

theorem ofSetup_error {st : Setup} {e : MoveError} (refused : Board.ofSetup st = .error e) :
    ∃ msg, e = .illegalState msg := by
  rw [Board.ofSetup] at refused
  rcases Except.bind_eq_error.mp refused with placing | ⟨y, -, finished⟩
  · exact Except.foldlM_error (fun _ _ _ step => placeFromSetup_error step) _ _ placing
  · rw [finishSetup_eq] at finished
    rcases Except.bind_eq_error.mp finished with granting | ⟨z, -, done⟩
    · exact Except.foldlM_error (fun _ _ _ step => applyCastleRights_error step) _ _ granting
    · cases done

/-- A setup builds a position exactly when it is buildable, and the position shows the setup:
its placement, castling rights, side to move, en-passant file and clocks, on a well-formed
board. Any other setup is refused as an illegal state. -/
theorem ofSetup_builds_exactly_buildable (st : Setup) :
    (st.Buildable → ∃ b, Board.ofSetup st = .ok b ∧ b.setup = st ∧ b.WellFormed) ∧
      (¬ st.Buildable → ∃ msg, Board.ofSetup st = .error (.illegalState msg)) := by
  constructor
  · intro buildable
    obtain ⟨b, built⟩ := ofSetup_ok_of_buildable buildable
    exact ⟨b, built, setup_ofSetup built, WellFormed.ofSetup built⟩
  · intro unbuildable
    cases built : Board.ofSetup st with
    | ok b => exact absurd (buildable_of_ofSetup built) unbuildable
    | error e =>
      obtain ⟨msg, rfl⟩ := ofSetup_error built
      exact ⟨msg, rfl⟩

end Board

end Chess
