import Chess.Proofs.Move.Game
import Chess.Proofs.Board.Seeded
import Chess.Proofs.Notation.CastlingLetters
import Chess.Proofs.Perft

namespace Chess

/-! Castling rights along a game. The rights are read off move counts and the back rank: a
colour may castle on a wing while its king and the wing's castle rook, the outermost rook of the
wing, count no move. Along a game from a position set up before play, a colour may castle on a
wing exactly when it could at the start, its king has not moved, the rook it castled with there
has neither moved nor been taken, and that rook is still the outermost of the wing
(`canCastle_after_game`). The last condition is not implied by the others: a rook that has moved
and comes to stand beyond the castle rook takes the wing over, and the right comes back once it
leaves. Move counts are 32 bits wide, so the game is shorter than the count could wrap. -/

namespace Board

variable {b : Board}

theorem make_index_file_back {c : Color} {s : Square} (rank : s.rank = Rank.back c) :
    Square.make ⟨⟨s.file.index.val % 8, Nat.mod_lt _ (by decide)⟩⟩ (Rank.back c) = s := by
  rw [← rank]
  conv_rhs => rw [← Square.make_file_rank s]
  simp [Nat.mod_eq_of_lt s.file.index.isLt]

theorem kingSquare_back_of_mem_wingRooks {c : Color} {side : CastleSide} {r : PieceId}
    (member : r ∈ b.wingRooks c side) : ∃ ks, b.kingSquare c = some ks ∧ ks.rank = Rank.back c := by
  unfold wingRooks at member
  split at member
  · cases member
  rename_i ks kingSq
  split at member
  · cases member
  rename_i back
  exact ⟨ks, kingSq, not_not.mp back⟩

theorem Coherent.mem_wingRooks_iff (coherent : b.Coherent) {c : Color} {side : CastleSide}
    {r : PieceId} :
    r ∈ b.wingRooks c side ↔ ∃ ks s, b.kingSquare c = some ks ∧ ks.rank = Rank.back c ∧
      (b.piece r).square = some s ∧ s.rank = Rank.back c ∧ (b.piece r).color = c ∧
      (b.piece r).kind = .rook ∧ side.Beyond ks.file.index s.file.index := by
  constructor
  · intro member
    obtain ⟨ks, kingSq, kingRank⟩ := kingSquare_back_of_mem_wingRooks member
    obtain ⟨ks', s, kingSq', held, beyond⟩ := beyond_of_mem_wingRooks member
    obtain ⟨s', held', rank, color, kind⟩ := occupant_of_mem_wingRooks member
    cases Option.some.inj (kingSq.symm.trans kingSq')
    cases coherent.square_eq_of_occupant held held'
    exact ⟨ks, s, kingSq, kingRank, coherent.piece_square_of_occupant held, rank, color, kind, beyond⟩
  · rintro ⟨ks, s, kingSq, kingRank, square, rank, color, kind, beyond⟩
    have held := coherent.occupant_of_square square
    unfold wingRooks
    rw [kingSq]
    dsimp only
    rw [if_neg (not_not.mpr kingRank)]
    refine List.mem_filterMap.mpr ⟨s.file.index.val, ?_, ?_⟩
    · cases side with
      | kingside =>
        simp only [List.mem_reverse, List.mem_filter, List.mem_range, decide_eq_true_eq]
        exact ⟨s.file.index.isLt, beyond⟩
      | queenside =>
        simp only [List.mem_filter, List.mem_range, decide_eq_true_eq]
        exact ⟨s.file.index.isLt, beyond⟩
    · rw [make_index_file_back rank, held]
      simp [color, kind]

theorem canCastle_eq_true_iff {c : Color} {side : CastleSide} :
    b.canCastle c side = true ↔ ∃ k r, b.king c = some k ∧ b.castleRook? c side = some r ∧
      (b.piece k).moveCount = 0 ∧ (b.piece r).moveCount = 0 := by
  unfold canCastle
  split
  · simp_all
  · rename_i k king
    split
    · rename_i moved
      simp_all
    · split <;> simp_all

/-! ### Counts along a game -/

theorem add_ofNat_eq_zero_iff {a : UInt32} {n : Nat} (small : a ≤ 1) (short : n + 1 < UInt32.size) :
    a + UInt32.ofNat n = 0 ↔ a = 0 ∧ n = 0 := by
  have smallNat : a.toNat ≤ 1 := by simpa [UInt32.le_iff_toNat_le] using small
  rw [← UInt32.toNat_inj, UInt32.toNat_add, UInt32.toNat_ofNat_of_lt' (by omega), ← UInt32.toNat_inj,
    UInt32.toNat_zero, Nat.mod_eq_of_lt (by simp [UInt32.size] at short ⊢; omega)]
  omega

theorem one_add_ofNat_ne_zero {k : Nat} (short : k + 1 < UInt32.size) :
    (1 : UInt32) + UInt32.ofNat k ≠ 0 := by
  rw [Ne, ← UInt32.toNat_inj, UInt32.toNat_add, UInt32.toNat_ofNat_of_lt' (by omega),
    UInt32.toNat_one, UInt32.toNat_zero, Nat.mod_eq_of_lt (by simp [UInt32.size] at short ⊢; omega)]
  omega

section Game

variable {b0 : Board} {moves : List Move} (since : Since b0 moves b)
include since

theorem Since.spared {id : PieceId} (old : id.index < b0.pieces.size) {s : Square}
    (standing : (b.piece id).square = some s) : ∀ m ∈ moves, m.takes id = false := by
  intro m member
  cases taken : m.takes id
  · rfl
  · rw [since.taken id old ⟨m, member, taken⟩] at standing
    cases standing

theorem Since.moveCount_of_unshifted {id : PieceId} (old : id.index < b0.pieces.size)
    (still : ∀ m ∈ moves, m.shifts id = false) : (b.piece id).moveCount = (b0.piece id).moveCount := by
  have none : moves.countP (·.shifts id) = 0 :=
    List.countP_eq_zero.mpr fun m member => by simp [still m member]
  rw [since.moveCount id old, none]
  simp

theorem Since.canCastle_of_start (coherent0 : b0.Coherent) {c : Color} {side : CastleSide}
    (can : b0.canCastle c side = true) {k r : PieceId} (king : b0.king c = some k)
    (rook : b0.castleRook? c side = some r) (untouched : ∀ m ∈ moves, m.shifts k = false ∧ m.shifts r = false)
    (still : b.castleRook? c side = some r) : b.canCastle c side = true := by
  obtain ⟨k', r', king', rook', kingCount, rookCount⟩ := canCastle_eq_true_iff.mp can
  cases Option.some.inj (king.symm.trans king')
  cases Option.some.inj (rook.symm.trans rook')
  have kingOld : k.index < b0.pieces.size := by
    obtain ⟨p, found, -⟩ := coherent0.enrolled c k ((coherent0.king_iff c k).mp king).1
    exact Coherent.lt_size_of_piece? found
  have rookOld : r.index < b0.pieces.size := by
    obtain ⟨s, held, -⟩ := occupant_of_castleRook? rook
    obtain ⟨p, found, -⟩ := coherent0.piece?_of_occupant held
    exact Coherent.lt_size_of_piece? found
  refine canCastle_eq_true_iff.mpr ⟨k, r, (since.king c).trans king, still, ?_, ?_⟩
  · rw [since.moveCount_of_unshifted kingOld fun m member => (untouched m member).1, kingCount]
  · rw [since.moveCount_of_unshifted rookOld fun m member => (untouched m member).2, rookCount]

variable (seeded : b0.Seeded) (short : moves.length + 1 < UInt32.size)
include seeded short

theorem Since.moveCount_eq_zero_iff {id : PieceId} {s : Square} (standing : (b.piece id).square = some s) :
    (b.piece id).moveCount = 0 ↔ id.index < b0.pieces.size ∧ (b0.piece id).moveCount = 0 ∧
      ∀ m ∈ moves, m.shifts id = false := by
  have inArena : id.index < b.pieces.size := by
    obtain ⟨p, found, -⟩ := since.coherent.piece?_of_occupant (since.coherent.occupant_of_square standing)
    exact Coherent.lt_size_of_piece? found
  by_cases old : id.index < b0.pieces.size
  · have shortCount : moves.countP (·.shifts id) + 1 < UInt32.size :=
      lt_of_le_of_lt (Nat.add_le_add_right (List.countP_le_length) 1) short
    rw [since.moveCount id old, add_ofNat_eq_zero_iff (seeded.small id) shortCount,
      List.countP_eq_zero]
    simp [old]
  · obtain ⟨k, fewer, count⟩ := since.fresh id (Nat.not_lt.mp old) inArena
    rw [count]
    simp only [old, false_and, iff_false]
    exact one_add_ofNat_ne_zero (by omega)

theorem Since.unmoved {id : PieceId} {s : Square} (standing : (b.piece id).square = some s)
    (count : (b.piece id).moveCount = 0) :
    id.index < b0.pieces.size ∧ (b0.piece id).moveCount = 0 ∧ (b0.piece id).square = some s ∧
      ∀ m ∈ moves, m.shifts id = false ∧ m.takes id = false := by
  obtain ⟨old, count0, still⟩ := (since.moveCount_eq_zero_iff seeded short standing).mp count
  have untouched : ∀ m ∈ moves, m.shifts id = false ∧ m.takes id = false :=
    fun m member => ⟨still m member, since.spared old standing m member⟩
  refine ⟨old, count0, ?_, untouched⟩
  rw [← since.square id old untouched]
  exact standing

theorem Since.castle_of_canCastle (coherent0 : b0.Coherent) {c : Color} {side : CastleSide}
    (can : b.canCastle c side = true) :
    b0.canCastle c side = true ∧ ∃ k r, b0.king c = some k ∧ b0.castleRook? c side = some r ∧
      (∀ m ∈ moves, m.shifts k = false ∧ m.shifts r = false ∧ m.takes r = false) ∧
      b.castleRook? c side = some r := by
  obtain ⟨k, r, king, rook, kingCount, rookCount⟩ := canCastle_eq_true_iff.mp can
  have king0 : b0.king c = some k := (since.king c).symm.trans king
  obtain ⟨ks, s, kingSq, kingRank, rookSquare, rank, color, kind, beyond⟩ :=
    since.coherent.mem_wingRooks_iff.mp (List.mem_of_head? rook)
  have kingSquare : (b.piece k).square = some ks := by simpa [Board.kingSquare, king] using kingSq
  obtain ⟨rookOld, rookCount0, rookSquare0, rookUntouched⟩ :=
    since.unmoved seeded short rookSquare rookCount
  obtain ⟨-, kingCount0, kingSquare0, kingUntouched⟩ := since.unmoved seeded short kingSquare kingCount
  have member0 : r ∈ b0.wingRooks c side :=
    coherent0.mem_wingRooks_iff.mpr ⟨ks, s, by simp [Board.kingSquare, king0, kingSquare0],
      kingRank, rookSquare0, rank, (since.grows.color r rookOld).symm.trans color,
      (since.grows.kind r rookOld).symm.trans kind, beyond⟩
  have rook0 := seeded.wings c side r member0 rookCount0
  exact ⟨canCastle_eq_true_iff.mpr ⟨k, r, king0, rook0, kingCount0, rookCount0⟩, k, r, king0, rook0,
    fun m member => ⟨(kingUntouched m member).1, rookUntouched m member⟩, rook⟩

end Game

/-- Castling rights along a game. From the standard start or a position read from a FEN text,
after listed moves played in turn, fewer than the 32-bit move counts can wrap: a colour may castle
on a wing exactly when it could at the start, its king `k` and the start's castle rook `r` of the
wing were never shifted by a move, `r` was never taken, and `r` is still the wing's castle rook. -/
theorem canCastle_after_game {b0 : Board} {moves : List Move}
    (start : b0 = Board.standard ∨ ∃ text, Board.ofFen text = .ok b0) (game : b0.Game moves b)
    (short : moves.length + 1 < UInt32.size) (c : Color) (side : CastleSide) :
    b.canCastle c side = true ↔ b0.canCastle c side = true ∧ ∃ k r, b0.king c = some k ∧
      b0.castleRook? c side = some r ∧
      (∀ m ∈ moves, m.shifts k = false ∧ m.shifts r = false ∧ m.takes r = false) ∧
      b.castleRook? c side = some r := by
  have setUp : b0.WellFormed ∧ b0.Settled ∧ b0.Seeded := by
    rcases start with rfl | ⟨text, read⟩
    · exact ⟨WellFormed.standard, Settled.standard, Seeded.standard⟩
    · exact ⟨WellFormed.ofFen read, Settled.ofFen read, Seeded.ofFen read⟩
  obtain ⟨wellFormed, settled, seeded⟩ := setUp
  have since := game.since wellFormed.toCoherent settled
  constructor
  · exact since.castle_of_canCastle seeded short wellFormed.toCoherent
  · rintro ⟨can, k, r, king, rook, untouched, still⟩
    exact since.canCastle_of_start wellFormed.toCoherent can king rook
      (fun m member => ⟨(untouched m member).1, (untouched m member).2.1⟩) still

/-- One listed move from the standard start is a game the rule of `canCastle_after_game` reads. -/
theorem canCastle_after_game_standard : ∃ m ∈ Board.standard.legalMoves, ∃ r,
    m.execute Board.standard = .ok r ∧
    (Board.standard = Board.standard ∨ ∃ text, Board.ofFen text = .ok Board.standard) ∧
    Board.standard.Game [r.1] r.2 ∧ [r.1].length + 1 < UInt32.size ∧
    (r.2.canCastle .white .kingside = true ↔ Board.standard.canCastle .white .kingside = true ∧
      ∃ k q, Board.standard.king .white = some k ∧ Board.standard.castleRook? .white .kingside = some q ∧
        (∀ m ∈ [r.1], m.shifts k = false ∧ m.shifts q = false ∧ m.takes q = false) ∧
        r.2.castleRook? .white .kingside = some q) := by
  obtain ⟨m, listed⟩ :=
    List.exists_mem_of_length_pos (by decide +kernel : 0 < Board.standard.legalMoves.length)
  obtain ⟨r, run, -⟩ :=
    Move.execute_of_mem_legalMoves WellFormed.standard.toCoherent Settled.standard listed
  have game : Board.standard.Game [r.1] r.2 := .play .start listed run
  have short : [r.1].length + 1 < UInt32.size := by simp [UInt32.size]
  exact ⟨m, listed, r, run, Or.inl rfl, game, short,
    canCastle_after_game (Or.inl rfl) game short .white .kingside⟩

/-- The right without the last condition fails: from a position where White may castle on the
queen's wing with the rook on b1, the listed move of the rook on a2 to a1 touches neither the
king nor the b1 rook, yet the a1 rook, now the outermost of the wing and counting a move, takes
the right away. -/
theorem castleRook_taken_over_by_arriving_rook :
    (Board.ofFen "4k3/8/8/8/8/8/R7/1R2K3 w Q - 0 1").toOption.bind (fun b =>
      (b.legalMoves.find? fun m => m.uci == "a2a1").bind fun m =>
        (m.execute b).toOption.map fun r =>
          b.canCastle .white .queenside && !r.2.canCastle .white .queenside) = some true := by
  decide +kernel

end Board

end Chess
