import Chess.Proofs.Move.Touched

namespace Chess

/-! Games: listed moves played in turn from a start. Along a game the kings stay the kings of the
start; every piece of the start keeps its kind and colour, counts one move for each move that
shifts it, keeps its square while no move shifts or takes it, and stays off the board once taken;
a piece a promotion brings in counts at least one move (`Game.since`). -/

namespace Board

/-- A game from `b0` to `b`: moves taken from the board's listed moves and played in turn,
recorded as played. -/
inductive Game (b0 : Board) : List Move → Board → Prop
  | start : Game b0 [] b0
  | play {moves : List Move} {b : Board} {m : Move} {r : Move × Board} (game : Game b0 moves b)
      (listed : m ∈ b.legalMoves) (run : m.execute b = .ok r) : Game b0 (moves ++ [r.1]) r.2

/-- The board `b` reached from `b0` by the moves `moves`, piece by piece. -/
structure Since (b0 : Board) (moves : List Move) (b : Board) : Prop where
  coherent : b.Coherent
  settled : b.Settled
  king : ∀ c, b.king c = b0.king c
  grows : b0.ArenaGrows b
  moveCount : ∀ id : PieceId, id.index < b0.pieces.size →
    (b.piece id).moveCount = (b0.piece id).moveCount + UInt32.ofNat (moves.countP (·.shifts id))
  fresh : ∀ id : PieceId, b0.pieces.size ≤ id.index → id.index < b.pieces.size →
    ∃ k < moves.length, (b.piece id).moveCount = 1 + UInt32.ofNat k
  square : ∀ id : PieceId, id.index < b0.pieces.size →
    (∀ m ∈ moves, m.shifts id = false ∧ m.takes id = false) →
      (b.piece id).square = (b0.piece id).square
  taken : ∀ id : PieceId, id.index < b0.pieces.size → (∃ m ∈ moves, m.takes id = true) →
    (b.piece id).square = none

namespace Since

variable {b0 b : Board} {moves : List Move}

theorem start (coherent : b0.Coherent) (settled : b0.Settled) : Since b0 [] b0 where
  coherent := coherent
  settled := settled
  king _ := rfl
  grows := ArenaGrows.refl b0
  moveCount id _ := by simp
  fresh id new within := absurd within (Nat.not_lt.mpr new)
  square _ _ _ := rfl
  taken id _ earlier := by simp at earlier

theorem play (since : Since b0 moves b) {m : Move} (listed : m ∈ b.legalMoves) {r : Move × Board}
    (run : m.execute b = .ok r) : Since b0 (moves ++ [r.1]) r.2 := by
  have advance := advance_execute since.coherent since.settled listed run
  have fits := fits_of_mem_legalMoves since.coherent since.settled listed
  have old (id : PieceId) (start : id.index < b0.pieces.size) : id.index < b.pieces.size :=
    lt_of_lt_of_le start since.grows.size
  refine ⟨since.coherent.execute since.settled fits run, Settled.execute run,
    fun c => (advance.king c).trans (since.king c), since.grows.trans advance.grows,
    fun id start => ?_, fun id new within => ?_, fun id start untouched => ?_,
    fun id start earlier => ?_⟩
  · rw [advance.moveCount id (old id start), since.moveCount id start, List.countP_append,
      List.countP_singleton]
    split <;> simp [add_assoc]
  · by_cases before : id.index < b.pieces.size
    · obtain ⟨k, short, count⟩ := since.fresh id new before
      refine ⟨k + if r.1.shifts id then 1 else 0, ?_, ?_⟩
      · simp only [List.length_append, List.length_singleton]
        split <;> omega
      · rw [advance.moveCount id before, count]
        split <;> simp [add_assoc]
    · exact ⟨0, by simp, by rw [advance.fresh id (Nat.not_lt.mp before) within]; rfl⟩
  · have last := untouched r.1 (by simp)
    rw [advance.square id (old id start) last.1 last.2]
    exact since.square id start fun m member => untouched m (by simp [member])
  · obtain ⟨m', member, taken⟩ := earlier
    rcases List.mem_append.mp member with before | now
    · have off := since.taken id start ⟨m', before, taken⟩
      cases shifted : r.1.shifts id
      · cases takenNow : r.1.takes id
        · rw [advance.square id (old id start) shifted takenNow, off]
        · exact advance.taken id takenNow
      · have standing := advance.standing id shifted
        rw [off] at standing
        cases standing
    · rw [List.mem_singleton.mp now] at taken
      exact advance.taken id taken

end Since

theorem Game.since {b0 b : Board} {moves : List Move} (coherent : b0.Coherent) (settled : b0.Settled)
    (game : b0.Game moves b) : Since b0 moves b := by
  induction game with
  | start => exact Since.start coherent settled
  | play _ listed run since => exact since.play listed run

end Board

end Chess
