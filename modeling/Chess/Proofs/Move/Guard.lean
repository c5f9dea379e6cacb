import Chess.Proofs.Move.Line
import Chess.Proofs.Move.Prepare

namespace Chess

namespace Move

/-! What taking back checks. A played move is taken back when it belongs to the board, is
marked played, and its origin and destination are those the board records last; the move
object itself is not compared with the one last played. So after any play, every played move
of the board with the same two squares is taken back, and it puts back its own recorded
clocks and en-passant file, while a move with other squares is refused as not the last move
played. -/

variable {m m' : Move} {b : Board} {r : Move × Board}

theorem execute_records (run : m.execute b = .ok r) :
    r.1.executed = true ∧ r.1.lineage = b.lineage ∧ r.2.lineage = b.lineage ∧
      (r.1.origin, r.1.target) = (m.origin, m.target) ∧
      r.2.played = b.played.push (m.origin, m.target) := by
  obtain ⟨hop, checked, board, outcome, move⟩ := execute_eq_ok run
  obtain ⟨lineage, -⟩ := checkPlayable_eq_ok.mp checked
  obtain ⟨promoted, fields⟩ := playSteps_fst (m := m) (w := b) hop
  refine ⟨by rw [move], by simp [move, fields, lineage], by simp [board], by simp [move, fields],
    by simp [board, fields]⟩

theorem lastMove?_execute (run : m.execute b = .ok r) :
    r.2.lastMove? = some (m.origin, m.target) := by
  rw [Board.lastMove?, (execute_records run).2.2.2.2, Array.back?_push]

theorem unexecute_restores_record {t : Move × Board} (undo : m.unexecute b = .ok t) :
    t.2.played = b.played.pop ∧ t.2.side = m.color ∧ t.2.enPassant = m.prevEnPassant ∧
      t.2.halfmove = m.prevHalfmove ∧ t.2.fullmove = m.prevFullmove := by
  obtain ⟨-, -, -, rfl⟩ := unexecute_eq_ok.mp undo
  have record := record_unplace m (m.unpromote { b with played := b.played.pop, side := m.color })
  rw [record_unpromote] at record
  refine ⟨?played, ?side, by simp, by simp, by simp⟩
  case played =>
    simp only [Board.played_regenerate]
    rw [← Board.record_played, record]
    rfl
  case side =>
    simp only [Board.side_regenerate]
    rw [← Board.record_side, record]
    rfl

/-- After a play, taking back a played move of the board depends on its squares only: a move
with the squares of the play is taken back and puts back its own recorded turn, en-passant
file and clocks, whichever move it is; one with other squares is refused as not the last move
played. -/
theorem unexecute_decided_by_squares (run : m'.execute b = .ok r) (lineage : m.lineage = b.lineage)
    (executed : m.executed = true) :
    ((m.origin, m.target) = (m'.origin, m'.target) →
      ∃ t, m.unexecute r.2 = .ok t ∧ t.2.played = b.played ∧ t.2.side = m.color ∧
        t.2.enPassant = m.prevEnPassant ∧ t.2.halfmove = m.prevHalfmove ∧
        t.2.fullmove = m.prevFullmove) ∧
    ((m.origin, m.target) ≠ (m'.origin, m'.target) →
      m.unexecute r.2 = .error (.illegalState (m.san ++ " is not the last move played"))) := by
  obtain ⟨-, -, sameLineage, -, played⟩ := execute_records run
  have last := lastMove?_execute run
  constructor
  · intro same
    have undo : m.unexecute r.2 = .ok _ :=
      unexecute_eq_ok.mpr ⟨by rw [sameLineage, lineage], executed, by rw [last, same], rfl⟩
    obtain ⟨popped, restored⟩ := unexecute_restores_record undo
    exact ⟨_, undo, by rw [popped, played, Array.pop_push], restored⟩
  · intro other
    have stale : r.2.lastMove? ≠ some (m.origin, m.target) := by
      rw [last]
      exact fun same => other (Option.some.inj same).symm
    simp [unexecute, sameLineage, lineage, executed, stale]

/-- On the standard board, after a first move, a copy of the played move with another full-move
number recorded, never itself played, is taken back too and puts back that number. -/
theorem unexecute_decided_by_squares_copy :
    ∃ m r, m ∈ Board.standard.legalMoves ∧ m.execute Board.standard = .ok r ∧
      ∃ t, { r.1 with prevFullmove := 7 }.unexecute r.2 = .ok t ∧ t.2.fullmove = 7 := by
  obtain ⟨m, listed⟩ :=
    List.exists_mem_of_length_pos (by decide +kernel : 0 < Board.standard.legalMoves.length)
  obtain ⟨hop, checked⟩ := checkPlayable_of_mem_legalMoves Board.WellFormed.standard.toCoherent
    Board.Settled.standard listed
  obtain ⟨r, run⟩ := execute_ok_iff.mpr ⟨hop, checked⟩
  obtain ⟨executed, lineage, -, squares, -⟩ := execute_records run
  obtain ⟨t, undo, -, -, -, -, fullmove⟩ :=
    (unexecute_decided_by_squares run (m := { r.1 with prevFullmove := 7 }) lineage executed).1 squares
  exact ⟨m, r, listed, run, t, undo, fullmove⟩

end Move

end Chess
