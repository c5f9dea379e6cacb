import Chess.Proofs.Notation.Reread
import Chess.Proofs.Perft

namespace Chess

/-! Coordinate notation read again on a mirrored board. Coordinate notation read on a coherent,
settled board gives a move that plays there as a listed move does. Two mirrored boards plan their
castles over the same squares, so the board's move of a renamed piece is written in coordinates
as the first board's move of the piece; a listed move played on one board is read back on the
other from its coordinates, and the move read plays the same, is written the same in both
notations, and leaves a mirrored board (`Move.reads_uci_mirrored`). -/

theorem Uci.parse_listed {b : Board} (coherent : b.Coherent) (settled : b.Settled) {text : String}
    {k : Move} (read : Uci.parse b text = .ok k) :
    ∃ n ∈ b.legalMoves, ∃ r, n.execute b = .ok r ∧ k.execute b = .ok r ∧ k.Fits b := by
  unfold Uci.parse Uci.parseNoted at read
  dsimp only at read
  split at read
  · cases read
  · split at read
    · split at read
      · rw [Move.newNoted_quiet] at read
        exact Move.new_listed coherent settled read
      · split at read
        · rw [Move.newNoted_quiet] at read
          exact Move.new_listed coherent settled read
        · cases read
    · cases read

namespace Move

variable {v w : Board} {n : Move} {σ : PieceId → PieceId}

section Mirrored

variable (mir : Board.Mirrors σ v w) (cv : v.Coherent) (cw : w.Coherent) (sv : v.Settled)
  (sw : w.Settled)
include mir cv cw sv sw

theorem uci_knownLegal_mirrored {id : PieceId} (tracked : v.Tracks id) (o t : Square)
    (promo : Option PieceKind) (castle : Option CastleSide) :
    (knownLegal w (σ id) o t promo castle).uci = (knownLegal v id o t promo castle).uci := by
  have rookFrom : ∀ side, ((w.castlePlan? (v.piece id).color side).map CastlePlan.rookFrom) =
      ((v.castlePlan? (v.piece id).color side).map CastlePlan.rookFrom) := fun side => by
    have routes : (v.castlePlan? (v.piece id).color side).map CastlePlan.route =
        (w.castlePlan? (v.piece id).color side).map CastlePlan.route :=
      (mir.lookalike cv cw sv sw).castlePlan? cv cw (mir.canCastle _ side)
    have origins := congrArg (Option.map CastlePlan.rookFrom) routes
    have comp : CastlePlan.rookFrom ∘ CastlePlan.route = CastlePlan.rookFrom := rfl
    simpa only [Option.map_map, comp] using origins.symm
  unfold uci
  simp only [knownLegal_eq, castleRook_build, origin_build, target_build, promotion_build,
    castle_build, ← mir.color tracked]
  cases castle with
  | none => rfl
  | some side =>
    have same := rookFrom side
    cases plansW : w.castlePlan? (v.piece id).color side <;>
      cases plansV : v.castlePlan? (v.piece id).color side <;>
      simp_all

theorem uci_played_mirrored {n' : Move} (listed : n ∈ v.legalMoves) (listed' : n' ∈ w.legalMoves)
    {r r' : Move × Board} (run : n.execute v = .ok r) (run' : n'.execute w = .ok r')
    (same : r'.1.playsSame r.1 = true) : r'.1.uci = r.1.uci := by
  obtain ⟨id, o, t, promo, castle, rfl, tracked, listedC, rC, -, runC, -⟩ :=
    plays_mirrored mir cv cw sv sw listed run
  have plays : (knownLegal w (σ id) o t promo castle).playsSame n' = true :=
    playsSame_trans (by rw [playsSame_comm]; exact playsSame_execute runC)
      (playsSame_trans (playsSame_played_mirrored mir tracked runC run)
        (playsSame_trans (by rw [playsSame_comm]; exact same) (playsSame_execute run')))
  rw [uci_execute cw sw listed' run', uci_execute cv sv listed run, ← eq_of_playsSame cw listedC listed' plays,
    uci_knownLegal_mirrored mir cv cw sv sw tracked]

/-- A listed move played on one of two mirrored boards is read back on the other from its
coordinates: the move read plays the same, is written the same in both notations, and leaves a
mirrored board. -/
theorem reads_uci_mirrored (listed : n ∈ v.legalMoves) {r : Move × Board} (run : n.execute v = .ok r) :
    ∃ k r' σ', Uci.parse w r.1.uci = .ok k ∧ k.Fits w ∧ k.execute w = .ok r' ∧
      Board.Mirrors σ' r.2 r'.2 ∧ r'.1.san = r.1.san ∧ r'.1.uci = r.1.uci ∧
      r'.1.playsSame r.1 = true := by
  obtain ⟨id, o, t, promo, castle, rfl, tracked, listed', r', σ', run', mirrored, written, -⟩ :=
    plays_mirrored mir cv cw sv sw listed run
  have text : r.1.uci = (knownLegal w (σ id) o t promo castle).uci := by
    rw [uci_execute cv sv listed run, uci_knownLegal_mirrored mir cv cw sv sw tracked]
  obtain ⟨k, read, same⟩ := parse_uci_of_listed cw sw listed'
  obtain ⟨played, fitsK⟩ := execute_of_read cw listed' same (Uci.parse_listed cw sw read) run'
  have uci : r'.1.uci = r.1.uci := by
    rw [uci_execute cw sw listed' run', text]
  refine ⟨k, r', σ', ?_, fitsK, played, mirrored, written, uci,
    playsSame_played_mirrored mir tracked run' run⟩
  rw [text]
  exact read

end Mirrored

end Move

end Chess
