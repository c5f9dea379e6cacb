import Chess.Proofs.Move.Arena
import Chess.Proofs.Move.Replica

namespace Chess

/-! Lines of moves played on one board, with moves taken back and played again in between.
A board that walks a line from a start stands, up to the names of promoted pieces, where a
copy of the start stands after moves playing the same have been played on it: the same
position, clocks and moves played, so the same dump. Its side to move and full-move number
are those the line's length gives. -/

namespace Board

theorem Restores.trans {x y z : Board} (first : x.Restores y) (second : y.Restores z) :
    x.Restores z := by
  refine ⟨first.toSame.trans second.toSame, first.halfmove.trans second.halfmove,
    first.fullmove.trans second.fullmove, first.played.trans second.played,
    first.lineage.trans second.lineage, fun id p found pawn => ?_⟩
  obtain ⟨q, foundY, bare⟩ := Option.map_eq_some_iff.mp (first.pawn id p found pawn)
  have pawnY : q.kind = .pawn := by rw [← Piece.bare_kind, bare, Piece.bare_kind, pawn]
  rw [second.pawn id q foundY pawnY, bare]

theorem Restores.mirrors_symm {x y : Board} (restores : x.Restores y) : Mirrors id y x :=
  ⟨restores.toAgree.symm.renames, restores.lineage.symm, restores.side.symm,
    restores.enPassant.symm, restores.halfmove.symm, restores.fullmove.symm,
    restores.played.symm⟩

end Board

namespace Move

variable {m : Move} {b : Board}

section Clocks

variable {r : Move × Board} (run : m.execute b = .ok r)
include run

theorem side_execute : r.2.side = b.side.opponent := by
  obtain ⟨hop, checked, board, -⟩ := execute_eq_ok run
  obtain ⟨-, -, -, turn, -⟩ := checkPlayable_eq_ok.mp checked
  obtain ⟨promoted, fields⟩ := playSteps_fst (m := m) (w := b) hop
  rw [board]
  simp [fields, turn]

theorem fullmove_execute : r.2.fullmove = if b.side = .black then b.fullmove + 1 else b.fullmove := by
  obtain ⟨hop, checked, board, -⟩ := execute_eq_ok run
  obtain ⟨-, -, -, turn, -⟩ := checkPlayable_eq_ok.mp checked
  obtain ⟨promoted, fields⟩ := playSteps_fst (m := m) (w := b) hop
  have record := congrArg Board.fullmove (record_playSteps (m := m) (w := b) hop)
  simp only [Board.record_fullmove] at record
  rw [board]
  simp [fields, turn, record, advanceClocks]

end Clocks

/-- A line of moves walked from the board `w` to the board `y`, moves taken back and played
again in between: each move is what a fitting move gave back when played on a coherent,
settled board that restores the board the line stood at, and `y` restores the board the last
move was played to. -/
inductive Walk : Board → List Move → Board → Prop
  | here {w y : Board} (restores : w.Restores y) : Walk w [] y
  | step {w v w' y : Board} {m m' : Move} {line : List Move} (restores : w.Restores v)
      (coherent : v.Coherent) (settled : v.Settled) (fits : m.Fits v)
      (run : m.execute v = .ok (m', w')) (rest : Walk w' line y) : Walk w (m' :: line) y

/-- Moves playing the same as those of a line, played in turn from a board. -/
inductive Replays : Board → List Move → Board → Prop
  | nil (b : Board) : Replays b [] b
  | cons {b b' : Board} {m k : Move} {r : Move × Board} {line : List Move}
      (same : k.playsSame m = true) (run : k.execute b = .ok r) (rest : Replays r.2 line b') :
      Replays b (m :: line) b'

namespace Walk

variable {w y : Board} {line : List Move}

theorem snoc (walk : Walk w line y) (coherent : y.Coherent) (settled : y.Settled) (fits : m.Fits y)
    {r : Move × Board} (run : m.execute y = .ok r) : Walk w (line ++ [r.1]) r.2 := by
  induction walk with
  | here restores => exact .step restores coherent settled fits run (.here (Board.Restores.refl _))
  | step restores coherentV settledV fitsV runV rest ih =>
    exact .step restores coherentV settledV fitsV runV (ih coherent settled fits run)

/-- Taking back the last move of a line, from the coherent board the line stands at, succeeds
and leaves the line without it: the move comes back unplayed, and the board taken back to is
coherent. -/
theorem unsnoc (walk : Walk w (line ++ [m]) y) (coherent : y.Coherent) :
    ∃ t, m.unexecute y = .ok t ∧ t.1 = { m with executed := false } ∧ Walk w line t.2 ∧
      t.2.Coherent := by
  induction line generalizing w with
  | nil =>
    cases walk with
    | step restores coherentV settledV fits run rest =>
      cases rest with
      | here restoresY =>
        have undoable := undoable_execute coherentV settledV fits run
        obtain ⟨t, undone, taken, restoresT, -, -, coherentT⟩ :=
          undoable.unexecute coherentV settledV restoresY
        exact ⟨t, undone, taken, .here (restores.trans restoresT), coherentT coherent⟩
  | cons a line ih =>
    cases walk with
    | step restores coherentV settledV fits run rest =>
      obtain ⟨t, undone, taken, walkT, coherentT⟩ := ih rest
      exact ⟨t, undone, taken, .step restores coherentV settledV fits run walkT, coherentT⟩

theorem side (walk : Walk w line y) :
    y.side = if line.length % 2 = 0 then w.side else w.side.opponent := by
  induction walk with
  | here restores => simp [restores.side]
  | @step w v w' y m m' line restores coherentV settledV fits run rest ih =>
    rw [ih, side_execute run, ← restores.side]
    by_cases even : line.length % 2 = 0
    · have odd : ¬(line.length + 1) % 2 = 0 := by omega
      simp [even, odd]
    · have even' : (line.length + 1) % 2 = 0 := by omega
      simp [even, even']

theorem fullmove (walk : Walk w line y) :
    y.fullmove = w.fullmove + ((line.length + if w.side = .white then 0 else 1) / 2).toUInt32 := by
  induction walk with
  | @here w y restores =>
    rw [← restores.fullmove]
    cases w.side <;> simp
  | @step w v w' y m m' line restores coherentV settledV fits run rest ih =>
    rw [ih, fullmove_execute run, side_execute run, ← restores.side, ← restores.fullmove]
    cases w.side with
    | white => simp [Color.opponent]
    | black =>
      have half : (line.length + 1 + 1) / 2 = line.length / 2 + 1 := by omega
      simp only [Color.opponent, List.length_cons, reduceCtorEq, if_false, if_true, Nat.add_zero]
      rw [half, show (line.length / 2 + 1).toUInt32 = (line.length / 2).toUInt32 + 1 from
        UInt32.ofNat_add _ _]
      ac_rfl

/-- A line replays on a board mirrored by its start: moves playing the same as the line's,
played in turn on that board, reach a coherent, settled board mirrored by the board at the end
of the line. Each move is played again renamed, on the board the renaming has come to. -/
theorem replays (walk : Walk w line y) {σ : PieceId → PieceId} {z : Board}
    (mir : Board.Mirrors σ w z) (coherent : z.Coherent) (settled : z.Settled) :
    ∃ σ' z', Replays z line z' ∧ Board.Mirrors σ' y z' ∧ z'.Coherent ∧ z'.Settled := by
  induction walk generalizing σ z with
  | here restores => exact ⟨_, z, .nil z, restores.mirrors_symm.comp mir, coherent, settled⟩
  | @step w v w' y m m' line restores coherentV settledV fits run rest ih =>
    have mirV := restores.mirrors_symm.comp mir
    obtain ⟨σ', r', run', mir', fits'⟩ :=
      execute_replica mirV coherentV coherent settledV settled fits run
    obtain ⟨σ'', z', replayed, mirY, coherentZ, settledZ⟩ :=
      ih mir' (coherent.execute settled fits' run') (Board.Settled.execute run')
    have same : (m.replica (σ ∘ id)).playsSame m' = true :=
      playsSame_trans (replica_playsSame _ m) (by rw [playsSame_comm]; exact playsSame_execute run)
    exact ⟨σ'', z', .cons same run' replayed, mirY, coherentZ, settledZ⟩

theorem dump (walk : Walk w line y) (coherentW : w.Coherent) (settledW : w.Settled)
    (coherentY : y.Coherent) (settledY : y.Settled) : ∃ z, Replays w line z ∧ z.dump = y.dump := by
  obtain ⟨σ, z, replayed, mir, coherentZ, settledZ⟩ :=
    walk.replays (Board.Restores.refl w).mirrors coherentW settledW
  exact ⟨z, replayed, (mir.dump coherentY coherentZ settledY settledZ).symm⟩

end Walk

end Move

end Chess
