import Chess.Proofs.Move.TakeBack

namespace Chess

theorem Board.Settled.standard : Board.standard.Settled := by
  unfold Board.standard
  exact Board.Settled.regenerate _

namespace Move

/-! Lines of moves played and taken back. Playing the moves of a line in turn and then
taking them back, last first, gives back the board, regenerated state included. Each
take-back starts from a board that restores the one its move was played to, and that is all
the take-back of a single play needs, so the result goes through the line by induction. -/

/-- Plays the moves of a line in turn, then takes them back, last first: the board at the
end, or the first error. -/
def roundTrip : List Move → Board → Except MoveError Board
  | [], b => .ok b
  | m :: line, b => do
    let r ← m.execute b
    let y ← roundTrip line r.2
    let t ← r.1.unexecute y
    pure t.2

/-- A line plays through a board: each move fits the board it meets and plays on it. -/
inductive PlaysThrough : Board → List Move → Prop
  | nil (b : Board) : PlaysThrough b []
  | cons {b : Board} {m : Move} {line : List Move} {r : Move × Board} (fits : m.Fits b)
      (run : m.execute b = .ok r) (rest : PlaysThrough r.2 line) : PlaysThrough b (m :: line)

instance (m : Move) (b : Board) : Decidable (m.Fits b) :=
  decidable_of_iff ((b.piece m.piece).kind = m.kind ∧ (b.piece m.piece).color = m.color ∧
      (m.castle.isSome → m.kind = .king) ∧
      (∀ k ∈ m.promotion, k.isPromotionTarget = true ∧ m.kind = .pawn ∧
        m.target.rank = Rank.promotion m.color) ∧
      (m.promoted.isSome → m.promotion.isSome)) <| by
    constructor
    · rintro ⟨kind, color, castle, promotion, promoted⟩
      exact ⟨kind, color, castle, promotion, promoted⟩
    · intro fits
      exact ⟨fits.kind, fits.color, fits.castle, fits.promotion, fits.promoted⟩

def playsThrough : Board → List Move → Bool
  | _, [] => true
  | b, m :: line =>
    match m.execute b with
    | .ok r => decide (m.Fits b) && playsThrough r.2 line
    | .error _ => false

theorem playsThrough_iff {b : Board} {line : List Move} :
    playsThrough b line = true ↔ PlaysThrough b line := by
  induction line generalizing b with
  | nil => exact ⟨fun _ => .nil b, fun _ => rfl⟩
  | cons m line ih =>
    constructor
    · intro check
      unfold playsThrough at check
      split at check
      · rename_i r run
        rw [Bool.and_eq_true, decide_eq_true_iff] at check
        exact .cons check.1 run (ih.mp check.2)
      · cases check
    · intro plays
      cases plays with
      | cons fits run rest => simp [playsThrough, run, fits, ih.mpr rest]

instance (b : Board) (line : List Move) : Decidable (PlaysThrough b line) :=
  decidable_of_iff _ playsThrough_iff

/-- Playing a line of moves and taking them back, last first, restores the board: the same
position and regenerated state, clocks, moves played and lineage. Each move adds at most one
piece to the arena, which no roster holds, and once a move is played the board is marked
started. -/
theorem restores_roundTrip {w : Board} {line : List Move} (coherent : w.Coherent)
    (settled : w.Settled) (plays : PlaysThrough w line) :
    ∃ t, roundTrip line w = .ok t ∧ w.Restores t ∧ t.pieces.size ≤ w.pieces.size + line.length ∧
      t.started = (w.started || !line.isEmpty) := by
  induction plays with
  | nil b => exact ⟨b, rfl, Board.Restores.refl b, by simp, by simp⟩
  | @cons b m line r fits run rest ih =>
    obtain ⟨y, trip, restores, size, started⟩ :=
      ih (coherent.execute settled fits run) (Board.Settled.execute run)
    have undoable := undoable_execute coherent settled fits run
    obtain ⟨t, undone, -, restoresT, sizeT, startedT, -⟩ :=
      undoable.unexecute coherent settled restores
    refine ⟨t.2, by simp [roundTrip, run, trip, undone], restoresT, ?_, ?_⟩
    · have grown := undoable.size.2
      simp only [List.length_cons]
      omega
    · rw [startedT, started, undoable.started]
      simp

/-- The king's pawn opens, the queen's pawn answers and the king's pawn takes it: the line
plays through the standard board and is taken back to it. -/
theorem restores_roundTrip_capture :
    let line := ([(9, 12, 28), (23, 51, 35), (9, 28, 35)] : List (Nat × Nat × Nat)).map fun x =>
      knownLegal Board.standard ⟨x.1⟩ (Square.ofNat x.2.1) (Square.ofNat x.2.2) none none
    Board.standard.Coherent ∧ Board.standard.Settled ∧ PlaysThrough Board.standard line ∧
      ∃ t, roundTrip line Board.standard = .ok t ∧ Board.standard.Restores t ∧
        t.pieces.size ≤ Board.standard.pieces.size + line.length ∧
        t.started = (Board.standard.started || !line.isEmpty) := by
  intro line
  have plays : PlaysThrough Board.standard line := by decide +kernel
  exact ⟨Board.WellFormed.standard.toCoherent, Board.Settled.standard, plays,
    restores_roundTrip Board.WellFormed.standard.toCoherent Board.Settled.standard plays⟩

end Move

end Chess
