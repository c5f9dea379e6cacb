import Chess.Proofs.Geometry.Blocking
import Chess.Proofs.Board.Threats
import Chess.Proofs.Move.Rules

namespace Chess

/-! Attacks by the rules, read on a placement: the kind and colour of what stands on each
square. A piece attacks the squares it could capture on: a slider along its directions up to
the first occupied square, a knight, a king or a pawn by its steps. A square is attacked by a
colour when one of its pieces attacks it, and a colour's king is safe when no square holding it
is attacked by the other colour. Main statements: an attack through a line depends on the
squares strictly between only (`attacks_congr`); the board's attack test, on any occupancy, is
attack on a placement that occupies it and shows there the board's pieces of the attacking
colour (`isAttackedWith_iff_attacked`). -/

theorem Color.eq_opponent_iff_ne {c d : Color} : c = d.opponent ↔ c ≠ d := by
  cases c <;> cases d <;> decide

abbrev Placement := Square → Option (PieceKind × Color)

/-- A piece of kind `k` and colour `c` on `o` attacks `t` when the squares of `occ` are
occupied: a slider along one of its directions with nothing of `occ` strictly between, a knight
or a king by one of its steps, a pawn by a step diagonally forward. -/
def PieceKind.Attacks (k : PieceKind) (c : Color) (occ : SquareSet) (o t : Square) : Prop :=
  (∃ d ∈ k.directions, o.Sees d occ t) ∨ (k = .knight ∧ o.knightSteps.contains t = true) ∨
    (k = .king ∧ o.kingSteps.contains t = true) ∨ (k = .pawn ∧ (o.pawnAttacks c).contains t = true)

namespace Placement

def occupancy (pl : Placement) : SquareSet :=
  SquareSet.ofList (Square.all.filter fun s => (pl s).isSome)

def Attacked (pl : Placement) (s : Square) (c : Color) : Prop :=
  ∃ t k, pl t = some (k, c) ∧ k.Attacks c pl.occupancy t s

def KingSafe (pl : Placement) (c : Color) : Prop :=
  ∀ s, pl s = some (.king, c) → ¬pl.Attacked s c.opponent

@[simp] theorem contains_occupancy (pl : Placement) (s : Square) :
    pl.occupancy.contains s = (pl s).isSome := by
  have listed : s ∈ Square.all := List.mem_map.mpr ⟨s.index, List.mem_finRange _, rfl⟩
  simp [occupancy, listed]

theorem kingSafe_iff_of_king {pl : Placement} {c : Color} {κ : Square}
    (king : pl κ = some (.king, c)) (lone : ∀ s, pl s = some (.king, c) → s = κ) :
    pl.KingSafe c ↔ ¬pl.Attacked κ c.opponent := by
  constructor
  · exact fun safe => safe κ king
  · intro calm s held
    rw [lone s held]
    exact calm

end Placement

namespace PieceKind

variable {k : PieceKind} {c : Color} {occ occ' : SquareSet} {o t u : Square}

theorem attacks_iff_of_slides (slides : k.slides = true) :
    k.Attacks c occ o t ↔ ∃ d ∈ k.directions, o.Sees d occ t := by
  cases k <;> simp_all [Attacks, PieceKind.slides]

theorem attacks_iff_of_steps (steps : k.slides = false) : k.Attacks c occ o t ↔ k.Attacks c occ' o t := by
  cases k <;> simp_all [Attacks, directions, slides]

theorem attacks_congr (agree : ∀ u, o.StrictlyBetween t u → occ.contains u = occ'.contains u) :
    k.Attacks c occ o t ↔ k.Attacks c occ' o t := by
  simp only [Attacks, Square.sees_congr agree]

theorem Attacks.mono (attacks : k.Attacks c occ o t)
    (within : ∀ u, o.StrictlyBetween t u → occ'.contains u = true → occ.contains u = true) :
    k.Attacks c occ' o t := by
  rcases attacks with ⟨d, dir, sees⟩ | step
  · refine Or.inl ⟨d, dir, (Square.sees_iff_strictlyBetween).mpr ⟨?_, fun u between => ?_⟩⟩
    · exact ((Square.sees_iff_strictlyBetween).mp sees).1
    · cases held : occ'.contains u with
      | false => rfl
      | true =>
        have clear := ((Square.sees_iff_strictlyBetween).mp sees).2 u between
        rw [within u between held] at clear
        cases clear
  · exact Or.inr step

theorem Attacks.clear (attacks : k.Attacks c occ o t) (slides : k.slides = true)
    (between : o.StrictlyBetween t u) : occ.contains u = false := by
  obtain ⟨d, -, sees⟩ := (attacks_iff_of_slides slides).mp attacks
  exact (Square.sees_iff_strictlyBetween.mp sees).2 u between

theorem not_attacks_self (k : PieceKind) (c : Color) (occ : SquareSet) (o : Square) :
    ¬k.Attacks c occ o o := by
  have noStep (offsets : List (Int × Int)) (moving : ∀ step ∈ offsets, step.1 ≠ 0 ∨ step.2 ≠ 0) :
      (o.stepsBy offsets).contains o = false := by
    cases here : (o.stepsBy offsets).contains o with
    | false => rfl
    | true =>
      obtain ⟨step, listed, lands⟩ := Square.contains_stepsBy_iff.mp here
      obtain ⟨file, rank⟩ := Square.offset?_eq_some_iff.mp lands
      rcases moving step listed with still | still <;> omega
  rintro (⟨d, -, n, positive, ends, -⟩ | ⟨-, step⟩ | ⟨-, step⟩ | ⟨-, step⟩)
  · exact absurd (Square.along_inj ends (Square.along_zero o d)) (by omega)
  · rw [Square.knightSteps, noStep _ (by decide)] at step
    cases step
  · rw [Square.kingSteps, noStep _ (by decide)] at step
    cases step
  · rw [Square.pawnAttacks, noStep _ (by cases c <;> decide)] at step
    cases step

end PieceKind

theorem Piece.bears_iff_attacks (q : Piece) (occ : SquareSet) (o t : Square) :
    q.Bears occ o t ↔ q.kind.Attacks q.color occ o t := Iff.rfl

namespace Board

variable {b : Board} {c : Color} {s : Square} {k : PieceKind}

theorem pieceOn_eq_none_iff : b.pieceOn s = none ↔ b.occupant s = none := by
  simp [pieceOn]

theorem pieceOn_eq_some_iff :
    b.pieceOn s = some (k, c) ↔ ∃ q, b.pieceAt? s = some q ∧ q.kind = k ∧ q.color = c := by
  simp [pieceOn, pieceAt?]

@[simp] theorem occupancy_pieceOn : Placement.occupancy b.pieceOn = b.occupancy :=
  SquareSet.ext fun u => by simp [contains_occupancy, pieceOn]

theorem attacksFrom_iff (p : Piece) (o t : Square) :
    b.attacksFrom p o t = true ↔ p.kind.Attacks p.color b.occupancy o t := by
  have slides (dirs : List Direction) :
      (dirs.any fun d => (o.ray d).contains t &&
        ((o.ray d).takeWhile (· ≠ t)).all fun u => (b.occupant u).isNone) = true ↔
        ∃ d ∈ dirs, o.Sees d b.occupancy t := by
    simp [Square.sees_iff_ray, contains_occupancy]
  unfold attacksFrom
  cases kind : p.kind <;> dsimp only
  case bishop | rook | queen =>
    rw [slides]
    simp [PieceKind.Attacks]
  all_goals simp [PieceKind.Attacks, PieceKind.directions]

theorem isAttackedWith_iff_attacked {pl : Placement} {occ : SquareSet}
    (occupancy : pl.occupancy = occ)
    (pieces : ∀ u k, pl u = some (k, c) ↔ occ.contains u = true ∧ b.pieceOn u = some (k, c))
    (s : Square) : b.isAttackedWith s c occ = true ↔ pl.Attacked s c := by
  rw [isAttackedWith_iff, Placement.Attacked, occupancy]
  constructor
  · rintro ⟨t, q, held, inOcc, rfl, bears⟩
    exact ⟨t, q.kind, (pieces t q.kind).mpr ⟨inOcc, pieceOn_eq_some_iff.mpr ⟨q, held, rfl, rfl⟩⟩,
      bears⟩
  · rintro ⟨t, k, at_, attacks⟩
    obtain ⟨inOcc, shown⟩ := (pieces t k).mp at_
    obtain ⟨q, held, rfl, rfl⟩ := pieceOn_eq_some_iff.mp shown
    exact ⟨t, q, held, inOcc, rfl, attacks⟩

end Board

end Chess
