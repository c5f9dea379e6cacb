import Chess.Board.Query

namespace Chess

/-! How `disambiguation` sets its flags, exactly. The rivals of a piece for a destination are
the other uncaptured pieces of its kind in the roster of its colour that stand on the board and
reach the destination. The file flag is up when no rival shares the piece's file. The rank flag
is up when no rival shares its rank and, if there are rivals at all, the first of them in roster
order shares its file: a first rival on another file drops the rank flag for good, so the flags
depend on the order of the roster once two rivals stand on different files. -/

namespace Board

/-- The square of a roster entry that is a rival of piece `id` for destination `t`: another
uncaptured piece of its kind whose targets hold `t`, standing on the board. -/
def rivalSquare? (b : Board) (id : PieceId) (t : Square) (other : PieceId) : Option Square :=
  let rival := b.piece other
  if other = id ∨ rival.kind ≠ (b.piece id).kind ∨ rival.captured then none
  else if rival.targets.contains t then rival.square else none

/-- The squares of the rivals of piece `id` for destination `t`, in the order of the roster of
its colour. -/
def rivalSquares (b : Board) (id : PieceId) (t : Square) : List Square :=
  (b.roster (b.piece id).color).toList.filterMap (b.rivalSquare? id t)

/-- The flags of a piece on `o` after one more rival, standing on `rs`: each drops when the
rival shares what it answers for, and the rank flag also drops when both would stay up. -/
def flagStep (o : Square) (flags : Bool × Bool) (rs : Square) : Bool × Bool :=
  let fileUnique := flags.1 && rs.file ≠ o.file
  let rankUnique := flags.2 && rs.rank ≠ o.rank
  if fileUnique && rankUnique then (fileUnique, false) else (fileUnique, rankUnique)

variable {o : Square}

theorem flagStep_fst (flags : Bool × Bool) (rs : Square) :
    (flagStep o flags rs).1 = (flags.1 && rs.file ≠ o.file) := by
  unfold flagStep
  dsimp only
  split <;> rfl

theorem flagStep_of_not_both {flags : Bool × Bool} (down : (flags.1 && flags.2) = false)
    (rs : Square) :
    ((flagStep o flags rs).1 && (flagStep o flags rs).2) = false ∧
      (flagStep o flags rs).2 = (flags.2 && rs.rank ≠ o.rank) := by
  obtain ⟨fu, ru⟩ := flags
  unfold flagStep
  cases fu <;> cases ru <;> simp_all

theorem flagStep_start (rs : Square) :
    flagStep o (true, true) rs =
      (decide (rs.file ≠ o.file), decide (rs.file = o.file) && decide (rs.rank ≠ o.rank)) := by
  unfold flagStep
  by_cases file : rs.file = o.file <;> by_cases rank : rs.rank = o.rank <;> simp [file, rank]

theorem foldl_flagStep_fst (rivals : List Square) (flags : Bool × Bool) :
    (rivals.foldl (flagStep o) flags).1 = (flags.1 && rivals.all (·.file ≠ o.file)) := by
  induction rivals generalizing flags with
  | nil => simp
  | cons rs rest ih => simp [ih, flagStep_fst, Bool.and_assoc]

theorem foldl_flagStep_snd_of_not_both (rivals : List Square) {flags : Bool × Bool}
    (down : (flags.1 && flags.2) = false) :
    (rivals.foldl (flagStep o) flags).2 = (flags.2 && rivals.all (·.rank ≠ o.rank)) := by
  induction rivals generalizing flags with
  | nil => simp
  | cons rs rest ih =>
    obtain ⟨stillDown, rank⟩ := flagStep_of_not_both (o := o) down rs
    rw [List.foldl_cons, ih stillDown, rank, List.all_cons, Bool.and_assoc]

theorem disambiguation_eq_foldl {b : Board} {id : PieceId} {t : Square}
    (at_ : (b.piece id).square = some o) :
    b.disambiguation id t = (b.rivalSquares id t).foldl (flagStep o) (true, true) := by
  unfold disambiguation rivalSquares
  simp only [at_]
  rw [List.foldl_filterMap, Array.foldl_toList]
  congr
  funext flags other
  obtain ⟨fu, ru⟩ := flags
  unfold rivalSquare?
  dsimp only
  by_cases excluded : other = id ∨ (b.piece other).kind ≠ (b.piece id).kind ∨
      (b.piece other).captured = true
  · simp only [excluded, if_true]
  · simp only [excluded, if_false]
    cases (b.piece other).square <;> cases (b.piece other).targets.contains t <;> rfl

/-- The flags of `disambiguation` for a piece on `o`: the file flag is up when no rival stands
on `o`'s file, the rank flag when no rival stands on `o`'s rank and the first rival, if any,
stands on `o`'s file. -/
theorem disambiguation_eq_rivals {b : Board} {id : PieceId} {t : Square}
    (at_ : (b.piece id).square = some o) :
    b.disambiguation id t =
      ((b.rivalSquares id t).all (·.file ≠ o.file),
        (b.rivalSquares id t).head?.all (·.file = o.file) &&
          (b.rivalSquares id t).all (·.rank ≠ o.rank)) := by
  rw [disambiguation_eq_foldl at_]
  cases b.rivalSquares id t with
  | nil => rfl
  | cons first rest =>
    have down : ((flagStep o (true, true) first).1 && (flagStep o (true, true) first).2) = false := by
      rw [flagStep_start]
      by_cases file : first.file = o.file <;> simp [file]
    ext
    · simp [foldl_flagStep_fst, flagStep_start]
    · rw [List.foldl_cons, foldl_flagStep_snd_of_not_both rest down, flagStep_start]
      simp [Bool.and_assoc]

def knightTrio : Board where
  pieces := #[
    { kind := .knight, color := .white, square := some (Square.ofNat 11),
      targets := SquareSet.single (Square.ofNat 28) },
    { kind := .knight, color := .white, square := some (Square.ofNat 18),
      targets := SquareSet.single (Square.ofNat 28) },
    { kind := .knight, color := .white, square := some (Square.ofNat 34),
      targets := SquareSet.single (Square.ofNat 28) }]
  whiteRoster := #[⟨0⟩, ⟨1⟩, ⟨2⟩]

/-- For the knight on c5 the first rival, on d2, stands on another file, so the rank flag is
down although only the knight on c3 shares the file and none shares the rank. -/
theorem disambiguation_eq_rivals_knightTrio :
    (knightTrio.piece ⟨2⟩).square = some (Square.ofNat 34) ∧
      knightTrio.disambiguation ⟨2⟩ (Square.ofNat 28) =
        ((knightTrio.rivalSquares ⟨2⟩ (Square.ofNat 28)).all
            (·.file ≠ (Square.ofNat 34).file),
          (knightTrio.rivalSquares ⟨2⟩ (Square.ofNat 28)).head?.all
              (·.file = (Square.ofNat 34).file) &&
            (knightTrio.rivalSquares ⟨2⟩ (Square.ofNat 28)).all
              (·.rank ≠ (Square.ofNat 34).rank)) :=
  ⟨rfl, disambiguation_eq_rivals rfl⟩

example : knightTrio.disambiguation ⟨2⟩ (Square.ofNat 28) = (false, false) := by decide

end Board

end Chess
