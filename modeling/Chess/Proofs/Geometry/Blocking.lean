import Chess.Proofs.Geometry.Line

namespace Chess

/-! What blocks a line. The square `n` steps out from `a` in a direction is aligned with `a`,
lies in that direction and is `n` steps away, so the squares a slide passes over are the
squares strictly between its two ends, whichever direction it takes. Main statements: seeing
along a direction is having nothing of the occupancy strictly between (`sees_iff_strictlyBetween`),
so it depends on those squares only (`sees_congr`); two squares behind a third on lines toward
one end lie on one line, the nearer between the farther and the end (`strictlyBetween_nested`);
and squares a knight's step apart share no line (`not_aligned_of_knightSteps`). -/

namespace Square

variable {a b u v w : Square} {d : Direction} {n j : Nat} {occ occ' : SquareSet}

theorem aligned_of_along (ends : a.along d n = some b) (positive : 0 < n) :
    a.Aligned b ∧ d.delta = a.heading b ∧ a.distance b = n := by
  obtain ⟨file, rank⟩ := along_eq_some_iff.mp ends
  have sign : (n : Int).sign = 1 := Int.sign_eq_one_of_pos (by omega)
  have differ : a ≠ b := by
    rintro rfl
    cases d <;> simp only [Direction.delta] at file rank <;> omega
  refine ⟨⟨differ, ?_⟩, ?_, ?_⟩ <;> simp only [fileDelta, rankDelta, heading, distance] <;>
    cases d <;> simp only [Direction.delta] at file rank ⊢ <;> rw [file, rank] <;> simp [sign]

theorem eq_of_coords (sameFile : (a.file.index.val : Int) = b.file.index.val)
    (sameRank : (a.rank.index.val : Int) = b.rank.index.val) : a = b := by
  obtain ⟨⟨i, _⟩⟩ := a
  obtain ⟨⟨j, _⟩⟩ := b
  simp only [Square.file, Square.rank] at sameFile sameRank
  congr
  omega

theorem along_sub (ends : a.along d n = some b) (found : a.along d j = some u) (le : j ≤ n) :
    u.along d (n - j) = some b := by
  obtain ⟨file, rank⟩ := along_eq_some_iff.mp ends
  obtain ⟨file', rank'⟩ := along_eq_some_iff.mp found
  rw [along_eq_some_iff, Nat.cast_sub le]
  constructor <;> linarith

theorem strictlyBetween_iff_along (ends : a.along d n = some b) (positive : 0 < n) :
    a.StrictlyBetween b u ↔ ∃ j, 0 < j ∧ j < n ∧ a.along d j = some u := by
  obtain ⟨aligned, heads, far⟩ := aligned_of_along ends positive
  simp only [StrictlyBetween, aligned, true_and, far, stepsToward_iff_along heads]

theorem exists_along_of_aligned (aligned : a.Aligned b) :
    ∃ d, a.along d (a.distance b) = some b ∧ 0 < a.distance b := by
  obtain ⟨d, heads⟩ := exists_delta_eq_heading aligned.1
  exact ⟨d, along_distance aligned heads, distance_pos aligned.1⟩

theorem along_of_strictlyBetween (between : a.StrictlyBetween b u) :
    ∃ d m, 0 < m ∧ u.along d m = some b := by
  obtain ⟨d, ends, positive⟩ := exists_along_of_aligned between.1
  obtain ⟨j, low, high, found⟩ := (strictlyBetween_iff_along ends positive).mp between
  exact ⟨d, a.distance b - j, by omega, along_sub ends found high.le⟩

theorem not_aligned_of_knightSteps (step : u.knightSteps.contains b = true) : ¬u.Aligned b := by
  obtain ⟨offset, listed, lands⟩ := contains_stepsBy_iff.mp step
  obtain ⟨file, rank⟩ := offset?_eq_some_iff.mp lands
  rintro ⟨-, line⟩
  simp only [fileDelta, rankDelta, file, rank] at line
  simp only [List.mem_cons, List.not_mem_nil, or_false] at listed
  rcases listed with rfl | rfl | rfl | rfl | rfl | rfl | rfl | rfl <;> simp at line

theorem not_strictlyBetween_of_knightSteps (step : u.knightSteps.contains b = true) :
    ¬a.StrictlyBetween b u := by
  intro between
  obtain ⟨d, m, positive, ends⟩ := along_of_strictlyBetween between
  exact not_aligned_of_knightSteps step (aligned_of_along ends positive).1

theorem strictlyBetween_nested (first : v.StrictlyBetween b u) (second : w.StrictlyBetween b u)
    (differ : v ≠ w) : w.StrictlyBetween b v ∨ v.StrictlyBetween b w := by
  obtain ⟨dv, endsV, posV⟩ := exists_along_of_aligned first.1
  obtain ⟨dw, endsW, posW⟩ := exists_along_of_aligned second.1
  obtain ⟨jv, lowV, highV, foundV⟩ := (strictlyBetween_iff_along endsV posV).mp first
  obtain ⟨jw, lowW, highW, foundW⟩ := (strictlyBetween_iff_along endsW posW).mp second
  obtain ⟨-, headsV, -⟩ := aligned_of_along (along_sub endsV foundV highV.le) (by omega)
  obtain ⟨-, headsW, -⟩ := aligned_of_along (along_sub endsW foundW highW.le) (by omega)
  cases Direction.delta_inj (headsV.trans headsW.symm)
  obtain ⟨fileV, rankV⟩ := along_eq_some_iff.mp endsV
  obtain ⟨fileW, rankW⟩ := along_eq_some_iff.mp endsW
  rcases Nat.lt_trichotomy (v.distance b) (w.distance b) with nearer | same | farther
  · left
    rw [strictlyBetween_iff_along endsW posW]
    refine ⟨w.distance b - v.distance b, by omega, by omega, ?_⟩
    rw [along_eq_some_iff, Nat.cast_sub nearer.le]
    constructor <;> linarith
  · exact absurd (eq_of_coords (by rw [same] at fileV; linarith) (by rw [same] at rankV; linarith))
      differ
  · right
    rw [strictlyBetween_iff_along endsV posV]
    refine ⟨v.distance b - w.distance b, by omega, by omega, ?_⟩
    rw [along_eq_some_iff, Nat.cast_sub farther.le]
    constructor <;> linarith

theorem sees_iff_strictlyBetween :
    a.Sees d occ b ↔ b ∈ a.ray d ∧ ∀ u, a.StrictlyBetween b u → occ.contains u = false := by
  rw [mem_ray_iff]
  constructor
  · rintro ⟨n, positive, ends, clear⟩
    refine ⟨⟨n, positive, ends⟩, fun u between => ?_⟩
    obtain ⟨j, low, high, found⟩ := (strictlyBetween_iff_along ends positive).mp between
    exact clear j u low high found
  · rintro ⟨⟨n, positive, ends⟩, clear⟩
    exact ⟨n, positive, ends, fun j u low high found =>
      clear u ((strictlyBetween_iff_along ends positive).mpr ⟨j, low, high, found⟩)⟩

theorem sees_congr (agree : ∀ u, a.StrictlyBetween b u → occ.contains u = occ'.contains u) :
    a.Sees d occ b ↔ a.Sees d occ' b := by
  rw [sees_iff_strictlyBetween, sees_iff_strictlyBetween]
  refine and_congr_right fun _ => forall_congr' fun u => ?_
  exact imp_congr_right fun between => by rw [agree u between]

end Square

end Chess
