import Chess.Proofs.Geometry.Ray

namespace Chess

/-! The line between two squares. Two distinct squares share a line when they share a file, a
rank or a diagonal. The line from one to the other goes by a unit step, the signs of the file
and rank distances, and takes as many steps as the larger of the two distances; the squares
strictly between are those its intermediate steps reach. Main statement: `between` is exactly
the set of those squares, and `lineTo?` gives a line exactly when the squares share one in an
allowed direction, listing the start, the squares between in order of distance and, when asked,
the end, never more than eight squares in all. -/

theorem Int.sign_cases (x : Int) :
    (0 < x ∧ x.sign = 1) ∨ (x = 0 ∧ x.sign = 0) ∨ (x < 0 ∧ x.sign = -1) := by
  rcases Int.lt_trichotomy 0 x with positive | rfl | negative
  · exact Or.inl ⟨positive, Int.sign_eq_one_of_pos positive⟩
  · exact Or.inr (Or.inl ⟨rfl, rfl⟩)
  · exact Or.inr (Or.inr ⟨negative, Int.sign_eq_neg_one_of_neg negative⟩)

theorem List.find?_eq_some_of_unique {α : Type} {p : α → Bool} {l : List α} {x : α}
    (member : x ∈ l) (holds : p x = true) (unique : ∀ y ∈ l, p y = true → y = x) :
    l.find? p = some x := by
  obtain ⟨y, found⟩ := Option.isSome_iff_exists.mp (List.find?_isSome.mpr ⟨x, member, holds⟩)
  rw [found, unique y (List.mem_of_find?_eq_some found) (List.find?_some found)]

namespace Direction

theorem mem_all (d : Direction) : d ∈ all := by
  cases d <;> decide

theorem delta_inj {d e : Direction} (same : d.delta = e.delta) : d = e := by
  cases d <;> cases e <;> simp_all [delta]

theorem exists_delta_eq {x y : Int} (smallX : x.natAbs ≤ 1) (smallY : y.natAbs ≤ 1)
    (moves : x ≠ 0 ∨ y ≠ 0) : ∃ d : Direction, d.delta = (x, y) := by
  have cases (z : Int) (small : z.natAbs ≤ 1) : z = -1 ∨ z = 0 ∨ z = 1 := by omega
  rcases cases x smallX with rfl | rfl | rfl <;> rcases cases y smallY with rfl | rfl | rfl
  · exact ⟨southWest, rfl⟩
  · exact ⟨west, rfl⟩
  · exact ⟨northWest, rfl⟩
  · exact ⟨south, rfl⟩
  · exact absurd moves (by simp)
  · exact ⟨north, rfl⟩
  · exact ⟨southEast, rfl⟩
  · exact ⟨east, rfl⟩
  · exact ⟨northEast, rfl⟩

end Direction

namespace Square

def fileDelta (a b : Square) : Int := (b.file.index.val : Int) - a.file.index.val

def rankDelta (a b : Square) : Int := (b.rank.index.val : Int) - a.rank.index.val

def Aligned (a b : Square) : Prop :=
  a ≠ b ∧ (a.fileDelta b = 0 ∨ a.rankDelta b = 0 ∨ (a.fileDelta b).natAbs = (a.rankDelta b).natAbs)

def heading (a b : Square) : Int × Int := ((a.fileDelta b).sign, (a.rankDelta b).sign)

def distance (a b : Square) : Nat := max (a.fileDelta b).natAbs (a.rankDelta b).natAbs

def StepsToward (a b s : Square) (k : Nat) : Prop :=
  (s.file.index.val : Int) = a.file.index.val + k * (a.heading b).1 ∧
    (s.rank.index.val : Int) = a.rank.index.val + k * (a.heading b).2

def StrictlyBetween (a b s : Square) : Prop :=
  a.Aligned b ∧ ∃ k, 0 < k ∧ k < a.distance b ∧ a.StepsToward b s k

variable {a b s : Square} {d : Direction}

theorem fileDelta_or_rankDelta_ne_zero (differ : a ≠ b) : a.fileDelta b ≠ 0 ∨ a.rankDelta b ≠ 0 := by
  by_contra still
  simp only [not_or, not_not, fileDelta, rankDelta] at still
  exact differ (eq_of_file_rank (by
    cases named : a.file
    cases named' : b.file
    simp_all [File.mk.injEq, Fin.ext_iff]
    omega) (by
    cases named : a.rank
    cases named' : b.rank
    simp_all [Rank.mk.injEq, Fin.ext_iff]
    omega))

theorem distance_pos (differ : a ≠ b) : 0 < a.distance b := by
  have := fileDelta_or_rankDelta_ne_zero differ
  simp only [distance]
  omega

theorem distance_le_seven (a b : Square) : a.distance b ≤ 7 := by
  have := a.file.index.isLt
  have := b.file.index.isLt
  have := a.rank.index.isLt
  have := b.rank.index.isLt
  simp only [distance, fileDelta, rankDelta]
  omega

theorem exists_delta_eq_heading (differ : a ≠ b) : ∃ d : Direction, d.delta = a.heading b := by
  have moves := fileDelta_or_rankDelta_ne_zero differ
  apply Direction.exists_delta_eq
  · rcases Int.sign_cases (a.fileDelta b) with ⟨-, sign⟩ | ⟨-, sign⟩ | ⟨-, sign⟩ <;> simp [sign]
  · rcases Int.sign_cases (a.rankDelta b) with ⟨-, sign⟩ | ⟨-, sign⟩ | ⟨-, sign⟩ <;> simp [sign]
  · simpa [Int.sign_eq_zero_iff_zero] using moves

theorem directionTo?_eq_some_iff : a.directionTo? b = some d ↔ a.Aligned b ∧ d.delta = a.heading b := by
  unfold directionTo?
  by_cases same : a = b
  · simp [same, Aligned]
  · have aligned : a.Aligned b ↔ ¬((b.file.index.val : Int) - a.file.index.val ≠ 0 ∧
        (b.rank.index.val : Int) - a.rank.index.val ≠ 0 ∧
          ((b.file.index.val : Int) - a.file.index.val).natAbs ≠
            ((b.rank.index.val : Int) - a.rank.index.val).natAbs) := by
      simp only [Aligned, fileDelta, rankDelta, same, ne_eq, not_false_eq_true, true_and]
      tauto
    simp only [if_neg same]
    split
    · rename_i misaligned
      simp [aligned, misaligned]
    · rename_i fits
      simp only [aligned.mpr fits, true_and]
      constructor
      · intro found
        simpa [heading, fileDelta, rankDelta] using List.find?_some found
      · intro heads
        refine List.find?_eq_some_of_unique (Direction.mem_all d)
          (by simpa [heading, fileDelta, rankDelta] using heads) fun e _ matched => ?_
        apply Direction.delta_inj
        simp only [decide_eq_true_eq] at matched
        rw [matched, heads]
        rfl

theorem stepsToward_iff_along (heads : d.delta = a.heading b) {k : Nat} :
    a.StepsToward b s k ↔ a.along d k = some s := by
  rw [along_eq_some_iff, heads]
  rfl

theorem along_distance (aligned : a.Aligned b) (heads : d.delta = a.heading b) :
    a.along d (a.distance b) = some b := by
  rw [← stepsToward_iff_along heads]
  obtain ⟨-, line⟩ := aligned
  simp only [StepsToward, heading, distance]
  rcases Int.sign_cases (a.fileDelta b) with ⟨_, fileSign⟩ | ⟨_, fileSign⟩ | ⟨_, fileSign⟩ <;>
    rcases Int.sign_cases (a.rankDelta b) with ⟨_, rankSign⟩ | ⟨_, rankSign⟩ | ⟨_, rankSign⟩ <;>
    simp only [fileSign, rankSign] <;> simp only [fileDelta, rankDelta] at * <;> omega

theorem contains_between_iff : (between a b).contains s = true ↔ a.StrictlyBetween b s := by
  unfold between
  cases found : a.directionTo? b with
  | none =>
    simp only [SquareSet.contains_empty, Bool.false_eq_true, false_iff]
    rintro ⟨aligned, -⟩
    obtain ⟨d, heads⟩ := exists_delta_eq_heading aligned.1
    rw [directionTo?_eq_some_iff.mpr ⟨aligned, heads⟩] at found
    cases found
  | some d =>
    obtain ⟨aligned, heads⟩ := directionTo?_eq_some_iff.mp found
    have positive := distance_pos aligned.1
    simp only [SquareSet.contains_ofList, decide_eq_true_eq,
      takeWhile_ray (along_distance aligned heads) positive, mem_take_ray_iff, StrictlyBetween,
      aligned, true_and, stepsToward_iff_along heads]
    constructor
    · rintro ⟨k, pos, within, step⟩
      exact ⟨k, pos, by omega, step⟩
    · rintro ⟨k, pos, within, step⟩
      exact ⟨k, pos, by omega, step⟩

theorem isSome_lineTo?_iff (dirs : List Direction) (inclusive : Bool) :
    (a.lineTo? b dirs inclusive).isSome ↔ a.Aligned b ∧ ∃ d ∈ dirs, d.delta = a.heading b := by
  unfold lineTo?
  cases found : a.directionTo? b with
  | none =>
    simp only [Option.isSome_none, Bool.false_eq_true, false_iff, not_and, not_exists]
    intro aligned d _ heads
    rw [directionTo?_eq_some_iff.mpr ⟨aligned, heads⟩] at found
    cases found
  | some d =>
    obtain ⟨aligned, heads⟩ := directionTo?_eq_some_iff.mp found
    simp only [aligned, true_and]
    constructor
    · intro listed
      split at listed
      · rename_i allowed
        exact ⟨d, List.contains_iff_mem.mp allowed, heads⟩
      · cases listed
    · rintro ⟨e, allowed, heads'⟩
      cases Direction.delta_inj (heads'.trans heads.symm)
      simp [allowed]

theorem lineTo?_eq_some {dirs : List Direction} {inclusive : Bool} {l : List Square}
    (found : a.lineTo? b dirs inclusive = some l) :
    ∃ inner, l = a :: inner ++ (if inclusive then [b] else []) ∧ inner.length + 1 = a.distance b ∧
      (∀ i (h : i < inner.length), a.StepsToward b inner[i] (i + 1)) ∧ l.length ≤ 8 := by
  unfold lineTo? at found
  cases direction : a.directionTo? b with
  | none => simp [direction] at found
  | some d =>
    obtain ⟨aligned, heads⟩ := directionTo?_eq_some_iff.mp direction
    have positive := distance_pos aligned.1
    have far := distance_le_seven a b
    have ends := along_distance aligned heads
    simp only [direction] at found
    split at found
    · cases found
      have inner := takeWhile_ray ends positive
      have long : a.distance b - 1 ≤ (a.ray d).length := by
        have last : (a.ray d)[a.distance b - 1]? = some b := by
          rw [getElem?_ray, Nat.sub_add_cancel positive, ends]
        have := (List.getElem?_eq_some_iff.mp last).1
        omega
      have length : ((a.ray d).take (a.distance b - 1)).length + 1 = a.distance b := by
        rw [List.length_take, Nat.min_eq_left long]
        omega
      refine ⟨_, rfl, by rw [inner, length], fun i h => ?_, ?_⟩
      · rw [stepsToward_iff_along heads, ← getElem?_ray]
        simp only [inner, List.getElem_take] at h ⊢
        exact List.getElem?_eq_getElem _
      · rw [inner]
        cases inclusive <;> simp <;> omega
    · cases found

/-- The squares between two squares and the lines between them are exact: `between` holds the
squares strictly between aligned squares and nothing otherwise; `lineTo?` gives a line exactly
when the squares are aligned and the direction from one to the other is allowed, and the line
is the start, the squares strictly between in order of distance from it, and the end when
asked, at most eight squares. -/
theorem lines_between_squares_are_exact (a b : Square) :
    (∀ s, (between a b).contains s = true ↔ a.StrictlyBetween b s) ∧
      (¬a.Aligned b → between a b = SquareSet.empty) ∧
      ∀ (dirs : List Direction) (inclusive : Bool),
        ((a.lineTo? b dirs inclusive).isSome ↔ a.Aligned b ∧ ∃ d ∈ dirs, d.delta = a.heading b) ∧
        ∀ l, a.lineTo? b dirs inclusive = some l →
          ∃ inner, l = a :: inner ++ (if inclusive then [b] else []) ∧
            inner.length + 1 = a.distance b ∧
            (∀ i (h : i < inner.length), a.StepsToward b inner[i] (i + 1)) ∧ l.length ≤ 8 := by
  refine ⟨fun s => contains_between_iff, fun misaligned => ?_,
    fun dirs inclusive => ⟨isSome_lineTo?_iff dirs inclusive, fun l found => lineTo?_eq_some found⟩⟩
  exact SquareSet.ext fun s => by
    rw [SquareSet.contains_empty, Bool.eq_false_iff]
    exact fun member => misaligned (contains_between_iff.mp member).1

end Square

end Chess
