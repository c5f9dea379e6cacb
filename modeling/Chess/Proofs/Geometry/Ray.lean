import Chess.Proofs.Board.Targets

namespace Chess

/-! Rays across the board. The square `k` steps from `s` in a direction is `s` offset by `k`
times the direction's file and rank steps, when that lands on the board, and the ray from `s`
lists these squares for `k = 1, 2, …` up to the edge. A line that leaves the board does not
come back, and no line on it is longer than seven steps, so the seven steps the ray is given
always reach the edge. Walking a line backward meets the same squares: the steps of knights and
kings, a pawn's captures against the other side's, and the squares of a ray up to a point are
all symmetric. -/

theorem List.takeWhile_ne_of_getElem? {α : Type} [DecidableEq α] :
    ∀ {l : List α} {m : Nat} {t : α}, l[m]? = some t → (∀ i < m, l[i]? ≠ some t) →
      l.takeWhile (· ≠ t) = l.take m
  | [], _, _, found, _ => by simp at found
  | x :: l, 0, t, found, _ => by
    simp only [List.getElem?_cons_zero, Option.some.injEq] at found
    subst found
    simp
  | x :: l, m + 1, t, found, before => by
    have differ : x ≠ t := fun same => before 0 (by omega) (by simp [same])
    rw [List.takeWhile_cons, if_pos (by simpa using differ), List.take_succ_cons,
      List.takeWhile_ne_of_getElem? (by simpa using found)
        (fun i lt => by simpa using before (i + 1) (by omega))]

theorem List.find?_eq_some_iff_takeWhile {α : Type} [DecidableEq α] {p : α → Bool} {t : α} :
    ∀ {l : List α}, l.find? p = some t ↔ p t = true ∧ t ∈ l ∧ ∀ u ∈ l.takeWhile (· ≠ t), p u = false
  | [] => by simp
  | x :: l => by
    rw [List.find?_cons]
    by_cases here : x = t
    · subst here
      cases passes : p x
      · simpa [passes] using fun found => absurd (List.find?_some found) (by simp [passes])
      · simp
    · have rest := List.find?_eq_some_iff_takeWhile (p := p) (t := t) (l := l)
      rw [List.takeWhile_cons, if_pos (by simpa using here), List.forall_mem_cons]
      cases passes : p x
      · simp [rest, Ne.symm here]
      · simp [here]

namespace Direction

def opposite : Direction → Direction
  | north => south
  | northEast => southWest
  | east => west
  | southEast => northWest
  | south => north
  | southWest => northEast
  | west => east
  | northWest => southEast

@[simp] theorem delta_opposite (d : Direction) : d.opposite.delta = (-d.delta.1, -d.delta.2) := by
  cases d <;> rfl

@[simp] theorem opposite_opposite (d : Direction) : d.opposite.opposite = d := by
  cases d <;> rfl

theorem mem_directions_opposite (kind : PieceKind) (d : Direction) :
    d.opposite ∈ kind.directions ↔ d ∈ kind.directions := by
  cases kind <;> cases d <;> decide

end Direction

namespace Square

variable {s t u : Square} {d : Direction} {j k : Nat}

theorem offset?_eq_some_iff {df dr : Int} :
    s.offset? df dr = some t ↔ (t.file.index.val : Int) = s.file.index.val + df ∧
      (t.rank.index.val : Int) = s.rank.index.val + dr := by
  refine ⟨fun found => ⟨file_of_offset? found, rank_of_offset? found⟩, fun ⟨file, rank⟩ => ?_⟩
  have fileIn : 0 ≤ (s.file.index.val : Int) + df ∧ (s.file.index.val : Int) + df < 8 := by
    have := t.file.index.isLt
    omega
  have rankIn : 0 ≤ (s.rank.index.val : Int) + dr ∧ (s.rank.index.val : Int) + dr < 8 := by
    have := t.rank.index.isLt
    omega
  simp only [offset?, File.shift?, Rank.shift?, dif_pos fileIn, dif_pos rankIn, Option.pure_def,
    Option.bind_eq_bind, Option.bind_some, Option.some.injEq]
  apply eq_of_file_rank
  · rw [file_make]
    cases named : t.file with
    | mk i =>
      rw [named] at file
      congr 1
      apply Fin.ext
      simp only at file ⊢
      omega
  · rw [rank_make]
    cases named : t.rank with
    | mk i =>
      rw [named] at rank
      congr 1
      apply Fin.ext
      simp only at rank ⊢
      omega

theorem offset?_eq_none_iff {df dr : Int} :
    s.offset? df dr = none ↔ ¬(0 ≤ (s.file.index.val : Int) + df ∧
      (s.file.index.val : Int) + df < 8 ∧ 0 ≤ (s.rank.index.val : Int) + dr ∧
        (s.rank.index.val : Int) + dr < 8) := by
  constructor
  · rintro off ⟨fileLow, fileHigh, rankLow, rankHigh⟩
    let t := make ⟨⟨((s.file.index.val : Int) + df).toNat, by omega⟩⟩
      ⟨⟨((s.rank.index.val : Int) + dr).toNat, by omega⟩⟩
    have landed : s.offset? df dr = some t :=
      offset?_eq_some_iff.mpr ⟨by simp [t]; omega, by simp [t]; omega⟩
    rw [off] at landed
    cases landed
  · intro outside
    cases found : s.offset? df dr with
    | none => rfl
    | some t =>
      obtain ⟨file, rank⟩ := offset?_eq_some_iff.mp found
      have := t.file.index.isLt
      have := t.rank.index.isLt
      exact absurd ⟨by omega, by omega, by omega, by omega⟩ outside

theorem offset?_eq_some_comm {df dr : Int} : s.offset? df dr = some t ↔ t.offset? (-df) (-dr) = some s := by
  rw [offset?_eq_some_iff, offset?_eq_some_iff]
  omega

def along (s : Square) (d : Direction) (k : Nat) : Option Square :=
  s.offset? (k * d.delta.1) (k * d.delta.2)

theorem along_eq_some_iff : s.along d k = some t ↔
    (t.file.index.val : Int) = s.file.index.val + k * d.delta.1 ∧
      (t.rank.index.val : Int) = s.rank.index.val + k * d.delta.2 :=
  offset?_eq_some_iff

@[simp] theorem along_zero (s : Square) (d : Direction) : s.along d 0 = some s := by
  rw [along_eq_some_iff]
  simp

theorem toward?_of_along (found : s.along d k = some u) : u.toward? d = s.along d (k + 1) := by
  obtain ⟨file, rank⟩ := along_eq_some_iff.mp found
  refine Option.ext fun t => ?_
  rw [toward?, offset?_eq_some_iff, along_eq_some_iff, file, rank]
  push_cast
  constructor <;> rintro ⟨fileStep, rankStep⟩ <;> constructor <;> linarith

theorem along_eq_none_of_le (off : s.along d k = none) (le : k ≤ j) : s.along d j = none := by
  rw [along, offset?_eq_none_iff] at off ⊢
  intro inside
  apply off
  have := s.file.index.isLt
  have := s.rank.index.isLt
  cases d <;> simp only [Direction.delta] at inside ⊢ <;> omega

theorem along_eight (s : Square) (d : Direction) : s.along d 8 = none := by
  rw [along, offset?_eq_none_iff]
  have := s.file.index.isLt
  have := s.rank.index.isLt
  cases d <;> simp only [Direction.delta] <;> omega

theorem along_inj (first : s.along d j = some t) (second : s.along d k = some t) : j = k := by
  obtain ⟨file, rank⟩ := along_eq_some_iff.mp first
  obtain ⟨file', rank'⟩ := along_eq_some_iff.mp second
  cases d <;> simp only [Direction.delta] at file rank file' rank' <;> omega

theorem along_opposite_iff : s.along d k = some t ↔ t.along d.opposite k = some s := by
  rw [along_eq_some_iff, along_eq_some_iff, Direction.delta_opposite]
  constructor <;> rintro ⟨file, rank⟩ <;> constructor <;> linarith

theorem along_iff_of_le (ends : s.along d k = some t) (le : j ≤ k) :
    s.along d j = some u ↔ t.along d.opposite (k - j) = some u := by
  obtain ⟨file, rank⟩ := along_eq_some_iff.mp ends
  rw [along_eq_some_iff, along_eq_some_iff, Direction.delta_opposite, file, rank, Nat.cast_sub le]
  constructor <;> rintro ⟨fileStep, rankStep⟩ <;> constructor <;> linarith

theorem getElem?_ray_go : ∀ (n j : Nat) (u : Square), s.along d j = some u → 7 ≤ j + n →
    ∀ i, (ray.go d n u)[i]? = s.along d (j + 1 + i)
  | 0, j, u, _, far, i => by
    rw [ray.go, List.getElem?_nil]
    exact (along_eq_none_of_le (along_eight s d) (by omega)).symm
  | n + 1, j, u, found, far, i => by
    rw [ray.go, toward?_of_along found]
    cases next : s.along d (j + 1) with
    | none =>
      rw [List.getElem?_nil]
      exact (along_eq_none_of_le next (by omega)).symm
    | some u' =>
      cases i with
      | zero => simpa using next.symm
      | succ i =>
        rw [List.getElem?_cons_succ, getElem?_ray_go n (j + 1) u' next (by omega) i]
        congr 1
        omega

theorem getElem?_ray (s : Square) (d : Direction) (i : Nat) : (s.ray d)[i]? = s.along d (i + 1) := by
  rw [ray, getElem?_ray_go 7 0 s (along_zero s d) (by omega), Nat.zero_add, Nat.add_comm]

theorem mem_ray_iff : t ∈ s.ray d ↔ ∃ k, 0 < k ∧ s.along d k = some t := by
  rw [List.mem_iff_getElem?]
  constructor
  · rintro ⟨i, found⟩
    exact ⟨i + 1, by omega, by rw [← getElem?_ray, found]⟩
  · rintro ⟨k, positive, found⟩
    exact ⟨k - 1, by rw [getElem?_ray, Nat.sub_add_cancel positive, found]⟩

theorem mem_take_ray_iff {n : Nat} :
    t ∈ (s.ray d).take n ↔ ∃ k, 0 < k ∧ k ≤ n ∧ s.along d k = some t := by
  rw [List.mem_iff_getElem?]
  constructor
  · rintro ⟨i, found⟩
    rw [List.getElem?_take] at found
    split at found
    · exact ⟨i + 1, by omega, by omega, by rw [← getElem?_ray, found]⟩
    · cases found
  · rintro ⟨k, positive, within, found⟩
    refine ⟨k - 1, ?_⟩
    rw [List.getElem?_take, if_pos (by omega), getElem?_ray, Nat.sub_add_cancel positive, found]

theorem takeWhile_ray (ends : s.along d n = some t) (positive : 0 < n) :
    (s.ray d).takeWhile (· ≠ t) = (s.ray d).take (n - 1) := by
  apply List.takeWhile_ne_of_getElem?
  · rw [getElem?_ray, Nat.sub_add_cancel positive, ends]
  · intro i before found
    rw [getElem?_ray] at found
    have := along_inj found ends
    omega

def Sees (s : Square) (d : Direction) (occ : SquareSet) (t : Square) : Prop :=
  ∃ k, 0 < k ∧ s.along d k = some t ∧
    ∀ j u, 0 < j → j < k → s.along d j = some u → occ.contains u = false

theorem sees_iff_ray {occ : SquareSet} :
    s.Sees d occ t ↔ t ∈ s.ray d ∧ ∀ u ∈ (s.ray d).takeWhile (· ≠ t), occ.contains u = false := by
  constructor
  · rintro ⟨k, positive, ends, clear⟩
    refine ⟨mem_ray_iff.mpr ⟨k, positive, ends⟩, fun u before => ?_⟩
    rw [takeWhile_ray ends positive, mem_take_ray_iff] at before
    obtain ⟨j, low, high, found⟩ := before
    exact clear j u low (by omega) found
  · rintro ⟨member, clear⟩
    obtain ⟨k, positive, ends⟩ := mem_ray_iff.mp member
    refine ⟨k, positive, ends, fun j u low high found => clear u ?_⟩
    rw [takeWhile_ray ends positive, mem_take_ray_iff]
    exact ⟨j, low, by omega, found⟩

theorem sees_comm {occ : SquareSet} : s.Sees d occ t ↔ t.Sees d.opposite occ s := by
  suffices forward : ∀ {s t : Square} {d : Direction}, s.Sees d occ t → t.Sees d.opposite occ s by
    exact ⟨forward, fun back => by simpa using forward back⟩
  rintro s t d ⟨k, positive, ends, clear⟩
  refine ⟨k, positive, along_opposite_iff.mp ends, fun j u low high found => ?_⟩
  refine clear (k - j) u (by omega) (by omega) ?_
  rw [along_iff_of_le ends (by omega), Nat.sub_sub_self (by omega)]
  exact found

theorem find?_ray_eq_some_iff {occ : SquareSet} :
    (s.ray d).find? occ.contains = some t ↔ occ.contains t = true ∧ s.Sees d occ t := by
  rw [List.find?_eq_some_iff_takeWhile, sees_iff_ray]

theorem contains_stepsBy_iff {offsets : List (Int × Int)} :
    (s.stepsBy offsets).contains t = true ↔ ∃ o ∈ offsets, s.offset? o.1 o.2 = some t := by
  simp [stepsBy]

theorem contains_stepsBy_of_opposite {offsets back : List (Int × Int)}
    (opposite : ∀ o ∈ offsets, (-o.1, -o.2) ∈ back)
    (member : (s.stepsBy offsets).contains t = true) : (t.stepsBy back).contains s = true := by
  obtain ⟨o, listed, lands⟩ := contains_stepsBy_iff.mp member
  exact contains_stepsBy_iff.mpr ⟨_, opposite o listed, offset?_eq_some_comm.mp lands⟩

theorem knightSteps_contains_comm : s.knightSteps.contains t = t.knightSteps.contains s := by
  have closed : ∀ o ∈ [((1 : Int), (2 : Int)), (2, 1), (2, -1), (1, -2), (-1, -2), (-2, -1), (-2, 1),
      (-1, 2)], (-o.1, -o.2) ∈ [((1 : Int), (2 : Int)), (2, 1), (2, -1), (1, -2), (-1, -2),
        (-2, -1), (-2, 1), (-1, 2)] := by decide
  exact Bool.eq_iff_iff.mpr ⟨contains_stepsBy_of_opposite closed, contains_stepsBy_of_opposite closed⟩

theorem kingSteps_contains_comm : s.kingSteps.contains t = t.kingSteps.contains s := by
  have closed : ∀ o ∈ Direction.all.map Direction.delta, (-o.1, -o.2) ∈ Direction.all.map Direction.delta := by
    decide
  exact Bool.eq_iff_iff.mpr ⟨contains_stepsBy_of_opposite closed, contains_stepsBy_of_opposite closed⟩

theorem pawnAttacks_contains_comm (c : Color) :
    (s.pawnAttacks c).contains t = (t.pawnAttacks c.opponent).contains s := by
  have there : ∀ o ∈ [(-1, c.forward), (1, c.forward)], (-o.1, -o.2) ∈ [(-1, c.opponent.forward),
      (1, c.opponent.forward)] := by
    cases c <;> decide
  have back : ∀ o ∈ [(-1, c.opponent.forward), (1, c.opponent.forward)], (-o.1, -o.2) ∈
      [(-1, c.forward), (1, c.forward)] := by
    cases c <;> decide
  exact Bool.eq_iff_iff.mpr ⟨contains_stepsBy_of_opposite there, contains_stepsBy_of_opposite back⟩

end Square

end Chess
