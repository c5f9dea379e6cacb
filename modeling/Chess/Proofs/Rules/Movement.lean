import Chess.Proofs.Rules.Legal

namespace Chess

/-! The raw reach of a piece of the side to move is the movement rules. Its stepping pieces
reach every step square not held by a friend, its sliders run each ray up to and including the
first piece unless that piece is a friend, and its pawns push, double-push, take and take en
passant as the rules say. Main statement: on a coherent board a piece of the side to move
reaches exactly the squares `Board.Reaches` names (`contains_rawReach_iff`). -/

namespace Board

variable {b : Board} {c : Color} {t : Square} {o : Square}

theorem openTo_iff : b.OpenTo t ↔ ∀ q, b.pieceAt? t = some q → q.color ≠ b.side := by
  simp only [OpenTo, pieceOn, pieceAt?, Option.map_eq_some_iff, ne_eq]
  constructor
  · rintro open_ q ⟨id, occupied, rfl⟩ friend
    exact open_ (b.piece id).kind ⟨id, occupied, by rw [friend]⟩
  · rintro open_ k ⟨id, occupied, same⟩
    exact open_ (b.piece id) ⟨id, occupied, rfl⟩ (Prod.mk.inj same).2

theorem contains_stepReach_iff_open (steps : SquareSet) :
    (b.stepReach steps c).targets.contains t = true ↔
      steps.contains t = true ∧ ∀ q, b.pieceAt? t = some q → q.color ≠ c := by
  unfold stepReach
  rw [List.foldl_iff_or_exists (fun r : Reach => r.targets.contains t = true)
    (fun s => t = s ∧ ∀ q, b.pieceAt? s = some q → q.color ≠ c) fun r s => ?_]
  · simp only [SquareSet.contains_empty, Bool.false_eq_true, false_or, SquareSet.mem_toList]
    constructor
    · rintro ⟨s, step, rfl, open_⟩
      exact ⟨step, open_⟩
    · rintro ⟨step, open_⟩
      exact ⟨t, step, rfl, open_⟩
  · cases held : b.pieceAt? s with
    | none => simp
    | some p =>
      by_cases friend : p.color = c
      · simp only [friend, if_true]
        constructor
        · exact Or.inl
        · rintro (kept | ⟨-, open_⟩)
          · exact kept
          · exact absurd friend (open_ p rfl)
      · simp [friend]

theorem contains_rayReach_of_contains (ownTurn : Bool) :
    ∀ (ray : List Square) (r : Reach), r.targets.contains t = true →
      (b.rayReach c ownTurn ray r).targets.contains t = true
  | [], _, kept => kept
  | s :: rest, r, kept => by
    unfold rayReach
    split
    · exact contains_rayReach_of_contains ownTurn rest _ (by simp [kept])
    · split
      · exact kept
      · dsimp only
        split
        · simp [kept]
        · exact contains_rayReach_of_contains ownTurn rest _ (by simp [kept])

theorem contains_rayReach_own_iff :
    ∀ (ray : List Square) (r : Reach), (b.rayReach c true ray r).targets.contains t = true ↔
      r.targets.contains t = true ∨ (t ∈ ray ∧ (∀ u ∈ ray.takeWhile (· ≠ t), b.occupant u = none) ∧
        ∀ q, b.pieceAt? t = some q → q.color ≠ c)
  | [], r => by simp [rayReach]
  | s :: rest, r => by
    by_cases here : s = t
    · rw [here]
      have start : (t :: rest).takeWhile (· ≠ t) = [] := by simp
      simp only [start, List.mem_cons, true_or, List.not_mem_nil, false_imp_iff, imp_true_iff,
        true_and]
      unfold rayReach
      cases held : b.pieceAt? t with
      | none =>
        simp only [reduceCtorEq, false_imp_iff, imp_true_iff, or_true, iff_true]
        exact contains_rayReach_of_contains true rest _ (by simp)
      | some p =>
        by_cases friend : p.color = c
        · simp only [friend, if_true]
          constructor
          · exact Or.inl
          · rintro (kept | open_)
            · exact kept
            · exact absurd friend (open_ p rfl)
        · simp [friend]
    · have before : (s :: rest).takeWhile (· ≠ t) = s :: rest.takeWhile (· ≠ t) := by
        simp [here]
      rw [before]
      unfold rayReach
      cases held : b.pieceAt? s with
      | none =>
        have empty := (pieceAt?_eq_none_iff s).mp held
        rw [contains_rayReach_own_iff rest]
        simp [empty, Ne.symm here]
      | some p =>
        have occupied : b.occupant s ≠ none := fun empty => by
          rw [(pieceAt?_eq_none_iff s).mpr empty] at held
          cases held
        dsimp only
        split <;> simp [occupied, Ne.symm here]

theorem contains_slideReach_own_iff (turn : b.side = c) (dirs : List Direction) :
    (b.slideReach o c dirs).targets.contains t = true ↔
      (∃ d ∈ dirs, o.Sees d b.occupancy t) ∧ ∀ q, b.pieceAt? t = some q → q.color ≠ c := by
  unfold slideReach
  rw [List.foldl_iff_or_exists (fun r : Reach => r.targets.contains t = true)
    (fun d => t ∈ o.ray d ∧ (∀ u ∈ (o.ray d).takeWhile (· ≠ t), b.occupant u = none) ∧
      ∀ q, b.pieceAt? t = some q → q.color ≠ c) fun r d => by
        rw [show decide (b.side = c) = true from decide_eq_true turn]
        exact contains_rayReach_own_iff _ r]
  simp only [Square.sees_iff_ray, contains_occupancy, Option.isSome_eq_false_iff,
    Option.isNone_iff_eq_none, SquareSet.contains_empty, Bool.false_eq_true, false_or]
  constructor
  · rintro ⟨d, dir, onRay, clear, open_⟩
    exact ⟨⟨d, dir, onRay, fun u before => by simpa using clear u before⟩, open_⟩
  · rintro ⟨⟨d, dir, onRay, clear⟩, open_⟩
    exact ⟨d, dir, onRay, fun u before => by simpa using clear u before, open_⟩

theorem List.foldl_of_keeps {α β : Type} {P : β → Prop} {f : β → α → β}
    (keep : ∀ r a, P r → P (f r a)) {l : List α} {start : β}
    (holds : P start ∨ ∃ a ∈ l, ∀ r, P (f r a)) : P (l.foldl f start) := by
  rcases holds with first | ⟨a, member, made⟩
  · exact List.foldl_keeps l (fun r a _ => keep r a) start first
  · exact List.foldl_of_mem keep made member start

theorem contains_pawnReach_of_pawnReaches (reaches : PawnReaches b o c t) :
    (b.pawnReach o c).targets.contains t = true := by
  unfold pawnReach
  refine List.foldl_of_keeps (P := fun r : Reach => r.targets.contains t = true) (fun r s kept => ?_) ?_
  · split
    · split <;> simp [kept]
    · split <;> simp [kept]
  cases reaches with
  | push ahead empty =>
    refine Or.inl ?_
    simp only [ahead, empty, Option.isSome_none, Bool.false_eq_true, if_false]
    split
    · split
      · split <;> simp
      · simp
    · simp
  | double ahead empty start beyond emptyTwo =>
    refine Or.inl ?_
    simp [ahead, empty, start, beyond, emptyTwo]
  | take diagonal held enemy =>
    refine Or.inr ⟨t, (SquareSet.mem_toList _ _).mpr diagonal, fun r => ?_⟩
    simp [held, enemy]
  | passant diagonal empty open_ =>
    refine Or.inr ⟨t, (SquareSet.mem_toList _ _).mpr diagonal, fun r => ?_⟩
    have taken : (!decide (b.side = c) || (b.enPassantVictim? o t c).isSome) = true := by
      simpa only [Bool.or_eq_true, Bool.not_eq_true', decide_eq_false_iff_not] using open_
    simp only [empty]
    rw [if_pos (by simpa only [Bool.or_eq_true] using taken)]
    simp

theorem isSome_enPassantVictim?_iff :
    (b.enPassantVictim? o t b.side).isSome = true ↔ b.enPassant = some t.file ∧
      o.rank = Rank.enPassantFrom b.side ∧
      b.pieceOn (Square.make t.file o.rank) = some (.pawn, b.side.opponent) := by
  unfold enPassantVictim?
  by_cases rank : o.rank = Rank.enPassantFrom b.side
  · by_cases file : b.enPassant = some t.file
    · simp only [rank, file, ne_eq, not_true_eq_false, or_self, if_false, true_and]
      cases occupied : b.occupant (Square.make t.file (Rank.enPassantFrom b.side)) with
      | none => simp [pieceAt?, pieceOn, occupied]
      | some id =>
        by_cases pawn : (b.piece id).kind = .pawn
        · simp [pieceAt?, pieceOn, occupied, pawn, Color.eq_opponent_iff_ne]
        · simp [pieceAt?, pieceOn, occupied, pawn]
    · simp [file]
  · simp [rank]

theorem pawnReaches_iff : PawnReaches b o b.side t ↔ b.Reaches o .pawn t := by
  constructor
  · intro reaches
    cases reaches with
    | push ahead empty => exact .push ahead (pieceOn_eq_none_iff.mpr empty)
    | double ahead empty start beyond emptyTwo =>
      exact .double start ahead beyond (pieceOn_eq_none_iff.mpr empty) (pieceOn_eq_none_iff.mpr emptyTwo)
    | take diagonal held enemy =>
      exact .take diagonal (pieceOn_eq_some_iff.mpr ⟨_, held, rfl, Color.eq_opponent_iff_ne.mpr enemy⟩)
    | passant diagonal empty open_ =>
      obtain ⟨file, rank, beside⟩ :=
        isSome_enPassantVictim?_iff.mp (open_.resolve_left fun turn => turn rfl)
      exact .passant diagonal file rank (pieceOn_eq_none_iff.mpr ((pieceAt?_eq_none_iff t).mp empty))
        beside
  · intro reaches
    cases reaches with
    | slide dir => simp [PieceKind.directions] at dir
    | push ahead empty => exact .push ahead (pieceOn_eq_none_iff.mp empty)
    | double start ahead beyond emptyOne empty =>
      exact .double ahead (pieceOn_eq_none_iff.mp emptyOne) start beyond (pieceOn_eq_none_iff.mp empty)
    | take diagonal enemy =>
      obtain ⟨q, held, -, color⟩ := pieceOn_eq_some_iff.mp enemy
      exact .take diagonal held (Color.eq_opponent_iff_ne.mp color)
    | passant diagonal file rank empty beside =>
      exact .passant diagonal ((pieceAt?_eq_none_iff t).mpr (pieceOn_eq_none_iff.mp empty))
        (Or.inr (isSome_enPassantVictim?_iff.mpr ⟨file, rank, beside⟩))

theorem contains_rawReach_iff (coherent : b.Coherent) {id : PieceId} (member : id ∈ b.roster b.side)
    (square : (b.piece id).square = some o) :
    (b.rawReach (b.piece id)).targets.contains t = true ↔ b.Reaches o (b.piece id).kind t := by
  have color := coherent.color_of_roster member
  have standing := (coherent.square_captured_of_occupant (coherent.occupant_of_square square)).2
  have slides (k : PieceKind) (slider : k.slides = true) :
      (b.slideReach o b.side k.directions).targets.contains t = true ↔ b.Reaches o k t := by
    rw [contains_slideReach_own_iff rfl, ← openTo_iff]
    constructor
    · rintro ⟨⟨d, dir, sees⟩, open_⟩
      exact .slide dir sees open_
    · intro reaches
      cases reaches with
      | slide dir sees open_ => exact ⟨⟨_, dir, sees⟩, open_⟩
      | _ => simp [PieceKind.slides] at slider
  simp only [rawReach, square, standing, Bool.false_eq_true, if_false, color]
  cases kind : (b.piece id).kind <;> dsimp only
  case pawn => exact ⟨fun raw => pawnReaches_iff.mp (pawnReaches_of_pawnReach raw),
    fun reaches => contains_pawnReach_of_pawnReaches (pawnReaches_iff.mpr reaches)⟩
  case knight =>
    rw [contains_stepReach_iff_open, ← openTo_iff]
    constructor
    · rintro ⟨step, open_⟩
      exact .leap step open_
    · intro reaches
      cases reaches with
      | slide dir => simp [PieceKind.directions] at dir
      | leap step open_ => exact ⟨step, open_⟩
  case king =>
    rw [contains_stepReach_iff_open, ← openTo_iff]
    constructor
    · rintro ⟨step, open_⟩
      exact .step step open_
    · intro reaches
      cases reaches with
      | slide dir => simp [PieceKind.directions] at dir
      | step step open_ => exact ⟨step, open_⟩
  all_goals exact slides _ rfl

end Board

end Chess
