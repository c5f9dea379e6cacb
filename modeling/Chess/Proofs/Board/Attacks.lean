import Chess.Proofs.Board.Targets

namespace Chess

/-! Attacks by the movement rules, and what the raw reach makes of them. A piece attacks a
square by a knight's or king's step, by a pawn's diagonal step forward, or by a slide over empty
squares. The raw reach finds these through the squares it goes to, less the pawn's pushes: on a
square held by an enemy, with no other enemy king on the board to see through, the two agree. -/

theorem List.foldl_of_mem {α β : Type} {P : β → Prop} {f : β → α → β}
    (keep : ∀ r a, P r → P (f r a)) {a : α} (made : ∀ r, P (f r a)) :
    ∀ {l : List α}, a ∈ l → ∀ r, P (l.foldl f r)
  | _ :: l, member, r => by
    rw [List.foldl_cons]
    rcases List.mem_cons.mp member with rfl | later
    · exact List.foldl_keeps l (fun r' a' _ kept => keep r' a' kept) _ (made r)
    · exact List.foldl_of_mem keep made later _

namespace Board

/-- Whether a piece standing on `origin` attacks `target` by the movement rules, whatever stands
on `target`: by a knight's or a king's step, a pawn's step diagonally forward, or a slide along
one of its directions over empty squares. -/
def attacksFrom (b : Board) (p : Piece) (origin target : Square) : Bool :=
  match p.kind with
  | .pawn => (origin.pawnAttacks p.color).contains target
  | .knight => origin.knightSteps.contains target
  | .king => origin.kingSteps.contains target
  | kind => kind.directions.any fun d =>
      (origin.ray d).contains target &&
        ((origin.ray d).takeWhile (· ≠ target)).all fun s => (b.occupant s).isNone

variable {b : Board} {c : Color} {s : Square} {q : Piece}

theorem pieceAt?_eq_none_iff (s : Square) : b.pieceAt? s = none ↔ b.occupant s = none := by
  simp [pieceAt?]

/-! ### Steps -/

theorem quiet_stepReach (steps : SquareSet) : (b.stepReach steps c).quiet = SquareSet.empty := by
  unfold stepReach
  refine List.foldl_keeps (P := fun r : Reach => r.quiet = SquareSet.empty) _ (fun r t _ kept => ?_) _ rfl
  split
  · split <;> exact kept
  · exact kept

theorem contains_stepReach_iff (held : b.pieceAt? s = some q) (enemy : q.color ≠ c)
    (steps : SquareSet) : (b.stepReach steps c).targets.contains s = steps.contains s := by
  rw [Bool.eq_iff_iff]
  refine ⟨mem_steps_of_stepReach, fun step => ?_⟩
  unfold stepReach
  refine List.foldl_of_mem (P := fun r : Reach => r.targets.contains s = true) (fun r t kept => ?_)
    (fun r => ?_) ((SquareSet.mem_toList _ _).mpr step) _
  · split
    · split
      · exact kept
      · simp [kept]
    · simp [kept]
  · simp [held, enemy]

/-! ### Rays -/

theorem quiet_rayReach (ownTurn : Bool) :
    ∀ (ray : List Square) (r : Reach), (b.rayReach c ownTurn ray r).quiet = r.quiet
  | [], _ => rfl
  | t :: rest, r => by
    unfold rayReach
    split
    · exact quiet_rayReach ownTurn rest _
    · split
      · rfl
      · dsimp only
        split
        · rfl
        · exact quiet_rayReach ownTurn rest _

section Ray

variable (held : b.pieceAt? s = some q) (enemy : q.color ≠ c)
  (lone : ∀ t q', b.pieceAt? t = some q' → q'.color ≠ c → q'.kind = .king → t = s)
include held enemy lone

/-- Along a ray, a square holding an enemy is reached exactly when every square before it is
empty: a friend stops the ray, and so does an enemy, the king excepted, and the only enemy king
is on that square. -/
theorem contains_rayReach_iff (ownTurn : Bool) :
    ∀ (ray : List Square) (r : Reach), (b.rayReach c ownTurn ray r).targets.contains s = true ↔
      r.targets.contains s = true ∨ (s ∈ ray ∧ ∀ u ∈ ray.takeWhile (· ≠ s), b.occupant u = none)
  | [], r => by simp [rayReach]
  | t :: rest, r => by
    by_cases here : t = s
    · subst here
      have reached : ∀ (ray : List Square) (r' : Reach), r'.targets.contains t = true →
          (b.rayReach c ownTurn ray r').targets.contains t = true := by
        intro ray
        induction ray with
        | nil => exact fun r' kept => kept
        | cons u more ih =>
          intro r' kept
          unfold rayReach
          split
          · exact ih _ (by simp [kept])
          · split
            · exact kept
            · dsimp only
              split
              · simp [kept]
              · exact ih _ (by simp [kept])
      have start : (t :: rest).takeWhile (· ≠ t) = [] := by simp
      simp only [start, List.mem_cons, true_or, List.not_mem_nil, false_imp_iff, imp_true_iff,
        and_self, or_true, iff_true]
      unfold rayReach
      simp only [held, if_neg enemy]
      have inserted : ({ r with targets := r.targets.insert t } : Reach).targets.contains t = true := by
        simp
      split
      · exact inserted
      · exact reached rest _ inserted
    · have before : (t :: rest).takeWhile (· ≠ s) = t :: rest.takeWhile (· ≠ s) := by
        simp [here]
      rw [before]
      unfold rayReach
      cases found : b.pieceAt? t with
      | none =>
        have empty := (pieceAt?_eq_none_iff t).mp found
        rw [contains_rayReach_iff ownTurn rest]
        simp [empty, Ne.symm here]
      | some p =>
        have occupied : b.occupant t ≠ none := fun empty => by
          rw [(pieceAt?_eq_none_iff t).mpr empty] at found
          cases found
        dsimp only
        split
        · simp [occupied]
        · rename_i other
          have notKing : ¬(ownTurn = true ∨ p.kind ≠ .king) → t = s := fun stays =>
            lone t p found other (Decidable.not_not.mp (not_or.mp stays).2)
          rw [if_pos (Classical.byContradiction fun stays => here (notKing stays))]
          simp [occupied, Ne.symm here]

theorem contains_slideReach_iff (origin : Square) (dirs : List Direction) :
    (b.slideReach origin c dirs).targets.contains s = true ↔
      ∃ d ∈ dirs, s ∈ origin.ray d ∧ ∀ u ∈ (origin.ray d).takeWhile (· ≠ s), b.occupant u = none := by
  unfold slideReach
  rw [List.foldl_iff_or_exists (fun r : Reach => r.targets.contains s = true)
    (fun d => s ∈ origin.ray d ∧ ∀ u ∈ (origin.ray d).takeWhile (· ≠ s), b.occupant u = none)
    fun r d => contains_rayReach_iff held enemy lone _ _ r]
  simp

end Ray

theorem quiet_slideReach (origin : Square) (dirs : List Direction) :
    (b.slideReach origin c dirs).quiet = SquareSet.empty := by
  unfold slideReach
  exact List.foldl_keeps (P := fun r : Reach => r.quiet = SquareSet.empty) _
    (fun r d _ kept => (quiet_rayReach _ _ r).trans kept) _ rfl

/-! ### Pawns -/

theorem empty_of_quiet_pawnReach {origin : Square}
    (member : (b.pawnReach origin c).quiet.contains s = true) : b.occupant s = none := by
  let Quiet (r : Reach) : Prop := ∀ t, r.quiet.contains t = true → b.occupant t = none
  suffices quiet : Quiet (b.pawnReach origin c) from quiet s member
  unfold pawnReach
  refine List.foldl_keeps (P := Quiet) _ (fun r t _ kept => ?_) _ ?_
  · split
    · split <;> exact kept
    · split
      · exact kept
      · exact kept
  · split
    · rename_i one ahead
      split
      · intro t member
        simp at member
      · rename_i free
        have empty : b.occupant one = none := by simpa using free
        have single : Quiet { targets := SquareSet.single one, quiet := SquareSet.single one } := by
          intro t member
          simp only [SquareSet.contains_single, decide_eq_true_eq] at member
          subst member
          exact empty
        dsimp only
        split
        · split
          · rename_i two beyond
            split
            · exact single
            · rename_i freeTwo
              intro t member
              simp only [SquareSet.contains_insert, Bool.or_eq_true, decide_eq_true_eq] at member
              rcases member with earlier | rfl
              · exact single t earlier
              · simpa using freeTwo
          · exact single
        · exact single
    · intro t member
      simp at member

theorem contains_pawnReach_iff (held : b.pieceAt? s = some q) (enemy : q.color ≠ c)
    (origin : Square) : (b.pawnReach origin c).targets.contains s = (origin.pawnAttacks c).contains s := by
  have occupied : b.occupant s ≠ none := fun empty => by
    rw [(pieceAt?_eq_none_iff s).mpr empty] at held
    cases held
  rw [Bool.eq_iff_iff]
  constructor
  · intro member
    cases pawnReaches_of_pawnReach member with
    | push _ empty => exact absurd empty occupied
    | double _ _ _ _ emptyTwo => exact absurd emptyTwo occupied
    | take diagonal _ _ => exact diagonal
    | passant _ empty _ => exact absurd ((pieceAt?_eq_none_iff s).mp empty) occupied
  · intro diagonal
    unfold pawnReach
    refine List.foldl_of_mem (P := fun r : Reach => r.targets.contains s = true)
      (fun r t kept => ?_) (fun r => ?_) ((SquareSet.mem_toList _ _).mpr diagonal) _
    · split
      · split
        · exact kept
        · simp [kept]
      · split
        · simp [kept]
        · exact kept
    · simp [held, enemy]

/-! ### The raw reach -/

/-- What the raw reach of a piece on the board attacks, its pushes left out, is what the piece
attacks by the movement rules, on a square held by an enemy when no other enemy king stands on
the board. -/
theorem attacks_rawReach {p : Piece} {origin : Square} (square : p.square = some origin)
    (standing : p.captured = false) (held : b.pieceAt? s = some q) (enemy : q.color ≠ p.color)
    (lone : ∀ t q', b.pieceAt? t = some q' → q'.color ≠ p.color → q'.kind = .king → t = s) :
    ((b.rawReach p).targets \ (b.rawReach p).quiet).contains s = b.attacksFrom p origin s := by
  have occupied : b.occupant s ≠ none := fun empty => by
    rw [(pieceAt?_eq_none_iff s).mpr empty] at held
    cases held
  have notQuiet : (b.pawnReach origin p.color).quiet.contains s = false := by
    cases quiet : (b.pawnReach origin p.color).quiet.contains s with
    | false => rfl
    | true => exact absurd (empty_of_quiet_pawnReach quiet) occupied
  have slides (dirs : List Direction) :
      (b.slideReach origin p.color dirs).targets.contains s =
        dirs.any fun d => (origin.ray d).contains s &&
          ((origin.ray d).takeWhile (· ≠ s)).all fun u => (b.occupant u).isNone := by
    rw [Bool.eq_iff_iff, contains_slideReach_iff held enemy lone]
    simp [List.any_eq_true, List.all_eq_true]
  simp only [rawReach, square, standing, Bool.false_eq_true, if_false, attacksFrom]
  cases kind : p.kind <;>
    simp [contains_stepReach_iff held enemy, contains_pawnReach_iff held enemy, quiet_stepReach,
      quiet_slideReach, notQuiet, slides]

end Board

end Chess
