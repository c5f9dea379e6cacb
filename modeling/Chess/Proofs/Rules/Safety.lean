import Chess.Proofs.Rules.Legal

namespace Chess

/-! Which moves leave the king safe, said of the position before the move. A piece other than
the king exposes its king only by leaving the line of a slider that pins it, by not answering
a check, by facing two checkers at once, or, taking en passant, by emptying two squares of one
line. Main statement: a move of the movement rules leaves the king safe exactly when it keeps
to those conditions (`kingSafe_moved_iff_kept`). -/

namespace Board

def Checks (b : Board) (κ x : Square) : Prop :=
  ∃ k, b.pieceOn x = some (k, b.side.opponent) ∧ k.Attacks b.side.opponent b.occupancy x κ

/-- The piece of the other side on `x` pins the piece on `o` to the king on `κ`: it slides, it
would attack the king were `o` empty, and `o` lies strictly between. -/
def Pins (b : Board) (κ x o : Square) : Prop :=
  ∃ k, b.pieceOn x = some (k, b.side.opponent) ∧ k.slides = true ∧
    k.Attacks b.side.opponent (b.occupancy.erase o) x κ ∧ x.StrictlyBetween κ o

/-- A move from `o` to `t` answers the check from `x`: it takes the checker, it puts a piece on
the line of a checking slider, or it takes the checking pawn en passant. -/
def Answers (b : Board) (κ o t x : Square) : Prop :=
  t = x ∨ (∃ k, b.pieceOn x = some (k, b.side.opponent) ∧ k.slides = true ∧ x.StrictlyBetween κ t) ∨
    (b.Passant o t ∧ x = Square.make t.file o.rank)

/-- What a move from `o` to `t` of a piece other than the king must do for the king on `κ`:
keep to the line of any slider pinning it, answer every check, face at most one checker, and,
taking en passant, open no line to the king. -/
structure Kept (b : Board) (κ o t : Square) : Prop where
  pins : ∀ x, b.Pins κ x o → t = x ∨ x.StrictlyBetween κ t
  checks : ∀ x, b.Checks κ x → b.Answers κ o t x
  single : ∀ x y, b.Checks κ x → b.Checks κ y → x = y
  passant : b.Passant o t → ¬(b.moved o t none).Attacked κ b.side.opponent

theorem Square.knightSteps_of_passant {o t κ : Square} {c : Color}
    (diagonal : (o.pawnAttacks c).contains t = true)
    (attack : ((Square.make t.file o.rank).pawnAttacks c.opponent).contains κ = true) :
    t.knightSteps.contains κ = true := by
  have tFile := Square.file_of_mem_pawnAttacks diagonal
  have tRank := Square.rank_of_mem_pawnAttacks diagonal
  have kFile := Square.file_of_mem_pawnAttacks attack
  have kRank := Square.rank_of_mem_pawnAttacks attack
  simp only [Square.file_make, Square.rank_make] at kFile kRank
  rw [Square.knightSteps, Square.contains_stepsBy_iff]
  refine ⟨((κ.file.index.val : Int) - t.file.index.val, (κ.rank.index.val : Int) - t.rank.index.val),
    ?_, Square.offset?_eq_some_iff.mpr ⟨by omega, by omega⟩⟩
  cases c <;> simp only [Color.forward, Color.opponent] at tRank kRank <;>
    simp only [List.mem_cons, Prod.mk.injEq, List.not_mem_nil, or_false] <;> omega

theorem contains_occupancy_eq_isSome (b : Board) (u : Square) :
    b.occupancy.contains u = (b.pieceOn u).isSome := by
  rw [← occupancy_pieceOn, Placement.contains_occupancy]

section Moved

variable {b : Board} {κ o t x y u : Square} {k kx : PieceKind} {promo : Option PieceKind}
  (own : b.pieceOn o = some (k, b.side))

include own

theorem moved_eq_opponent_iff :
    b.moved o t promo x = some (kx, b.side.opponent) ↔
      x ≠ t ∧ ¬(b.Passant o t ∧ x = Square.make t.file o.rank) ∧
        b.pieceOn x = some (kx, b.side.opponent) := by
  unfold moved
  by_cases target : x = t
  · simp [target, own, Color.ne_opponent]
  · rw [if_neg target]
    by_cases cleared : x = o ∨ (b.Passant o t ∧ x = Square.make t.file o.rank)
    · rw [if_pos cleared]
      simp only [reduceCtorEq, false_iff, not_and]
      rcases cleared with rfl | taken
      · intro _ _
        rw [own]
        simp [Color.ne_opponent]
      · exact fun _ untaken => absurd taken.2 (untaken taken.1)
    · rw [if_neg cleared]
      exact ⟨fun held => ⟨target, fun taken => cleared (Or.inr taken), held⟩, fun kept => kept.2.2⟩

omit own in
theorem occupied_of_moved (target : u ≠ t) (occupied : (b.moved o t promo u).isSome = true) :
    u ≠ o ∧ ¬(b.Passant o t ∧ u = Square.make t.file o.rank) ∧ b.occupancy.contains u = true := by
  unfold moved at occupied
  rw [if_neg target] at occupied
  split at occupied
  · cases occupied
  · rename_i kept
    exact ⟨fun same => kept (Or.inl same), fun taken => kept (Or.inr taken),
      by rw [contains_occupancy_eq_isSome]; exact occupied⟩

omit own in
theorem moved_of_occupied (target : u ≠ t) (origin : u ≠ o)
    (untaken : ¬(b.Passant o t ∧ u = Square.make t.file o.rank)) :
    b.moved o t promo u = b.pieceOn u := by
  simp only [moved, target, origin, false_or, if_false, if_neg untaken]

theorem attacked_moved_congr (promo' : Option PieceKind) (s : Square) :
    (b.moved o t promo).Attacked s b.side.opponent ↔ (b.moved o t promo').Attacked s b.side.opponent := by
  simp only [Placement.Attacked, moved_eq_opponent_iff own, occupancy_moved promo promo']

/-- A piece of the other side that attacks the king through `occ'` still does once the move is
made, when it is not taken, no piece lands on its line, and every square of its line occupied
after the move is occupied in `occ'`. -/
theorem attacked_moved_of_attacks {occ' : SquareSet} (held : b.pieceOn x = some (kx, b.side.opponent))
    (attacks : kx.Attacks b.side.opponent occ' x κ)
    (within : ∀ u, x.StrictlyBetween κ u → u ≠ t → (b.moved o t promo u).isSome = true →
      occ'.contains u = true)
    (stays : x ≠ t) (untaken : ¬(b.Passant o t ∧ x = Square.make t.file o.rank))
    (unblocked : kx.slides = true → ¬x.StrictlyBetween κ t) :
    (b.moved o t promo).Attacked κ b.side.opponent := by
  refine ⟨x, kx, (moved_eq_opponent_iff own).mpr ⟨stays, untaken, held⟩, ?_⟩
  cases slides : kx.slides
  · exact (PieceKind.attacks_iff_of_steps slides).mp attacks
  · refine attacks.mono fun u between occupied => ?_
    have other : u ≠ t := fun same => unblocked slides (same ▸ between)
    rw [Placement.contains_occupancy] at occupied
    exact within u between other occupied

/-- Without en passant, an attack on the king after a move comes from a piece of the other side
that stays on the board with no piece landing on its line: it gave check already, or it pinned
the piece that moved. -/
theorem checks_or_pins_of_attacked_moved (quiet : ¬b.Passant o t)
    (held : b.moved o t promo x = some (kx, b.side.opponent))
    (attacks : kx.Attacks b.side.opponent (b.moved o t promo).occupancy x κ) :
    x ≠ t ∧ (kx.slides = true → ¬x.StrictlyBetween κ t) ∧ (b.Checks κ x ∨ b.Pins κ x o) := by
  obtain ⟨stays, -, before⟩ := (moved_eq_opponent_iff own).mp held
  have unblocked : kx.slides = true → ¬x.StrictlyBetween κ t := fun slides between => by
    have clear := attacks.clear slides between
    simp [Placement.contains_occupancy, own] at clear
  have kept (u : Square) (origin : u ≠ o) (occupied : b.occupancy.contains u = true) :
      (b.moved o t promo).occupancy.contains u = true := by
    rw [Placement.contains_occupancy]
    by_cases target : u = t
    · simp [target, own]
    · rw [moved_of_occupied target origin fun taken => quiet taken.1, ← contains_occupancy_eq_isSome]
      exact occupied
  refine ⟨stays, unblocked, ?_⟩
  cases slides : kx.slides
  · exact Or.inl ⟨kx, before, (PieceKind.attacks_iff_of_steps slides).mp attacks⟩
  · by_cases through : x.StrictlyBetween κ o
    · refine Or.inr ⟨kx, before, slides, attacks.mono fun u _ occupied => ?_, through⟩
      simp only [SquareSet.contains_erase, Bool.and_eq_true, Bool.not_eq_true',
        decide_eq_false_iff_not] at occupied
      exact kept u occupied.2 occupied.1
    · refine Or.inl ⟨kx, before, attacks.mono fun u between occupied => ?_⟩
      exact kept u (fun same => through (same ▸ between)) occupied

theorem attacked_moved_of_checks (checks : b.Checks κ x) (unanswered : ¬b.Answers κ o t x) :
    (b.moved o t promo).Attacked κ b.side.opponent := by
  obtain ⟨kx, held, attacks⟩ := checks
  refine attacked_moved_of_attacks own held attacks (fun u _ target occupied => ?_)
    (fun same => unanswered (Or.inl same.symm)) (fun taken => unanswered (Or.inr (Or.inr taken)))
    (fun slides between => unanswered (Or.inr (Or.inl ⟨kx, held, slides, between⟩)))
  exact (occupied_of_moved target occupied).2.2

variable (reaches : b.Reaches o k t)
include reaches

theorem attacked_moved_of_pins (pins : b.Pins κ x o) (leaves : ¬(t = x ∨ x.StrictlyBetween κ t)) :
    (b.moved o t promo).Attacked κ b.side.opponent := by
  obtain ⟨kx, held, slides, attacks, -⟩ := pins
  refine attacked_moved_of_attacks own held attacks (fun u _ target occupied => ?_)
    (fun same => leaves (Or.inl same.symm)) (fun taking => ?_)
    (fun _ between => leaves (Or.inr between))
  · obtain ⟨origin, -, occupied⟩ := occupied_of_moved target occupied
    simp [occupied, origin]
  · obtain ⟨passant, taken⟩ := taking
    have pawn := (reaches.of_passant own passant).2.2.2.2
    rw [← taken, held] at pawn
    cases (Prod.mk.inj (Option.some.inj pawn)).1
    cases slides

theorem eq_of_answers (checksX : b.Checks κ x) (checksY : b.Checks κ y)
    (answersX : b.Answers κ o t x) (answersY : b.Answers κ o t y) : x = y := by
  have clear {z u : Square} (checks : b.Checks κ z) {kz : PieceKind}
      (held : b.pieceOn z = some (kz, b.side.opponent)) (slides : kz.slides = true)
      (between : z.StrictlyBetween κ u) : b.pieceOn u = none := by
    obtain ⟨kz', held', attacks⟩ := checks
    rw [held] at held'
    cases (Prod.mk.inj (Option.some.inj held')).1
    have empty := attacks.clear slides between
    rw [contains_occupancy_eq_isSome] at empty
    simpa using empty
  have occupied {z : Square} (checks : b.Checks κ z) : b.pieceOn z ≠ none := by
    obtain ⟨kz, held, -⟩ := checks
    rw [held]
    exact Option.some_ne_none _
  have offLine {z : Square} (checks : b.Checks κ z) (passant : b.Passant o t)
      (taken : z = Square.make t.file o.rank) (w : Square) : ¬w.StrictlyBetween κ t := by
    obtain ⟨-, diagonal, -, -, beside⟩ := reaches.of_passant own passant
    obtain ⟨kz, held, attacks⟩ := checks
    rw [← taken, held] at beside
    cases (Prod.mk.inj (Option.some.inj beside)).1
    have attack : ((Square.make t.file o.rank).pawnAttacks b.side.opponent).contains κ = true := by
      rcases attacks with ⟨d, dir, -⟩ | ⟨same, -⟩ | ⟨same, -⟩ | ⟨-, attack⟩
      · simp [PieceKind.directions] at dir
      · cases same
      · cases same
      · rwa [← taken]
    exact Square.not_strictlyBetween_of_knightSteps (Square.knightSteps_of_passant diagonal attack)
  rcases answersX with rfl | ⟨kx, heldX, slidesX, betweenX⟩ | ⟨passantX, takenX⟩ <;>
    rcases answersY with same | ⟨ky, heldY, slidesY, betweenY⟩ | ⟨passantY, takenY⟩
  · exact same
  · exact absurd (clear checksY heldY slidesY betweenY) (occupied checksX)
  · exact absurd passantY.2.2 (occupied checksX)
  · rw [same] at betweenX
    exact absurd (clear checksX heldX slidesX betweenX) (occupied checksY)
  · by_contra differ
    rcases Square.strictlyBetween_nested betweenX betweenY differ with nested | nested
    · exact occupied checksX (clear checksY heldY slidesY nested)
    · exact occupied checksY (clear checksX heldX slidesX nested)
  · exact absurd betweenX (offLine checksY passantY takenY x)
  · rw [same] at passantX
    exact absurd passantX.2.2 (occupied checksY)
  · exact absurd betweenY (offLine checksX passantX takenX y)
  · exact takenX.trans takenY.symm

/-- With the king of the side to move on `κ`, its only king, a move of the movement rules of a
piece other than the king leaves the king safe exactly when it keeps to the pins, answers the
one check if any, and opens no line taking en passant. -/
theorem kingSafe_moved_iff_kept (notKing : k ≠ .king) (promoted : promo.getD k ≠ .king)
    (king : b.pieceOn κ = some (.king, b.side)) (lone : ∀ s, b.pieceOn s = some (.king, b.side) → s = κ) :
    (b.moved o t promo).KingSafe b.side ↔ b.Kept κ o t := by
  have stands : b.moved o t promo κ = some (.king, b.side) := by
    have target : κ ≠ t := fun same => reaches.openTo .king (same ▸ king)
    have origin : κ ≠ o := fun same => by
      rw [same, own] at king
      exact notKing (Prod.mk.inj (Option.some.inj king)).1
    have untaken : ¬(b.Passant o t ∧ κ = Square.make t.file o.rank) := by
      rintro ⟨passant, taken⟩
      have beside := (reaches.of_passant own passant).2.2.2.2
      rw [← taken, king] at beside
      exact Color.ne_opponent _ (Prod.mk.inj (Option.some.inj beside)).2
    rw [moved_of_occupied target origin untaken, king]
  have only : ∀ s, b.moved o t promo s = some (.king, b.side) → s = κ := by
    intro s held
    by_cases target : s = t
    · rw [target, moved_target, own] at held
      exact absurd (Prod.mk.inj (Option.some.inj held)).1 promoted
    · unfold moved at held
      rw [if_neg target] at held
      split at held
      · cases held
      · exact lone s held
  rw [Placement.kingSafe_iff_of_king stands only]
  constructor
  · intro calm
    refine ⟨fun x pins => ?_, fun x checks => ?_, fun x y checksX checksY => ?_, fun passant => ?_⟩
    · by_contra leaves
      exact calm (attacked_moved_of_pins own reaches pins leaves)
    · by_contra unanswered
      exact calm (attacked_moved_of_checks own checks unanswered)
    · have answers {z : Square} (checks : b.Checks κ z) : b.Answers κ o t z :=
        Classical.byContradiction fun unanswered =>
          calm (attacked_moved_of_checks own checks unanswered)
      exact eq_of_answers own reaches checksX checksY (answers checksX) (answers checksY)
    · exact fun attacked => calm ((attacked_moved_congr own promo κ).mp attacked)
  · rintro kept ⟨x, kx, held, attacks⟩
    by_cases passant : b.Passant o t
    · exact kept.passant passant ((attacked_moved_congr own none κ).mp ⟨x, kx, held, attacks⟩)
    · obtain ⟨stays, unblocked, source⟩ := checks_or_pins_of_attacked_moved own passant held attacks
      have before := ((moved_eq_opponent_iff own).mp held).2.2
      rcases source with checks | pins
      · rcases kept.checks x checks with same | ⟨kx', held', slides, between⟩ | ⟨passant', -⟩
        · exact stays same.symm
        · rw [before] at held'
          cases (Prod.mk.inj (Option.some.inj held')).1
          exact unblocked slides between
        · exact passant passant'
      · rcases kept.pins x pins with same | between
        · exact stays same.symm
        · obtain ⟨kx', held', slides, -⟩ := pins
          rw [before] at held'
          cases (Prod.mk.inj (Option.some.inj held')).1
          exact unblocked slides between

end Moved

end Board

end Chess
