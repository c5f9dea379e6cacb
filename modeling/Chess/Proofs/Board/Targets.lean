import Chess.Proofs.Board.Settled

namespace Chess

/-! What the targets of a settled board are made of. Only the king of the side to move has
castle targets; a pawn reaches the squares ahead of it that are empty, the diagonals holding
an enemy, and the empty diagonals it takes en passant on; a king reaches the squares next to
it. -/

theorem Square.file_of_offset? {s t : Square} {df dr : Int} (found : s.offset? df dr = some t) :
    (t.file.index.val : Int) = s.file.index.val + df := by
  simp only [Square.offset?, Option.pure_def, Option.bind_eq_bind, Option.bind_eq_some_iff,
    Option.some.injEq] at found
  obtain ⟨f, shifted, r, -, rfl⟩ := found
  rw [Square.file_make]
  unfold File.shift? at shifted
  dsimp only at shifted
  split at shifted
  · cases shifted
    simp only [Int.toNat_of_nonneg (by omega : (0 : Int) ≤ (s.file.index.val : Int) + df)]
  · cases shifted

theorem Square.eq_of_file_rank {s t : Square} (file : s.file = t.file) (rank : s.rank = t.rank) :
    s = t := by
  obtain ⟨⟨i, _⟩⟩ := s
  obtain ⟨⟨j, _⟩⟩ := t
  simp only [Square.file, Square.rank, File.mk.injEq, Rank.mk.injEq, Fin.mk.injEq] at file rank
  congr
  omega

theorem Square.file_of_mem_pawnAttacks {s t : Square} {c : Color}
    (member : (s.pawnAttacks c).contains t = true) :
    (t.file.index.val : Int) = s.file.index.val - 1 ∨ (t.file.index.val : Int) = s.file.index.val + 1 := by
  simp only [Square.pawnAttacks, Square.stepsBy, SquareSet.contains_ofList, decide_eq_true_eq,
    List.mem_filterMap, List.mem_cons, List.not_mem_nil, or_false] at member
  obtain ⟨d, (rfl | rfl), found⟩ := member
  · left
    have := Square.file_of_offset? found
    omega
  · exact Or.inr (Square.file_of_offset? found)

theorem Square.file_of_mem_kingSteps {s t : Square} (member : s.kingSteps.contains t = true) :
    ((t.file.index.val : Int) - s.file.index.val).natAbs ≤ 1 := by
  simp only [Square.kingSteps, Square.stepsBy, SquareSet.contains_ofList, decide_eq_true_eq,
    List.mem_filterMap, List.mem_map] at member
  obtain ⟨d, ⟨dir, -, rfl⟩, found⟩ := member
  have shifted := Square.file_of_offset? found
  cases dir <;> simp only [Direction.delta] at shifted <;> omega

namespace Board

/-! Castle targets. Every pass of regeneration but the castle pass leaves them alone, and the
castle pass adds them to the king it is given only. -/

def KeepsCastles (x y : Board) : Prop :=
  ∀ id, (y.piece id).castleTargets = (x.piece id).castleTargets

namespace KeepsCastles

variable {x y z : Board}

theorem refl (b : Board) : KeepsCastles b b := fun _ => rfl

theorem trans (first : KeepsCastles x y) (second : KeepsCastles y z) : KeepsCastles x z :=
  fun id => (second id).trans (first id)

theorem modifyPiece (b : Board) (i : PieceId) {f : Piece → Piece}
    (keeps : ∀ p, (f p).castleTargets = p.castleTargets) : KeepsCastles b (b.modifyPiece i f) := by
  intro id
  simp only [Board.piece, piece?_modifyPiece]
  split
  · cases b.piece? id with
    | none => rfl
    | some p => exact keeps p
  · rfl

theorem foldl {α : Type} {F : Board → α → Board} (step : ∀ a i, KeepsCastles a (F a i))
    (l : List α) (b : Board) : KeepsCastles b (l.foldl F b) :=
  List.foldl_keeps l (fun _ i _ keeps => keeps.trans (step _ i)) b (refl b)

theorem foldl_array {α : Type} {F : Board → α → Board} (step : ∀ a i, KeepsCastles a (F a i))
    (items : Array α) (b : Board) : KeepsCastles b (items.foldl F b) := by
  rw [← Array.foldl_toList]
  exact foldl step _ b

theorem keepKingSafe (b : Board) (king : PieceId) (them : Color) :
    KeepsCastles b (b.keepKingSafe king them) :=
  modifyPiece _ _ fun _ => rfl

theorem restrictPins (b : Board) (kingSq : Square) (them : Color) :
    KeepsCastles b (b.restrictPins kingSq them) := by
  unfold Board.restrictPins
  refine foldl_array (fun a enemy => ?_) _ b
  dsimp only
  split
  · split
    · exact refl a
    · split
      · split
        · exact modifyPiece _ _ fun _ => rfl
        · exact refl a
      · exact refl a
  · exact refl a

theorem restrictToCheckResolutions (b : Board) (king : PieceId) (kingSq checker : Square) :
    KeepsCastles b (b.restrictToCheckResolutions king kingSq checker) := by
  unfold Board.restrictToCheckResolutions
  refine foldl_array (fun a id => ?_) _ b
  dsimp only
  split
  · split
    · exact refl a
    · exact modifyPiece _ _ fun _ => rfl
  · exact refl a

theorem freezeAllBut (b : Board) (king : PieceId) : KeepsCastles b (b.freezeAllBut king) := by
  unfold Board.freezeAllBut
  refine foldl_array (fun a id => ?_) _ b
  split
  · exact refl a
  · exact modifyPiece _ _ fun _ => rfl

theorem dropExposingEnPassant (b : Board) (kingSq : Square) :
    KeepsCastles b (b.dropExposingEnPassant kingSq) := by
  unfold Board.dropExposingEnPassant
  refine foldl_array (fun a id => ?_) _ b
  dsimp only
  split
  · split
    · exact refl a
    · exact modifyPiece _ _ fun _ => rfl
  · exact refl a

end KeepsCastles

theorem piece_addCastles_of_ne (x : Board) (king : PieceId) {id : PieceId} (other : id ≠ king) :
    (x.addCastles king).piece id = x.piece id := by
  unfold Board.addCastles
  refine List.foldl_keeps (P := fun a => a.piece id = x.piece id) _ (fun a side _ kept => ?_) x rfl
  dsimp only
  split
  · split
    · cases side <;>
      · simp only [Board.piece, piece?_modifyPiece, if_neg other]
        exact kept
    · exact kept
  · exact kept

theorem castleTargets_addCastles (x : Board) (king : PieceId) {id : PieceId} (other : id ≠ king) :
    ((x.addCastles king).piece id).castleTargets = (x.piece id).castleTargets := by
  rw [piece_addCastles_of_ne x king other]

theorem castleTargets_regenerate (b : Board) {id : PieceId} (other : b.king b.side ≠ some id) :
    (b.regenerate.piece id).castleTargets = SquareSet.empty := by
  apply regenerate_induction (fun x => (x.piece id).castleTargets = SquareSet.empty) b
  · change ((b.withRawReach.piece? id).getD default).castleTargets = _
    rw [piece?_withRawReach]
    cases b.piece? id <;> rfl
  · exact fun _ _ blank => blank
  · exact fun x king them blank => (KeepsCastles.keepKingSafe x king them id).trans blank
  · exact fun x kingSq them blank => (KeepsCastles.restrictPins x kingSq them id).trans blank
  · exact fun x king kingSq checker blank =>
      (KeepsCastles.restrictToCheckResolutions x king kingSq checker id).trans blank
  · exact fun x king blank => (KeepsCastles.freezeAllBut x king id).trans blank
  · exact fun x kingSq blank => (KeepsCastles.dropExposingEnPassant x kingSq id).trans blank
  · intro x king found blank
    have notKing : id ≠ king := fun same => other (same ▸ found)
    exact (castleTargets_addCastles x king notKing).trans blank

/-! Pawns. -/

/-- Where the raw reach of a pawn of colour `c` on `origin` may lead: one square ahead onto an
empty square, two from its starting rank over two empty squares, a diagonal holding an enemy,
or an empty diagonal when it is not the pawn's turn or when it takes en passant there. -/
inductive PawnReaches (b : Board) (origin : Square) (c : Color) : Square → Prop
  | push {one : Square} (ahead : origin.offset? 0 c.forward = some one)
      (empty : b.occupant one = none) : PawnReaches b origin c one
  | double {one two : Square} (ahead : origin.offset? 0 c.forward = some one)
      (empty : b.occupant one = none) (start : origin.rank = Rank.pawnStart c)
      (beyond : one.offset? 0 c.forward = some two) (emptyTwo : b.occupant two = none) :
      PawnReaches b origin c two
  | take {s : Square} {p : Piece} (diagonal : (origin.pawnAttacks c).contains s = true)
      (held : b.pieceAt? s = some p) (enemy : p.color ≠ c) : PawnReaches b origin c s
  | passant {s : Square} (diagonal : (origin.pawnAttacks c).contains s = true)
      (empty : b.pieceAt? s = none)
      (open_ : b.side ≠ c ∨ (b.enPassantVictim? origin s c).isSome) : PawnReaches b origin c s

variable {b : Board}

theorem pawnReaches_of_pawnReach {origin s : Square} {c : Color}
    (member : (b.pawnReach origin c).targets.contains s = true) : PawnReaches b origin c s := by
  let Reaches (r : Reach) : Prop := ∀ s, r.targets.contains s = true → PawnReaches b origin c s
  suffices reaches : Reaches (b.pawnReach origin c) from reaches s member
  unfold pawnReach
  refine List.foldl_keeps _ (fun r t attack reaches => ?_) _ ?_
  · rw [SquareSet.mem_toList] at attack
    intro x member
    split at member
    · rename_i p held
      split at member
      · exact reaches x member
      · rename_i enemy
        rw [SquareSet.contains_insert, Bool.or_eq_true, decide_eq_true_eq] at member
        rcases member with earlier | rfl
        · exact reaches x earlier
        · exact .take attack held enemy
    · rename_i empty
      split at member
      · rename_i open_
        rw [SquareSet.contains_insert, Bool.or_eq_true, decide_eq_true_eq] at member
        rcases member with earlier | rfl
        · exact reaches x earlier
        · refine .passant attack empty ?_
          simpa only [Bool.or_eq_true, Bool.not_eq_true', decide_eq_false_iff_not] using open_
      · exact reaches x member
  · split
    · rename_i one ahead
      split
      · intro x member
        simp at member
      · rename_i free
        have empty : b.occupant one = none := by simpa using free
        have single : Reaches { targets := SquareSet.single one, quiet := SquareSet.single one } := by
          intro x member
          simp only [SquareSet.contains_single, decide_eq_true_eq] at member
          subst member
          exact .push ahead empty
        dsimp only
        split
        · rename_i start
          split
          · rename_i two beyond
            split
            · exact single
            · rename_i freeTwo
              intro x member
              simp only [SquareSet.contains_insert, Bool.or_eq_true, decide_eq_true_eq] at member
              rcases member with earlier | rfl
              · exact single x earlier
              · exact .double ahead empty start beyond (by simpa using freeTwo)
          · exact single
        · exact single
    · intro x member
      simp at member

/-! Kings. -/

theorem mem_steps_of_stepReach {steps : SquareSet} {c : Color} {s : Square}
    (member : (b.stepReach steps c).targets.contains s = true) : steps.contains s = true := by
  let Within (r : Reach) : Prop := ∀ s, r.targets.contains s = true → steps.contains s = true
  suffices within : Within (b.stepReach steps c) from within s member
  unfold stepReach
  refine List.foldl_keeps _ (fun r t step within => ?_) _ (fun _ member => by simp at member)
  rw [SquareSet.mem_toList] at step
  intro x member
  split at member
  · split at member
    · exact within x member
    · rw [SquareSet.contains_insert, Bool.or_eq_true, decide_eq_true_eq] at member
      rcases member with earlier | rfl
      · exact within x earlier
      · exact step
  · rw [SquareSet.contains_insert, Bool.or_eq_true, decide_eq_true_eq] at member
    rcases member with earlier | rfl
    · exact within x earlier
    · exact step

namespace Settled

variable {b : Board} (settled : b.Settled) {id : PieceId} (tracked : b.Tracks id)
include settled tracked

theorem castleTargets_eq_empty (other : b.king b.side ≠ some id) :
    (b.piece id).castleTargets = SquareSet.empty := by
  rw [settled.piece_eq tracked]
  exact castleTargets_regenerate b other

theorem destinations_eq_targets (other : b.king b.side ≠ some id) :
    (b.piece id).destinations = (b.piece id).targets := by
  refine SquareSet.ext fun s => ?_
  rw [Piece.destinations, SquareSet.contains_union, castleTargets_eq_empty settled tracked other,
    SquareSet.contains_empty, Bool.or_false]

theorem pawnReaches (pawn : (b.piece id).kind = .pawn) {o s : Square}
    (at_ : (b.piece id).square = some o) (member : (b.piece id).targets.contains s = true) :
    PawnReaches b o (b.piece id).color s := by
  have raw := target_within settled tracked member
  unfold rawReach at raw
  simp only [at_] at raw
  split at raw
  · simp at raw
  · simp only [pawn] at raw
    exact pawnReaches_of_pawnReach raw

theorem mem_kingSteps (king : (b.piece id).kind = .king) {o s : Square}
    (at_ : (b.piece id).square = some o) (member : (b.piece id).targets.contains s = true) :
    o.kingSteps.contains s = true := by
  have raw := target_within settled tracked member
  unfold rawReach at raw
  simp only [at_] at raw
  split at raw
  · simp at raw
  · simp only [king] at raw
    exact mem_steps_of_stepReach raw

end Settled

end Board

end Chess
