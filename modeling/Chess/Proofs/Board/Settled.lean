import Chess.Proofs.Board.Congruence
import Chess.Proofs.Board.RawReach

namespace Chess

namespace Board

/-! A settled board holds what regeneration computes for it. Every board the library hands
out is settled, since each change ends by regenerating. Moves rely on three facts of a
settled board: no target of a piece holds a friend, no pawn target lies on the pawn's own
back rank, and an open castle is the castle the rules plan, with its squares free. -/

def Narrows (x y : Board) : Prop :=
  ∀ id s, (y.piece id).targets.contains s = true → (x.piece id).targets.contains s = true

namespace Narrows

variable {x y z : Board}

theorem refl (b : Board) : Narrows b b := fun _ _ member => member

theorem trans (first : Narrows x y) (second : Narrows y z) : Narrows x z :=
  fun id s member => first id s (second id s member)

theorem modifyPiece (b : Board) (id : PieceId) (f : Piece → Piece)
    (within : ∀ s, (f (b.piece id)).targets.contains s = true →
      (b.piece id).targets.contains s = true) :
    Narrows b (b.modifyPiece id f) := by
  intro t s member
  by_cases same : t = id
  · subst same
    cases found : b.piece? t with
    | none => simp [Board.piece, found] at member
    | some p =>
      have piece : b.piece t = p := by simp [Board.piece, found]
      simp only [Board.piece, piece?_modifyPiece, if_pos, found, Option.map_some,
        Option.getD_some] at member
      rw [piece] at within ⊢
      exact within s member
  · simpa [Board.piece, same] using member

theorem foldl {α : Type} {F : Board → α → Board} (step : ∀ a i, Narrows a (F a i)) (l : List α)
    (b : Board) : Narrows b (l.foldl F b) :=
  List.foldl_keeps l (fun _ i _ narrows => narrows.trans (step _ i)) b (refl b)

theorem foldl_array {α : Type} {F : Board → α → Board} (step : ∀ a i, Narrows a (F a i))
    (items : Array α) (b : Board) : Narrows b (items.foldl F b) := by
  rw [← Array.foldl_toList]
  exact foldl step _ b

/-! Each pass of regeneration after the raw reach only narrows targets. -/

theorem keepKingSafe (b : Board) (king : PieceId) (them : Color) :
    Narrows b (b.keepKingSafe king them) :=
  modifyPiece _ _ _ fun s member => by
    simp only [SquareSet.contains_filter, Bool.and_eq_true] at member
    exact member.1

theorem restrictPins (b : Board) (kingSq : Square) (them : Color) :
    Narrows b (b.restrictPins kingSq them) := by
  unfold Board.restrictPins
  refine foldl_array (fun a enemy => ?_) _ b
  dsimp only
  split
  · split
    · exact refl a
    · split
      · split
        · exact modifyPiece _ _ _ fun s member => by
            simp only [SquareSet.contains_inter, Bool.and_eq_true] at member
            exact member.1
        · exact refl a
      · exact refl a
  · exact refl a

theorem restrictToCheckResolutions (b : Board) (king : PieceId) (kingSq checker : Square) :
    Narrows b (b.restrictToCheckResolutions king kingSq checker) := by
  unfold Board.restrictToCheckResolutions
  refine foldl_array (fun a id => ?_) _ b
  dsimp only
  split
  · split
    · exact refl a
    · refine modifyPiece _ _ _ fun s member => ?_
      dsimp only at member
      split at member
      · revert s
        refine List.foldl_keeps (P := fun kept : SquareSet => ∀ s, kept.contains s = true →
          (a.piece id).targets.contains s = true) _ (fun kept t extra within => ?_) _ ?_
        · intro s member
          split at member
          · rw [SquareSet.contains_insert, Bool.or_eq_true, decide_eq_true_eq] at member
            rcases member with earlier | rfl
            · exact within s earlier
            · rw [SquareSet.mem_toList, SquareSet.contains_diff, Bool.and_eq_true] at extra
              exact extra.1
          · exact within s member
        · intro s member
          simp only [SquareSet.contains_inter, Bool.and_eq_true] at member
          exact member.1
      · simp only [SquareSet.contains_inter, Bool.and_eq_true] at member
        exact member.1
  · exact refl a

theorem freezeAllBut (b : Board) (king : PieceId) : Narrows b (b.freezeAllBut king) := by
  unfold Board.freezeAllBut
  refine foldl_array (fun a id => ?_) _ b
  split
  · exact refl a
  · exact modifyPiece _ _ _ fun s member => by simp at member

theorem dropExposingEnPassant (b : Board) (kingSq : Square) :
    Narrows b (b.dropExposingEnPassant kingSq) := by
  unfold Board.dropExposingEnPassant
  refine foldl_array (fun a id => ?_) _ b
  dsimp only
  split
  · split
    · exact refl a
    · refine modifyPiece _ _ _ fun s member => ?_
      dsimp only at member
      revert s
      refine List.foldl_keeps (P := fun kept : SquareSet => ∀ s, kept.contains s = true →
        (a.piece id).targets.contains s = true) _ (fun kept t _ within => ?_) _ fun _ member => member
      intro s member
      split at member
      · exact within s member
      · split at member
        · split at member
          · rw [SquareSet.contains_erase, Bool.and_eq_true] at member
            exact within s member.1
          · exact within s member
        · exact within s member
  · exact refl a

theorem addCastles (b : Board) (king : PieceId) : Narrows b (b.addCastles king) := by
  unfold Board.addCastles
  refine foldl (fun a side => ?_) _ b
  dsimp only
  split
  · split
    · cases side <;> dsimp only <;>
        exact modifyPiece { a with status := _ } king _ fun s member => member
    · exact refl a
  · exact refl a

end Narrows

theorem contains_targets_regenerate (b : Board) {id : PieceId} {s : Square}
    (member : (b.regenerate.piece id).targets.contains s = true) :
    (b.rawReach (b.piece id)).targets.contains s = true := by
  have narrows : Narrows { b.withRawReach with status := {} } b.regenerate := by
    apply regenerate_induction (Narrows { b.withRawReach with status := {} }) b (Narrows.refl _)
    · exact fun x st narrows => narrows
    · exact fun x king them narrows => narrows.trans (Narrows.keepKingSafe x king them)
    · exact fun x kingSq them narrows => narrows.trans (Narrows.restrictPins x kingSq them)
    · exact fun x king kingSq checker narrows =>
        narrows.trans (Narrows.restrictToCheckResolutions x king kingSq checker)
    · exact fun x king narrows => narrows.trans (Narrows.freezeAllBut x king)
    · exact fun x kingSq narrows => narrows.trans (Narrows.dropExposingEnPassant x kingSq)
    · exact fun x king _ narrows => narrows.trans (Narrows.addCastles x king)
  have raw := narrows id s member
  change ((b.withRawReach.piece? id).getD default).targets.contains s = true at raw
  rw [piece?_withRawReach] at raw
  cases found : b.piece? id with
  | none => simp [found] at raw
  | some p => simpa [Board.piece, found] using raw

/-! The passes between the raw reach and the castles leave the status alone. -/

theorem status_keepKingSafe (b : Board) (king : PieceId) (them : Color) :
    (b.keepKingSafe king them).status = b.status := rfl

theorem status_restrictPins (b : Board) (kingSq : Square) (them : Color) :
    (b.restrictPins kingSq them).status = b.status := by
  unfold Board.restrictPins
  rw [← Array.foldl_toList]
  refine List.foldl_keeps (P := fun a => a.status = b.status) _ (fun a enemy _ same => ?_) b rfl
  dsimp only
  split
  · split
    · exact same
    · split
      · split
        · exact same
        · exact same
      · exact same
  · exact same

theorem status_restrictToCheckResolutions (b : Board) (king : PieceId) (kingSq checker : Square) :
    (b.restrictToCheckResolutions king kingSq checker).status = b.status := by
  unfold Board.restrictToCheckResolutions
  rw [← Array.foldl_toList]
  refine List.foldl_keeps (P := fun a => a.status = b.status) _ (fun a id _ same => ?_) b rfl
  dsimp only
  split
  · split
    · exact same
    · exact same
  · exact same

theorem status_freezeAllBut (b : Board) (king : PieceId) : (b.freezeAllBut king).status = b.status := by
  unfold Board.freezeAllBut
  rw [← Array.foldl_toList]
  refine List.foldl_keeps (P := fun a => a.status = b.status) _ (fun a id _ same => ?_) b rfl
  split
  · exact same
  · exact same

theorem status_dropExposingEnPassant (b : Board) (kingSq : Square) :
    (b.dropExposingEnPassant kingSq).status = b.status := by
  unfold Board.dropExposingEnPassant
  rw [← Array.foldl_toList]
  refine List.foldl_keeps (P := fun a => a.status = b.status) _ (fun a id _ same => ?_) b rfl
  dsimp only
  split
  · split
    · exact same
    · exact same
  · exact same

theorem castle_addCastles (x : Board) (king : PieceId) {side : CastleSide} {plan : CastlePlan}
    (found : (x.addCastles king).status.castle side = some plan) :
    x.status.castle side = some plan ∨
      (x.castlePlan? x.side side = some plan ∧ x.castleIsLegal plan x.side = true) := by
  let Recorded (a : Board) : Prop := a.bare = x.bare ∧ (a.status.castle side = some plan →
    x.status.castle side = some plan ∨
      (x.castlePlan? x.side side = some plan ∧ x.castleIsLegal plan x.side = true))
  suffices kept : Recorded (x.addCastles king) from kept.2 found
  unfold Board.addCastles
  refine List.foldl_keeps _ (fun a side' _ recorded => ?_) x ⟨rfl, Or.inl⟩
  obtain ⟨bare, earlier⟩ := recorded
  have agree := Agree.of_bare bare
  dsimp only
  split
  · rename_i plan' planned
    split
    · rename_i legal
      cases side' <;> dsimp only
      all_goals
        refine ⟨?_, fun found => ?_⟩
        · rw [bare_modifyPiece, bare_setStatus, bare]
          exact fun p => rfl
        cases side <;> simp only [Status.castle] at found
      · cases found
        rw [← agree.side, ← agree.castlePlan?, ← agree.castleIsLegal]
        exact Or.inr ⟨planned, legal⟩
      · exact earlier found
      · exact earlier found
      · cases found
        rw [← agree.side, ← agree.castlePlan?, ← agree.castleIsLegal]
        exact Or.inr ⟨planned, legal⟩
    · exact ⟨bare, earlier⟩
  · exact ⟨bare, earlier⟩

private theorem castle_regenerate_tail {b d : Board} {king : PieceId} {checkers : SquareSet}
    {side : CastleSide} {plan : CastlePlan} (bare : d.bare = b.bare)
    (blank : d.status.castle side = none)
    (found : (let e := if checkers.isEmpty then d.addCastles king else d
      { e with status := { e.status with legalCount := e.countLegal } }).status.castle side =
        some plan) :
    b.castlePlan? b.side side = some plan ∧ b.castleIsLegal plan b.side = true := by
  have agree := Agree.of_bare bare
  have recorded : (if checkers.isEmpty then d.addCastles king else d).status.castle side =
      some plan := by
    cases side <;> exact found
  split at recorded
  · rcases castle_addCastles d king recorded with earlier | ⟨planned, legal⟩
    · rw [blank] at earlier
      cases earlier
    · rw [← agree.side, ← agree.castlePlan?, ← agree.castleIsLegal]
      exact ⟨planned, legal⟩
  · rw [blank] at recorded
    cases recorded

theorem castle_regenerate (b : Board) {side : CastleSide} {plan : CastlePlan}
    (found : b.regenerate.status.castle side = some plan) :
    b.castlePlan? b.side side = some plan ∧ b.castleIsLegal plan b.side = true := by
  unfold Board.regenerate at found
  dsimp -proj only at found
  have bare : { b.withRawReach with status := {} }.bare = b.bare := by
    rw [bare_setStatus, bare_withRawReach]
  have blank : { b.withRawReach with status := {} }.status = {} := rfl
  generalize { b.withRawReach with status := {} } = a at found bare blank
  split at found
  · cases side <;> cases found
  · split at found
    · cases side <;> cases found
    · refine castle_regenerate_tail ?_ ?_ found
      · split <;> simp only [bare_dropExposingEnPassant, bare_restrictToCheckResolutions,
          bare_freezeAllBut, bare_setStatus, bare_restrictPins, bare_keepKingSafe, bare]
      · split <;> cases side <;> simp [status_dropExposingEnPassant, status_restrictToCheckResolutions,
          status_freezeAllBut, status_restrictPins, status_keepKingSafe, blank, Status.castle]

theorem castlePlan?_eq_some {b : Board} {c : Color} {side : CastleSide} {plan : CastlePlan}
    (planned : b.castlePlan? c side = some plan) :
    b.king c = some plan.king ∧ b.castleRook? c side = some plan.rook ∧
      (b.piece plan.king).square = some plan.kingFrom ∧
      (b.piece plan.rook).square = some plan.rookFrom ∧ plan.side = side ∧
      plan.kingTo = Square.make side.kingFile (Rank.back c) ∧
      plan.rookTo = Square.make side.rookFile (Rank.back c) := by
  unfold castlePlan? at planned
  split at planned
  · cases planned
  · simp only [Option.bind_eq_bind, Option.pure_def, Option.bind_eq_some_iff,
      Option.some.injEq] at planned
    obtain ⟨king, hasKing, rook, hasRook, kingFrom, standsK, rookFrom, standsR, rfl⟩ := planned
    exact ⟨hasKing, hasRook, standsK, standsR, rfl, rfl, rfl⟩

theorem clear_of_castleIsLegal {b : Board} {plan : CastlePlan} {c : Color}
    (legal : b.castleIsLegal plan c = true) :
    (b.occupant plan.kingTo = none ∨ b.occupant plan.kingTo = some plan.king ∨
        b.occupant plan.kingTo = some plan.rook) ∧
      (b.occupant plan.rookTo = none ∨ b.occupant plan.rookTo = some plan.king ∨
        b.occupant plan.rookTo = some plan.rook) := by
  unfold castleIsLegal at legal
  simp only [Bool.and_eq_true, List.all_eq_true, SquareSet.mem_toList] at legal
  have free : ∀ s, (Square.between plan.kingFrom plan.kingTo ∪ SquareSet.single plan.kingTo ∪
      (Square.between plan.rookFrom plan.rookTo ∪ SquareSet.single plan.rookTo)).contains s = true →
      b.occupant s = none ∨ b.occupant s = some plan.king ∨ b.occupant s = some plan.rook := by
    intro s member
    have check := legal.1 s member
    split at check
    · rename_i id held
      simp only [decide_eq_true_eq] at check
      rcases check with rfl | rfl
      · exact Or.inr (Or.inl held)
      · exact Or.inr (Or.inr held)
    · exact Or.inl ‹_›
  exact ⟨free _ (by simp), free _ (by simp)⟩

def Settled (b : Board) : Prop := Same b b.regenerate

theorem Same.started (b : Board) (s : Bool) : Same { b with started := s } b :=
  ⟨⟨rfl, fun _ => rfl, fun _ => rfl, rfl, rfl, fun _ _ => rfl⟩, rfl, fun _ _ => rfl⟩

namespace Settled

variable {b c : Board}

theorem regenerate (b : Board) : b.regenerate.Settled :=
  Same.regenerate (Agree.of_bare (bare_regenerate b)).symm

theorem of_same (same : Same b c) (settled : c.Settled) : b.Settled :=
  same.trans (settled.trans (Same.regenerate same.toAgree).symm)

theorem started (settled : b.Settled) (s : Bool) : { b with started := s }.Settled :=
  of_same (Same.started b s) settled

variable (settled : b.Settled) {id : PieceId} (tracked : b.Tracks id) {s : Square}
include settled tracked

theorem target_within (member : (b.piece id).targets.contains s = true) :
    (b.rawReach (b.piece id)).targets.contains s = true := by
  rw [settled.piece_eq tracked] at member
  exact contains_targets_regenerate b member

theorem target_avoids_friends (member : (b.piece id).targets.contains s = true) {q : Piece}
    (held : b.pieceAt? s = some q) : q.color ≠ (b.piece id).color :=
  avoidsFriends_rawReach (b.piece id) s (target_within settled tracked member) q held

theorem pawn_target_ne_back (pawn : (b.piece id).kind = .pawn)
    (member : (b.piece id).targets.contains s = true) : s.rank ≠ Rank.back (b.piece id).color :=
  rank_ne_back_of_rawReach pawn (target_within settled tracked member)

omit tracked in
theorem castle {side : CastleSide} {plan : CastlePlan} (found : b.legalCastle? side = some plan) :
    b.castlePlan? b.side side = some plan ∧ b.castleIsLegal plan b.side = true := by
  rw [legalCastle?, settled.status] at found
  exact castle_regenerate b found

end Settled

end Board

end Chess