import Chess.Proofs.SquareSet
import Chess.Board.Reach

namespace Chess

/-! Where the raw reach of a piece leads. No target holds a friend of the piece, and a pawn
goes forward only: one rank, or two from its starting rank. -/

theorem List.foldl_keeps {α β : Type} {P : β → Prop} {f : β → α → β} :
    ∀ (l : List α), (∀ r a, a ∈ l → P r → P (f r a)) → ∀ r, P r → P (l.foldl f r)
  | [], _, _, start => start
  | a :: l, step, r, start =>
    List.foldl_keeps l (fun r' a' member => step r' a' (List.mem_cons_of_mem a member))
      (f r a) (step r a List.mem_cons_self start)

theorem List.foldl_iff_or_exists {α β : Type} {f : β → α → β} (P : β → Prop) (R : α → Prop)
    (step : ∀ r a, P (f r a) ↔ P r ∨ R a) :
    ∀ (l : List α) (r : β), P (l.foldl f r) ↔ P r ∨ ∃ a ∈ l, R a
  | [], r => by simp
  | a :: l, r => by
    rw [List.foldl_cons, List.foldl_iff_or_exists P R step l, step]
    simp only [List.mem_cons, exists_eq_or_imp]
    exact or_assoc

theorem Square.rank_of_offset? {s t : Square} {df dr : Int} (found : s.offset? df dr = some t) :
    (t.rank.index.val : Int) = s.rank.index.val + dr := by
  simp only [Square.offset?, Option.pure_def, Option.bind_eq_bind, Option.bind_eq_some_iff,
    Option.some.injEq] at found
  obtain ⟨f, -, r, shifted, rfl⟩ := found
  rw [Square.rank_make]
  unfold Rank.shift? at shifted
  dsimp only at shifted
  split at shifted
  · cases shifted
    simp only [Int.toNat_of_nonneg (by omega : (0 : Int) ≤ (s.rank.index.val : Int) + dr)]
  · cases shifted

theorem Square.rank_of_mem_pawnAttacks {s t : Square} {c : Color}
    (member : (s.pawnAttacks c).contains t = true) :
    (t.rank.index.val : Int) = s.rank.index.val + c.forward := by
  simp only [Square.pawnAttacks, Square.stepsBy, SquareSet.contains_ofList, decide_eq_true_eq,
    List.mem_filterMap, List.mem_cons, List.not_mem_nil, or_false] at member
  obtain ⟨d, (rfl | rfl), found⟩ := member <;> exact Square.rank_of_offset? found

namespace Reach

def AvoidsFriends (b : Board) (c : Color) (r : Reach) : Prop :=
  ∀ s, r.targets.contains s = true → ∀ p, b.pieceAt? s = some p → p.color ≠ c

variable {b : Board} {c : Color} {r : Reach}

theorem avoidsFriends_empty : AvoidsFriends b c {} := by
  intro s member
  simp at member

theorem AvoidsFriends.insert (avoids : AvoidsFriends b c r) {s : Square}
    (open_ : ∀ p, b.pieceAt? s = some p → p.color ≠ c) :
    AvoidsFriends b c { r with targets := r.targets.insert s } := by
  intro t member p held
  rw [SquareSet.contains_insert, Bool.or_eq_true, decide_eq_true_eq] at member
  rcases member with earlier | rfl
  · exact avoids t earlier p held
  · exact open_ p held

theorem AvoidsFriends.step (avoids : AvoidsFriends b c r) (s : Square) :
    AvoidsFriends b c
      (match b.pieceAt? s with
        | some p =>
          if p.color = c then { r with guards := r.guards.insert s }
          else { r with targets := r.targets.insert s }
        | none => { r with targets := r.targets.insert s }) := by
  split
  · rename_i p held
    split
    · exact avoids
    · rename_i enemy
      refine avoids.insert fun q held' => ?_
      rw [held, Option.some.injEq] at held'
      exact held' ▸ enemy
  · rename_i empty
    exact avoids.insert fun q held => by simp [empty] at held

end Reach

namespace Board

open Reach

variable {b : Board} {c : Color}

theorem avoidsFriends_stepReach (steps : SquareSet) : (b.stepReach steps c).AvoidsFriends b c := by
  unfold stepReach
  exact List.foldl_keeps _ (fun r s _ avoids => avoids.step s) _ avoidsFriends_empty

theorem avoidsFriends_rayReach (ownTurn : Bool) :
    ∀ (ray : List Square) (r : Reach), r.AvoidsFriends b c →
      (b.rayReach c ownTurn ray r).AvoidsFriends b c
  | [], r, avoids => avoids
  | s :: rest, r, avoids => by
    unfold rayReach
    split
    · rename_i empty
      exact avoidsFriends_rayReach ownTurn rest _
        (avoids.insert fun p held => by simp [empty] at held)
    · rename_i p held
      split
      · exact avoids
      · rename_i enemy
        have reached : AvoidsFriends b c { r with targets := r.targets.insert s } :=
          avoids.insert fun q held' => by
            rw [held, Option.some.injEq] at held'
            exact held' ▸ enemy
        dsimp only
        split
        · exact reached
        · exact avoidsFriends_rayReach ownTurn rest _ reached

theorem avoidsFriends_slideReach (origin : Square) (dirs : List Direction) :
    (b.slideReach origin c dirs).AvoidsFriends b c := by
  unfold slideReach
  exact List.foldl_keeps _ (fun r d _ avoids => avoidsFriends_rayReach _ _ r avoids) _
    avoidsFriends_empty

theorem avoidsFriends_pawnReach (origin : Square) : (b.pawnReach origin c).AvoidsFriends b c := by
  unfold pawnReach
  refine List.foldl_keeps _ (fun r s _ avoids => ?captures) _ ?pushes
  case captures =>
    split
    · rename_i p held
      split
      · exact avoids
      · rename_i enemy
        exact avoids.insert fun q held' => by
          rw [held, Option.some.injEq] at held'
          exact held' ▸ enemy
    · rename_i empty
      split
      · exact avoids.insert fun q held => by simp [empty] at held
      · exact avoids
  case pushes =>
    split
    · rename_i one _
      split
      · exact avoidsFriends_empty
      · rename_i free
        have single : AvoidsFriends b c { targets := SquareSet.single one, quiet := SquareSet.single one } := by
          intro s member p held
          simp only [SquareSet.contains_single, decide_eq_true_eq] at member
          subst member
          simp [pieceAt?, Option.not_isSome_iff_eq_none.mp free] at held
        dsimp only
        split
        · split
          · split
            · exact single
            · rename_i two _ free'
              exact single.insert fun p held => by
                simp [pieceAt?, Option.not_isSome_iff_eq_none.mp free'] at held
          · exact single
        · exact single
    · exact avoidsFriends_empty

theorem avoidsFriends_rawReach (p : Piece) : (b.rawReach p).AvoidsFriends b p.color := by
  unfold rawReach
  split
  · split
    · exact avoidsFriends_empty
    · split
      · exact avoidsFriends_pawnReach _
      · exact avoidsFriends_stepReach _
      · exact avoidsFriends_stepReach _
      · exact avoidsFriends_slideReach _ _
  · exact avoidsFriends_empty

theorem rank_of_pawnReach {origin s : Square}
    (member : (b.pawnReach origin c).targets.contains s = true) :
    (s.rank.index.val : Int) = origin.rank.index.val + c.forward ∨
      (s.rank.index.val : Int) = origin.rank.index.val + 2 * c.forward := by
  let Ahead (r : Reach) : Prop := ∀ s, r.targets.contains s = true →
    (s.rank.index.val : Int) = origin.rank.index.val + c.forward ∨
      (s.rank.index.val : Int) = origin.rank.index.val + 2 * c.forward
  have insert : ∀ r : Reach, Ahead r → ∀ t, (origin.pawnAttacks c).contains t = true →
      Ahead { r with targets := r.targets.insert t } := by
    intro r ahead t attack x member
    rw [SquareSet.contains_insert, Bool.or_eq_true, decide_eq_true_eq] at member
    rcases member with earlier | rfl
    · exact ahead x earlier
    · exact Or.inl (Square.rank_of_mem_pawnAttacks attack)
  suffices ahead : Ahead (b.pawnReach origin c) from ahead s member
  unfold pawnReach
  refine List.foldl_keeps _ (fun r t attack ahead => ?_) _ ?_
  · rw [SquareSet.mem_toList] at attack
    split
    · split
      · exact ahead
      · exact insert r ahead t attack
    · split
      · exact insert r ahead t attack
      · exact ahead
  · split
    · rename_i one first
      have rankOne := Square.rank_of_offset? first
      have single : Ahead { targets := SquareSet.single one, quiet := SquareSet.single one } := by
        intro s member
        simp only [SquareSet.contains_single, decide_eq_true_eq] at member
        subst member
        exact Or.inl rankOne
      split
      · intro s member
        simp at member
      · dsimp only
        split
        · split
          · rename_i two second
            have rankTwo := Square.rank_of_offset? second
            split
            · exact single
            · intro s member
              simp only [SquareSet.contains_insert, Bool.or_eq_true, decide_eq_true_eq] at member
              rcases member with earlier | rfl
              · exact single s earlier
              · right
                omega
          · exact single
        · exact single
    · intro s member
      simp at member

theorem rank_ne_back_of_pawnReach {origin s : Square}
    (member : (b.pawnReach origin c).targets.contains s = true) : s.rank ≠ Rank.back c := by
  have ahead := rank_of_pawnReach member
  have below := s.rank.index.isLt
  have above := origin.rank.index.isLt
  intro onBack
  cases c <;> simp only [onBack, Rank.back, Color.forward] at ahead <;> omega

theorem rank_ne_back_of_rawReach {p : Piece} (pawn : p.kind = .pawn) {s : Square}
    (member : (b.rawReach p).targets.contains s = true) : s.rank ≠ Rank.back p.color := by
  unfold rawReach at member
  split at member
  · split at member
    · simp at member
    · rw [pawn] at member
      exact rank_ne_back_of_pawnReach member
  · simp at member

end Board

end Chess
