import Chess.Proofs.Rules.Pins
import Chess.Proofs.Rules.Movement

namespace Chess

/-! What the passes of regeneration keep of the targets of the side to move, each pass read as a
condition on one square. The king keeps the squares the other side neither attacks nor guards;
another piece keeps its raw targets that lie on the line of each slider pinning it, that answer
the one check if there is one, none in double check, and drops an en-passant capture that would
leave its king attacked. Main statements: the targets the passes leave a piece other than the
king (`contains_targets_settle`) and the king (`contains_king_targets_settle`). -/

theorem List.foldl_iff_and_forall {α β : Type} {f : β → α → β} (P : β → Prop) (R : α → Prop)
    (step : ∀ r a, P (f r a) ↔ P r ∧ ¬R a) :
    ∀ (l : List α) (r : β), P (l.foldl f r) ↔ P r ∧ ∀ a ∈ l, ¬R a
  | [], r => by simp
  | a :: l, r => by
    rw [List.foldl_cons, List.foldl_iff_and_forall P R step l, step]
    simp only [List.mem_cons, forall_eq_or_imp, and_assoc]

namespace Board

/-- How the check pass reads a move of a piece of kind `k` from `o` to `w` against the check
given from `x` to the king on `κ`: it takes the checker, stands between a checking slider and
the king, or is a pawn's en-passant capture of the checker. -/
def Resolves (b : Board) (κ x o w : Square) (k : PieceKind) : Prop :=
  w = x ∨ ((∃ q, b.pieceAt? x = some q ∧ q.kind.slides = true) ∧ x.StrictlyBetween κ w) ∨
    (k = .pawn ∧ b.occupant w = none ∧ b.enPassantVictim? o w b.side = some x)

/-- How the en-passant pass reads a pawn's move from `o` to `w`: an en-passant capture after
which the attack test, on the occupancy with the pawn moved and the taken pawn gone, finds the
king on `κ` attacked. -/
def ExposesByPassant (b : Board) (κ o w : Square) : Prop :=
  w.file ≠ o.file ∧ b.occupant w = none ∧ ∃ v, b.enPassantVictim? o w b.side = some v ∧
    b.isAttackedWith κ b.side.opponent (((b.occupancy.erase o).erase v).insert w) = true

section Bare

variable {z b : Board} (same : z.bare = b.bare) (κ x o w : Square)
include same

theorem resolves_of_bare (k : PieceKind) : z.Resolves κ x o w k ↔ b.Resolves κ x o w k := by
  have agree := Agree.of_bare same
  have slider : (∃ q, z.pieceAt? x = some q ∧ q.kind.slides = true) ↔
      ∃ q, b.pieceAt? x = some q ∧ q.kind.slides = true := by
    rcases agree.pieceAt?_cases x with ⟨none, none'⟩ | ⟨p, q, held, held', kind, -⟩
    · simp [none, none']
    · simp [held, held', kind]
  simp only [Resolves, slider, agree.occupant, agree.enPassantVictim?, agree.side]

theorem exposesByPassant_of_bare : z.ExposesByPassant κ o w ↔ b.ExposesByPassant κ o w := by
  have agree := Agree.of_bare same
  simp only [ExposesByPassant, agree.occupant, agree.enPassantVictim?, agree.side, agree.occupancy,
    agree.isAttackedWith]

end Bare

variable {b : Board} {κ o w x : Square} {p : Piece}

theorem contains_keptInCheck :
    (b.keptInCheck κ x o p).contains w = true ↔ p.targets.contains w = true ∧
      b.Resolves κ x o w p.kind := by
  unfold keptInCheck Resolves
  extract_lets allowed kept
  have allowed_iff : allowed.contains w = true ↔
      w = x ∨ ((∃ q, b.pieceAt? x = some q ∧ q.kind.slides = true) ∧ x.StrictlyBetween κ w) := by
    simp only [allowed]
    cases held : b.pieceAt? x with
    | none => simp
    | some q =>
      by_cases slides : q.kind.slides = true
      · simp [slides, Square.contains_between_iff]
      · simp [slides]
  have kept_iff : kept.contains w = true ↔ p.targets.contains w = true ∧ allowed.contains w = true := by
    simp [kept]
  split
  · rename_i pawn
    rw [List.foldl_iff_or_exists (fun r : SquareSet => r.contains w = true)
      (fun s => w = s ∧ b.occupant s = none ∧ b.enPassantVictim? o s b.side = some x) fun r s => by
        by_cases taken : (b.occupant s).isNone = true ∧ b.enPassantVictim? o s b.side = some x
        · rw [if_pos taken, SquareSet.contains_insert]
          simp [Option.isNone_iff_eq_none.mp taken.1, taken.2]
        · rw [if_neg taken]
          simp only [Option.isNone_iff_eq_none] at taken
          constructor
          · exact Or.inl
          · rintro (kept | ⟨rfl, empty, victim⟩)
            · exact kept
            · exact absurd ⟨empty, victim⟩ taken]
    simp only [kept_iff, allowed_iff, SquareSet.mem_toList, SquareSet.contains_diff, pawn, true_and]
    constructor
    · rintro (⟨target, allowed⟩ | ⟨s, member, rfl, empty, victim⟩)
      · exact ⟨target, allowed.elim Or.inl (Or.inr ∘ Or.inl)⟩
      · simp only [Bool.and_eq_true, Bool.not_eq_true'] at member
        exact ⟨member.1, Or.inr (Or.inr ⟨empty, victim⟩)⟩
    · rintro ⟨target, same | slider | ⟨empty, victim⟩⟩
      · exact Or.inl ⟨target, Or.inl same⟩
      · exact Or.inl ⟨target, Or.inr slider⟩
      · by_cases allowed : w = x ∨ ((∃ q, b.pieceAt? x = some q ∧ q.kind.slides = true) ∧
            x.StrictlyBetween κ w)
        · exact Or.inl ⟨target, allowed⟩
        · refine Or.inr ⟨w, ?_, rfl, empty, victim⟩
          simp only [Bool.and_eq_true, Bool.not_eq_true', target, true_and]
          exact Bool.eq_false_iff.mpr fun inside => allowed (allowed_iff.mp inside)
  · rename_i notPawn
    rw [kept_iff, allowed_iff]
    simp [notPawn]

theorem contains_keptAfterEnPassant (occ : SquareSet) :
    (b.keptAfterEnPassant κ occ o p).contains w = true ↔ p.targets.contains w = true ∧
      ¬(w.file ≠ o.file ∧ b.occupant w = none ∧ ∃ v, b.enPassantVictim? o w b.side = some v ∧
        b.isAttackedWith κ b.side.opponent (((occ.erase o).erase v).insert w) = true) := by
  unfold keptAfterEnPassant
  rw [List.foldl_iff_and_forall (fun r : SquareSet => r.contains w = true)
    (fun s => w = s ∧ s.file ≠ o.file ∧ b.occupant s = none ∧ ∃ v, b.enPassantVictim? o s b.side = some v ∧
      b.isAttackedWith κ b.side.opponent (((occ.erase o).erase v).insert s) = true) fun r s => ?_]
  · simp only [SquareSet.mem_toList]
    constructor
    · rintro ⟨target, kept⟩
      exact ⟨target, fun dropped => kept w target ⟨rfl, dropped⟩⟩
    · rintro ⟨target, kept⟩
      exact ⟨target, fun s _ dropped => kept (dropped.1 ▸ dropped.2)⟩
  · by_cases stays : s.file = o.file ∨ (b.occupant s).isSome = true
    · rw [if_pos stays]
      have quiet : ¬(s.file ≠ o.file ∧ b.occupant s = none) := by
        rintro ⟨file, empty⟩
        rcases stays with same | occupied
        · exact file same
        · simp [empty] at occupied
      constructor
      · exact fun kept => ⟨kept, fun dropped => quiet ⟨dropped.2.1, dropped.2.2.1⟩⟩
      · exact fun kept => kept.1
    · rw [if_neg stays]
      simp only [not_or, Option.isSome_eq_false_iff, Option.isNone_iff_eq_none, Bool.not_eq_true]
        at stays
      cases victim : b.enPassantVictim? o s b.side with
      | none => simp
      | some v =>
        dsimp only
        by_cases exposed : b.isAttackedWith κ b.side.opponent (((occ.erase o).erase v).insert s) = true
        · simp only [exposed, if_true, SquareSet.contains_erase, Bool.and_eq_true, Bool.not_eq_true',
            decide_eq_false_iff_not, ne_eq, stays, not_false_eq_true, Option.some.injEq, exists_eq_left',
            and_true]
        · simp [exposed]

/-! ### Each pass, read on one piece -/

section Pass

variable (z : Board) {K id : PieceId} {them : Color}

theorem targets_keepKingSafe_of_ne (other : id ≠ K) :
    ((z.keepKingSafe K them).piece id).targets = (z.piece id).targets := by
  simp [keepKingSafe, Board.piece, other]

theorem contains_targets_keepKingSafe :
    ((z.keepKingSafe K them).piece K).targets.contains w = true ↔
      (z.piece K).targets.contains w = true ∧ z.isThreatened w them = false ∧
        z.isGuarded w them = false := by
  simp only [keepKingSafe, Board.piece, piece?_modifyPiece, if_true]
  cases found : z.piece? K with
  | none => simp
  | some q => simp

theorem contains_targets_restrictPins (κ : Square) :
    ((z.restrictPins κ them).piece id).targets.contains w = true ↔
      (z.piece id).targets.contains w = true ∧ ((z.roster them).toList.all fun e =>
        (z.pinOf? κ them e).all fun pin => pin.1 ≠ id || pin.2.contains w) = true := by
  simp only [Board.piece, piece?_restrictPins]
  cases z.piece? id with
  | none => simp
  | some q => simp

variable (nodup : (z.roster z.side).toList.Nodup) (member : id ∈ z.roster z.side)
include nodup member

theorem contains_targets_restrictToCheckResolutions (other : id ≠ K)
    (at_ : (z.piece id).square = some o) (κ x : Square) :
    ((z.restrictToCheckResolutions K κ x).piece id).targets.contains w = true ↔
      (z.piece id).targets.contains w = true ∧ z.Resolves κ x o w (z.piece id).kind := by
  have found : (z.piece? id).isSome := by
    cases found : z.piece? id with
    | none => simp [Board.piece, found] at at_
    | some q => rfl
  obtain ⟨q, found⟩ := Option.isSome_iff_exists.mp found
  rw [piece_eq_of_piece? z found] at at_ ⊢
  simp only [Board.piece, piece?_restrictToCheckResolutions _ nodup, found, Option.map_some,
    Option.getD_some, Array.mem_toList_iff.mpr member, if_true, inCheckStep, at_, other, if_false]
  exact contains_keptInCheck

theorem targets_freezeAllBut (other : id ≠ K) :
    ((z.freezeAllBut K).piece id).targets = SquareSet.empty := by
  simp only [Board.piece, piece?_freezeAllBut _ nodup, Array.mem_toList_iff.mpr member, other,
    ne_eq, not_false_eq_true, and_self, if_true]
  cases z.piece? id <;> rfl

theorem contains_targets_dropExposingEnPassant (at_ : (z.piece id).square = some o) (κ : Square) :
    ((z.dropExposingEnPassant κ).piece id).targets.contains w = true ↔
      (z.piece id).targets.contains w = true ∧ ((z.piece id).kind = .pawn → ¬z.ExposesByPassant κ o w) := by
  have found : (z.piece? id).isSome := by
    cases found : z.piece? id with
    | none => simp [Board.piece, found] at at_
    | some q => rfl
  obtain ⟨q, found⟩ := Option.isSome_iff_exists.mp found
  rw [piece_eq_of_piece? z found] at at_ ⊢
  simp only [Board.piece, piece?_dropExposingEnPassant _ nodup, found, Option.map_some,
    Option.getD_some, Array.mem_toList_iff.mpr member, if_true, enPassantStep, at_]
  by_cases pawn : q.kind = .pawn
  · simp only [pawn, ne_eq, not_true_eq_false, if_false, forall_const]
    exact contains_keptAfterEnPassant z.occupancy
  · simp [pawn]

omit member in
theorem targets_restrictToCheckResolutions_king (κ x : Square) :
    ((z.restrictToCheckResolutions K κ x).piece K).targets = (z.piece K).targets := by
  simp only [Board.piece, piece?_restrictToCheckResolutions _ nodup]
  cases z.piece? K with
  | none => rfl
  | some q =>
    simp only [Option.map_some, Option.getD_some, inCheckStep, if_true]
    split
    · split <;> rfl
    · rfl

omit member in
theorem targets_freezeAllBut_king : ((z.freezeAllBut K).piece K).targets = (z.piece K).targets := by
  simp only [Board.piece, piece?_freezeAllBut _ nodup, ne_eq, not_true_eq_false, and_false, if_false]
  cases z.piece? K <;> rfl

omit member in
theorem targets_dropExposingEnPassant_of_ne_pawn (notPawn : (z.piece id).kind ≠ .pawn) (κ : Square) :
    ((z.dropExposingEnPassant κ).piece id).targets = (z.piece id).targets := by
  cases found : z.piece? id with
  | none => simp [Board.piece, piece?_dropExposingEnPassant _ nodup, found]
  | some q =>
    rw [piece_eq_of_piece? z found] at notPawn ⊢
    simp only [Board.piece, piece?_dropExposingEnPassant _ nodup, found, Option.map_some,
      Option.getD_some, enPassantStep]
    split
    · split <;> rfl
    · rfl

end Pass

theorem targets_addCastles (x : Board) (K id : PieceId) :
    ((x.addCastles K).piece id).targets = (x.piece id).targets := by
  unfold Board.addCastles
  refine List.foldl_keeps (P := fun a => (a.piece id).targets = (x.piece id).targets) _
    (fun a side _ kept => ?_) x rfl
  dsimp only
  split
  · split
    · cases side <;>
      · rw [← kept]
        simp only [Board.piece, piece?_modifyPiece_map]
        change Piece.targets ((Option.map _ (a.piece? id)).getD default) =
          ((a.piece? id).getD default).targets
        cases a.piece? id with
        | none => rfl
        | some q => simp only [Option.map_some, Option.getD_some]; split <;> rfl
    · exact kept
  · exact kept

theorem targets_castlePass (P : Prop) [Decidable P] (z : Board) (K id : PieceId) :
    ((if P then z.addCastles K else z).piece id).targets = (z.piece id).targets := by
  split
  · exact targets_addCastles z K id
  · rfl

/-! ### All passes together -/

/-- What the passes after the raw reach keep of the targets of a piece of the side to move
other than its king: those that keep to the line of every pin, answer the one check there is,
if any, and do not expose the king by an en-passant capture. -/
theorem contains_targets_settle (x : Board) {K id : PieceId}
    (nodup : (x.roster x.side).toList.Nodup) (member : id ∈ x.roster x.side) (other : id ≠ K)
    (at_ : (x.piece id).square = some o) :
    ((x.settle K κ).piece id).targets.contains w = true ↔
      (x.piece id).targets.contains w = true ∧
      ((x.roster x.side.opponent).toList.all fun e =>
        (x.pinOf? κ x.side.opponent e).all fun pin => pin.1 ≠ id || pin.2.contains w) = true ∧
      (∀ c, (x.settle K κ).status.checkers.contains c = true → x.Resolves κ c o w (x.piece id).kind) ∧
      (∀ c c', (x.settle K κ).status.checkers.contains c = true →
        (x.settle K κ).status.checkers.contains c' = true → c = c') ∧
      ((x.piece id).kind = .pawn → ¬x.ExposesByPassant κ o w) := by
  have carry {z : Board} (bare : z.bare = x.bare) : (z.roster z.side).toList.Nodup ∧
      id ∈ z.roster z.side ∧ (z.piece id).square = some o ∧ (z.piece id).kind = (x.piece id).kind := by
    refine ⟨?_, ?_, ?_, ?_⟩
    · rw [roster_of_bare bare, side_of_bare bare]
      exact nodup
    · rw [roster_of_bare bare, side_of_bare bare]
      exact member
    · rw [square_piece_of_bare bare]
      exact at_
    · rw [← Piece.bare_kind, piece_bare_of_bare bare, Piece.bare_kind]
  rw [(status_settle x K κ).2]
  unfold settle
  dsimp only
  generalize pinned : (x.keepKingSafe K x.side.opponent).restrictPins κ x.side.opponent = a
  have bare : a.bare = x.bare := pinned ▸ (bare_restrictPins _ _ _).trans (bare_keepKingSafe _ _ _)
  have targets : (a.piece id).targets.contains w = true ↔ (x.piece id).targets.contains w = true ∧
      ((x.roster x.side.opponent).toList.all fun e =>
        (x.pinOf? κ x.side.opponent e).all fun pin => pin.1 ≠ id || pin.2.contains w) = true := by
    rw [← pinned, contains_targets_restrictPins, targets_keepKingSafe_of_ne _ other,
      roster_of_bare (bare_keepKingSafe _ _ _)]
    simp only [pinOf?_of_bare _ (bare_keepKingSafe _ _ _)]
  generalize SquareSet.ofList ((a.threatsTo κ x.side.opponent).filterMap
    fun id => (a.piece id).square) = checkers
  generalize staged : ({ a with status := { a.status with hasKing := true, checkers } } : Board) = y
  have bareStaged : y.bare = x.bare := staged ▸ (bare_setStatus _ _).trans bare
  have targetsStaged : y.piece id = a.piece id := staged ▸ rfl
  rw [piece_setStatus, targets_castlePass]
  split
  · rename_i calm
    have absent (c : Square) : checkers.contains c = false := by
      rw [← Bool.not_eq_true, ← SquareSet.mem_toList, calm]
      exact List.not_mem_nil
    obtain ⟨nodupY, memberY, atY, kindY⟩ := carry bareStaged
    rw [contains_targets_dropExposingEnPassant y nodupY memberY atY, kindY, targetsStaged, targets,
      exposesByPassant_of_bare bareStaged]
    simp only [absent, Bool.false_eq_true, false_implies, implies_true, true_and, and_assoc]
  · rename_i c single
    have checking (c' : Square) : checkers.contains c' = true ↔ c' = c := by
      rw [← SquareSet.mem_toList, single, List.mem_singleton]
    have bareResolved := (bare_restrictToCheckResolutions y K κ c).trans bareStaged
    obtain ⟨nodupR, memberR, atR, kindR⟩ := carry bareResolved
    obtain ⟨nodupY, memberY, atY, kindY⟩ := carry bareStaged
    rw [contains_targets_dropExposingEnPassant _ nodupR memberR atR, kindR,
      contains_targets_restrictToCheckResolutions y nodupY memberY other atY, kindY, targetsStaged,
      targets, exposesByPassant_of_bare bareResolved, resolves_of_bare bareStaged]
    simp only [checking, forall_eq, and_assoc]
    constructor
    · rintro ⟨raw, pins, answers, passant⟩
      exact ⟨raw, pins, answers, fun _ _ first second => first.trans second.symm, passant⟩
    · rintro ⟨raw, pins, answers, -, passant⟩
      exact ⟨raw, pins, answers, passant⟩
  · rename_i notCalm notSingle
    obtain ⟨c, c', rest, listed⟩ : ∃ c c' rest, checkers.toList = c :: c' :: rest := by
      cases listing : checkers.toList with
      | nil => exact absurd listing notCalm
      | cons c more =>
        cases more with
        | nil => exact absurd listing (notSingle c)
        | cons c' rest => exact ⟨c, c', rest, rfl⟩
    have differ : c ≠ c' := by
      have := SquareSet.toList_nodup checkers
      rw [listed] at this
      exact fun same => (List.nodup_cons.mp this).1 (same ▸ List.mem_cons_self)
    have bareFrozen := (bare_freezeAllBut y K).trans bareStaged
    obtain ⟨nodupF, memberF, atF, -⟩ := carry bareFrozen
    obtain ⟨nodupY, memberY, -, -⟩ := carry bareStaged
    rw [contains_targets_dropExposingEnPassant _ nodupF memberF atF, targets_freezeAllBut y nodupY memberY other]
    have first : checkers.contains c = true := by rw [← SquareSet.mem_toList, listed]; simp
    have second : checkers.contains c' = true := by rw [← SquareSet.mem_toList, listed]; simp
    simp only [SquareSet.contains_empty, Bool.false_eq_true, false_and, false_iff, not_and]
    exact fun _ _ _ single => absurd (single c c' first second) differ

theorem contains_king_targets_settle (x : Board) (coherent : x.Coherent) {K : PieceId}
    (hasKing : x.king x.side = some K) (stands : (x.piece K).square = some κ) :
    ((x.settle K κ).piece K).targets.contains w = true ↔
      (x.piece K).targets.contains w = true ∧ x.isThreatened w x.side.opponent = false ∧
        x.isGuarded w x.side.opponent = false := by
  have kind := ((coherent.king_iff _ K).mp hasKing).2
  have carry {z : Board} (bare : z.bare = x.bare) : (z.roster z.side).toList.Nodup ∧
      (z.piece K).kind ≠ .pawn ∧ z.Coherent ∧ z.occupant κ = some K := by
    refine ⟨?_, ?_, Coherent.of_bare bare coherent, ?_⟩
    · rw [roster_of_bare bare, side_of_bare bare]
      exact coherent.nodup _
    · rw [← Piece.bare_kind, piece_bare_of_bare bare, Piece.bare_kind, kind]
      exact fun same => by cases same
    · rw [occupant_of_bare bare]
      exact coherent.occupant_of_square stands
  unfold settle
  dsimp only
  have bareSafe := bare_keepKingSafe x K x.side.opponent
  obtain ⟨-, -, coherentSafe, kingSafe⟩ := carry bareSafe
  have unpinned : (((x.keepKingSafe K x.side.opponent).restrictPins κ x.side.opponent).piece
      K).targets.contains w = ((x.keepKingSafe K x.side.opponent).piece K).targets.contains w := by
    rw [Bool.eq_iff_iff, contains_targets_restrictPins, and_iff_left_iff_imp]
    refine fun _ => List.all_eq_true.mpr fun e _ => ?_
    cases found : (x.keepKingSafe K x.side.opponent).pinOf? κ x.side.opponent e with
    | none => rfl
    | some pin => simp [pinOf?_ne_of_occupant coherentSafe kingSafe found]
  have kept : ((x.keepKingSafe K x.side.opponent).piece K).targets.contains w = true ↔
      (x.piece K).targets.contains w = true ∧ x.isThreatened w x.side.opponent = false ∧
        x.isGuarded w x.side.opponent = false :=
    contains_targets_keepKingSafe x
  generalize pinned : (x.keepKingSafe K x.side.opponent).restrictPins κ x.side.opponent = a at unpinned
  have bare : a.bare = x.bare := pinned ▸ (bare_restrictPins _ _ _).trans bareSafe
  generalize SquareSet.ofList ((a.threatsTo κ x.side.opponent).filterMap
    fun id => (a.piece id).square) = checkers
  generalize staged : ({ a with status := { a.status with hasKing := true, checkers } } : Board) = y
  have bareStaged : y.bare = x.bare := staged ▸ (bare_setStatus _ _).trans bare
  have found : (y.piece K).targets.contains w = true ↔ (x.piece K).targets.contains w = true ∧
      x.isThreatened w x.side.opponent = false ∧ x.isGuarded w x.side.opponent = false := by
    rw [← staged, piece_setStatus, unpinned, kept]
  obtain ⟨nodupY, -, -, -⟩ := carry bareStaged
  rw [piece_setStatus, targets_castlePass]
  split
  · obtain ⟨nodupD, notPawnD, -, -⟩ := carry bareStaged
    rw [targets_dropExposingEnPassant_of_ne_pawn _ nodupD notPawnD]
    exact found
  · rename_i c _
    obtain ⟨nodupD, notPawnD, -, -⟩ := carry ((bare_restrictToCheckResolutions y K κ c).trans bareStaged)
    rw [targets_dropExposingEnPassant_of_ne_pawn _ nodupD notPawnD,
      targets_restrictToCheckResolutions_king y nodupY]
    exact found
  · obtain ⟨nodupD, notPawnD, -, -⟩ := carry ((bare_freezeAllBut y K).trans bareStaged)
    rw [targets_dropExposingEnPassant_of_ne_pawn _ nodupD notPawnD, targets_freezeAllBut_king y nodupY]
    exact found

end Board

end Chess
