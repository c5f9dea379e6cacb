import Mathlib
import Chess.Proofs.Board.Cached
import Chess.Proofs.Board.Origin
import Chess.Proofs.Geometry.Line
import Chess.Proofs.Move.Line

namespace Chess

/-! Threats against a square, found two ways. Regeneration records on every piece the squares
it attacks and the friends it guards, walking outward from the piece; the attack test behind
castling and en-passant exposure walks outward from the square instead, through a given
occupancy, to the sliders, knights, kings and pawns that see it. For the side not to move the
two agree on a settled board, once the occupancy leaves out the king of the side to move: that
side's sliders see through it, and its pawns bear on every diagonal square ahead.

Main statement: `threatened_or_guarded_iff_attacked`. -/

namespace Reach

def reaches (r : Reach) (s : Square) : Bool := r.targets.contains s || r.guards.contains s

@[simp] theorem reaches_empty (s : Square) : ({} : Reach).reaches s = false := by
  simp [reaches]

@[simp] theorem reaches_insert_target (r : Reach) (t s : Square) :
    ({ r with targets := r.targets.insert t } : Reach).reaches s = (r.reaches s || decide (s = t)) := by
  simp only [reaches, SquareSet.contains_insert]
  ac_rfl

@[simp] theorem reaches_insert_guard (r : Reach) (t s : Square) :
    ({ r with guards := r.guards.insert t } : Reach).reaches s = (r.reaches s || decide (s = t)) := by
  simp only [reaches, SquareSet.contains_insert]
  ac_rfl

/-- A pawn's reach in the making: its pushes stay on its file, and it guards and otherwise goes
to squares of `diagonals` only. -/
def PawnShaped (origin : Square) (diagonals : SquareSet) (r : Reach) : Prop :=
  (∀ u, r.quiet.contains u = true → u.file = origin.file) ∧
    (∀ u, r.guards.contains u = true → diagonals.contains u = true) ∧
    ∀ u, r.targets.contains u = true → diagonals.contains u = true ∨ r.quiet.contains u = true

variable {origin t : Square} {diagonals : SquareSet} {r : Reach}

theorem PawnShaped.insert_target (shaped : r.PawnShaped origin diagonals)
    (ahead : diagonals.contains t = true) :
    ({ r with targets := r.targets.insert t } : Reach).PawnShaped origin diagonals := by
  obtain ⟨quiet, guards, targets⟩ := shaped
  refine ⟨quiet, guards, fun u member => ?_⟩
  rcases (by simpa using member : r.targets.contains u = true ∨ u = t) with earlier | rfl
  · exact targets u earlier
  · exact Or.inl ahead

theorem PawnShaped.insert_guard (shaped : r.PawnShaped origin diagonals)
    (ahead : diagonals.contains t = true) :
    ({ r with guards := r.guards.insert t } : Reach).PawnShaped origin diagonals := by
  obtain ⟨quiet, guards, targets⟩ := shaped
  refine ⟨quiet, fun u member => ?_, targets⟩
  rcases (by simpa using member : r.guards.contains u = true ∨ u = t) with earlier | rfl
  · exact guards u earlier
  · exact ahead

end Reach

theorem Color.ne_opponent (c : Color) : c ≠ c.opponent := by
  cases c <;> decide

namespace Board

open Reach

variable {b : Board} {c : Color} {s : Square}

def Passable (b : Board) (c : Color) (u : Square) : Prop :=
  ∀ p, b.pieceAt? u = some p → p.color ≠ c ∧ p.kind = .king

def occupancyWithoutKing (b : Board) (c : Color) : SquareSet :=
  (b.kingSquare c).elim b.occupancy b.occupancy.erase

theorem contains_occupancy (u : Square) : b.occupancy.contains u = (b.occupant u).isSome := by
  have listed : u ∈ Square.all := List.mem_map.mpr ⟨u.index, List.mem_finRange _, rfl⟩
  simp [occupancy, listed]

theorem contains_occupancyWithoutKing (u : Square) :
    (b.occupancyWithoutKing c).contains u = ((b.occupant u).isSome && b.kingSquare c != some u) := by
  unfold occupancyWithoutKing
  cases b.kingSquare c with
  | none => simp [contains_occupancy]
  | some k =>
    simp only [Option.elim_some, SquareSet.contains_erase, contains_occupancy]
    by_cases same : u = k
    · simp [same]
    · simp [same, Ne.symm same]

theorem Coherent.passable_iff (coherent : b.Coherent) (c : Color) (u : Square) :
    b.Passable c.opponent u ↔ (b.occupancyWithoutKing c).contains u = false := by
  rw [contains_occupancyWithoutKing]
  cases held : b.occupant u with
  | none =>
    simp only [Option.isSome_none, Bool.false_and, iff_true]
    intro p found
    simp [pieceAt?, held] at found
  | some id =>
    have piece : b.pieceAt? u = some (b.piece id) := by simp [pieceAt?, held]
    simp only [Option.isSome_some, Bool.true_and, bne_eq_false_iff_eq,
      coherent.kingSquare_eq_some_iff, held, Option.some.injEq, exists_eq_left']
    constructor
    · intro passable
      obtain ⟨color, king⟩ := passable _ piece
      exact ⟨king, Color.eq_of_ne_opponent color⟩
    · rintro ⟨king, color⟩ p found
      rw [piece, Option.some.injEq] at found
      subst found
      exact ⟨by rw [color]; exact Color.ne_opponent c, king⟩

theorem Coherent.contains_occupancyWithoutKing (coherent : b.Coherent) {t : Square} {id : PieceId}
    (held : b.occupant t = some id) (color : (b.piece id).color ≠ c) :
    (b.occupancyWithoutKing c).contains t = true := by
  rw [Board.contains_occupancyWithoutKing, held]
  simp only [Option.isSome_some, Bool.true_and, bne_iff_ne, ne_eq,
    coherent.kingSquare_eq_some_iff, held, Option.some.injEq, exists_eq_left', not_and]
  exact fun _ same => color same

/-! ### What the raw reach bears on -/

theorem reaches_stepReach (steps : SquareSet) (s : Square) :
    (b.stepReach steps c).reaches s = steps.contains s := by
  unfold stepReach
  rw [Bool.eq_iff_iff, List.foldl_iff_or_exists (fun r : Reach => r.reaches s = true) (s = ·)
    fun r t => ?_]
  · simp
  · split
    · split <;> simp
    · simp

theorem reaches_rayReach_of_reaches (ownTurn : Bool) :
    ∀ (ray : List Square) (r : Reach), r.reaches s = true →
      (b.rayReach c ownTurn ray r).reaches s = true
  | [], _, kept => kept
  | t :: rest, r, kept => by
    unfold rayReach
    split
    · exact reaches_rayReach_of_reaches ownTurn rest _ (by simp [kept])
    · split
      · simp [kept]
      · dsimp only
        split
        · simp [kept]
        · exact reaches_rayReach_of_reaches ownTurn rest _ (by simp [kept])

/-- Along a ray, a piece of the side not to move goes to or guards a square exactly when every
square before it is passable: a friend is guarded and stops the ray, an enemy is reached and
stops it, the enemy king excepted. -/
theorem reaches_rayReach_iff :
    ∀ (ray : List Square) (r : Reach), (b.rayReach c false ray r).reaches s = true ↔
      r.reaches s = true ∨ (s ∈ ray ∧ ∀ u ∈ ray.takeWhile (· ≠ s), b.Passable c u)
  | [], r => by simp [rayReach]
  | t :: rest, r => by
    by_cases here : t = s
    · subst here
      have start : (t :: rest).takeWhile (· ≠ t) = [] := by simp
      simp only [start, List.mem_cons, true_or, List.not_mem_nil, IsEmpty.forall_iff,
        implies_true, and_self, or_true, iff_true]
      unfold rayReach
      split
      · exact reaches_rayReach_of_reaches false rest _ (by simp)
      · split
        · simp
        · dsimp only
          split
          · simp
          · exact reaches_rayReach_of_reaches false rest _ (by simp)
    · have before : (t :: rest).takeWhile (· ≠ s) = t :: rest.takeWhile (· ≠ s) := by
        simp [here]
      rw [before]
      unfold rayReach
      cases found : b.pieceAt? t with
      | none =>
        rw [reaches_rayReach_iff rest]
        simp [Passable, found, Ne.symm here]
      | some p =>
        dsimp only
        by_cases friend : p.color = c
        · simp [friend, Passable, found, Ne.symm here]
        · rw [if_neg friend]
          by_cases king : p.kind = .king
          · rw [if_neg (by simp [king]), reaches_rayReach_iff rest]
            simp [Passable, found, friend, king, Ne.symm here]
          · rw [if_pos (Or.inr king)]
            simp [Passable, found, king, Ne.symm here]

theorem reaches_slideReach_iff (turn : b.side ≠ c) (origin : Square) (dirs : List Direction) :
    (b.slideReach origin c dirs).reaches s = true ↔
      ∃ d ∈ dirs, s ∈ origin.ray d ∧ ∀ u ∈ (origin.ray d).takeWhile (· ≠ s), b.Passable c u := by
  unfold slideReach
  rw [decide_eq_false turn, List.foldl_iff_or_exists (fun r : Reach => r.reaches s = true)
    (fun d => s ∈ origin.ray d ∧ ∀ u ∈ (origin.ray d).takeWhile (· ≠ s), b.Passable c u)
    fun r d => reaches_rayReach_iff _ r]
  simp

theorem pawnShaped_pawnReach (origin : Square) :
    (b.pawnReach origin c).PawnShaped origin (origin.pawnAttacks c) := by
  unfold pawnReach
  refine List.foldl_keeps _ (fun r t member shaped => ?diagonal) _ ?pushes
  case diagonal =>
    have ahead := (SquareSet.mem_toList _ _).mp member
    split
    · split
      · exact shaped.insert_guard ahead
      · exact shaped.insert_target ahead
    · split
      · exact shaped.insert_target ahead
      · exact shaped
  case pushes =>
    split
    · rename_i one first
      split
      · exact ⟨by simp, by simp, by simp⟩
      · have single : PawnShaped origin (origin.pawnAttacks c)
            { targets := SquareSet.single one, quiet := SquareSet.single one } :=
          ⟨fun u member => by simp at member; rw [member, Square.file_of_ahead first], by simp,
            fun u member => Or.inr member⟩
        dsimp only
        split
        · split
          · rename_i two second
            split
            · exact single
            · refine ⟨fun u member => ?_, by simp, fun u member => Or.inr (by simpa using member)⟩
              rcases (by simpa using member : u = one ∨ u = two) with rfl | rfl
              · exact Square.file_of_ahead first
              · rw [Square.file_of_ahead second, Square.file_of_ahead first]
          · exact single
        · exact single
    · exact ⟨by simp, by simp, by simp⟩

theorem reaches_pawnReach_of_diagonal (turn : b.side ≠ c) {origin : Square}
    (diagonal : (origin.pawnAttacks c).contains s = true) : (b.pawnReach origin c).reaches s = true := by
  unfold pawnReach
  refine List.foldl_of_mem (P := fun r : Reach => r.reaches s = true) (fun r t kept => ?_)
    (fun r => ?_) ((SquareSet.mem_toList _ _).mpr diagonal) _
  · split
    · split <;> simp [kept]
    · split
      · simp [kept]
      · exact kept
  · split
    · split <;> simp
    · simp [decide_eq_false turn]

theorem attacks_or_guards_pawnReach (turn : b.side ≠ c) (origin s : Square) :
    (((b.pawnReach origin c).targets \ (b.pawnReach origin c).quiet).contains s ||
      (b.pawnReach origin c).guards.contains s) = (origin.pawnAttacks c).contains s := by
  obtain ⟨quietFile, guardsAhead, targetsAhead⟩ := pawnShaped_pawnReach (b := b) (c := c) origin
  cases diagonal : (origin.pawnAttacks c).contains s with
  | true =>
    have notQuiet : (b.pawnReach origin c).quiet.contains s = false :=
      Bool.eq_false_iff.mpr fun quiet =>
        Square.file_ne_of_mem_pawnAttacks diagonal (quietFile s quiet)
    simpa [reaches, notQuiet] using reaches_pawnReach_of_diagonal turn diagonal
  | false =>
    have notGuarded : (b.pawnReach origin c).guards.contains s = false :=
      Bool.eq_false_iff.mpr fun guarded => by simpa [diagonal] using guardsAhead s guarded
    have quietIfTarget : (b.pawnReach origin c).targets.contains s = true →
        (b.pawnReach origin c).quiet.contains s = true := fun target => by
      simpa [diagonal] using targetsAhead s target
    cases target : (b.pawnReach origin c).targets.contains s with
    | false => simp [notGuarded, target]
    | true => simp [notGuarded, target, quietIfTarget target]

end Board

/-- Whether a piece on `origin` bears on `target` when the squares of `occ` block its slides:
along one of its directions with nothing of `occ` strictly between, by a knight's or king's
step, or by a pawn's step diagonally forward. -/
def Piece.Bears (q : Piece) (occ : SquareSet) (origin target : Square) : Prop :=
  (∃ d ∈ q.kind.directions, origin.Sees d occ target) ∨
    (q.kind = .knight ∧ origin.knightSteps.contains target = true) ∨
    (q.kind = .king ∧ origin.kingSteps.contains target = true) ∨
    (q.kind = .pawn ∧ (origin.pawnAttacks q.color).contains target = true)

namespace Board

variable {b : Board} {s : Square}

theorem attacks_or_guards_rawReach (coherent : b.Coherent) {q : Piece} {origin : Square}
    (color : q.color = b.side.opponent) (square : q.square = some origin)
    (standing : q.captured = false) (s : Square) :
    (((b.rawReach q).targets \ (b.rawReach q).quiet).contains s ||
      (b.rawReach q).guards.contains s) = true ↔ q.Bears (b.occupancyWithoutKing b.side) origin s := by
  have turn : b.side ≠ q.color := by
    rw [color]
    exact Color.ne_opponent _
  have slides (dirs : List Direction) : (((b.slideReach origin q.color dirs).targets \
      (b.slideReach origin q.color dirs).quiet).contains s ||
        (b.slideReach origin q.color dirs).guards.contains s) = true ↔
      ∃ d ∈ dirs, origin.Sees d (b.occupancyWithoutKing b.side) s := by
    have passable (u : Square) : b.Passable q.color u ↔
        (b.occupancyWithoutKing b.side).contains u = false :=
      color ▸ coherent.passable_iff b.side u
    have reached := reaches_slideReach_iff (s := s) turn origin dirs
    simp only [passable] at reached
    simp only [Square.sees_iff_ray, ← reached]
    simp [quiet_slideReach, Reach.reaches]
  have steps (steps : SquareSet) : (((b.stepReach steps q.color).targets \
      (b.stepReach steps q.color).quiet).contains s || (b.stepReach steps q.color).guards.contains s) =
        steps.contains s := by
    simpa [quiet_stepReach, Reach.reaches] using reaches_stepReach (b := b) (c := q.color) steps s
  simp only [rawReach, square, standing, Bool.false_eq_true, if_false]
  cases kind : q.kind <;> dsimp only
  case pawn =>
    rw [attacks_or_guards_pawnReach turn]
    simp [Piece.Bears, kind, PieceKind.directions]
  case knight =>
    rw [steps]
    simp [Piece.Bears, kind, PieceKind.directions]
  case king =>
    rw [steps]
    simp [Piece.Bears, kind, PieceKind.directions]
  all_goals
    rw [slides]
    simp [Piece.Bears, kind]

/-! ### The attack test -/

/-- The attack test finds exactly the pieces of colour `c` on squares of `occ` that bear on the
target through `occ`: it looks outward from the target, and each way of looking is a way of
bearing read backwards. -/
theorem isAttackedWith_iff (target : Square) (c : Color) (occ : SquareSet) :
    b.isAttackedWith target c occ = true ↔
      ∃ t q, b.pieceAt? t = some q ∧ occ.contains t = true ∧ q.color = c ∧ q.Bears occ t target := by
  unfold isAttackedWith
  extract_lets attacker firstOnRay isKind
  have attacker_eq (t : Square) (p : Piece) :
      attacker t = some p ↔ b.pieceAt? t = some p ∧ occ.contains t = true ∧ p.color = c := by
    simp only [attacker]
    cases inOcc : occ.contains t with
    | false => simp
    | true =>
      cases held : b.pieceAt? t with
      | none => simp
      | some q =>
        by_cases color : q.color = c <;> simp only [color, if_true, if_false] <;> simp <;>
          rintro rfl <;> exact color
  have isKind_eq (k : PieceKind) (t : Square) :
      isKind k t = true ↔ ∃ p, attacker t = some p ∧ p.kind = k := by
    simp only [isKind]
    cases attacker t <;> simp
  have firstOnRay_eq (d : Direction) : firstOnRay d = true ↔
      ∃ t p, (target.ray d).find? occ.contains = some t ∧ attacker t = some p ∧
        d ∈ p.kind.directions := by
    simp only [firstOnRay]
    cases (target.ray d).find? occ.contains with
    | none => simp
    | some t => cases found : attacker t <;> simp [found]
  simp only [Bool.or_eq_true, List.any_eq_true, SquareSet.mem_toList, firstOnRay_eq, isKind_eq,
    attacker_eq]
  constructor
  · rintro (((⟨d, -, t, p, found, ⟨held, inOcc, color⟩, dir⟩ | ⟨t, near, p, ⟨held, inOcc, color⟩, kind⟩) |
      ⟨t, near, p, ⟨held, inOcc, color⟩, kind⟩) | ⟨t, near, p, ⟨held, inOcc, color⟩, kind⟩)
    · have sees := Square.sees_comm.mp (Square.find?_ray_eq_some_iff.mp found).2
      exact ⟨t, p, held, inOcc, color,
        Or.inl ⟨d.opposite, (Direction.mem_directions_opposite _ d).mpr dir, sees⟩⟩
    · exact ⟨t, p, held, inOcc, color,
        Or.inr (Or.inl ⟨kind, by rwa [Square.knightSteps_contains_comm]⟩)⟩
    · exact ⟨t, p, held, inOcc, color,
        Or.inr (Or.inr (Or.inl ⟨kind, by rwa [Square.kingSteps_contains_comm]⟩))⟩
    · have back := Square.pawnAttacks_contains_comm (s := target) (t := t) c.opponent
      rw [Color.opponent_opponent, near, ← color] at back
      exact ⟨t, p, held, inOcc, color, Or.inr (Or.inr (Or.inr ⟨kind, back.symm⟩))⟩
  · rintro ⟨t, q, held, inOcc, color, ⟨d, dir, sees⟩ | ⟨kind, near⟩ | ⟨kind, near⟩ | ⟨kind, near⟩⟩
    · have found : (target.ray d.opposite).find? occ.contains = some t :=
        Square.find?_ray_eq_some_iff.mpr ⟨inOcc, Square.sees_comm.mp sees⟩
      exact Or.inl (Or.inl (Or.inl ⟨d.opposite, Direction.mem_all _, t, q, found,
        ⟨held, inOcc, color⟩, (Direction.mem_directions_opposite _ d).mpr dir⟩))
    · refine Or.inl (Or.inl (Or.inr ⟨t, ?_, q, ⟨held, inOcc, color⟩, kind⟩))
      rwa [Square.knightSteps_contains_comm]
    · refine Or.inl (Or.inr ⟨t, ?_, q, ⟨held, inOcc, color⟩, kind⟩)
      rwa [Square.kingSteps_contains_comm]
    · refine Or.inr ⟨t, ?_, q, ⟨held, inOcc, color⟩, kind⟩
      rw [Square.pawnAttacks_contains_comm, Color.opponent_opponent, ← color]
      exact near

/-! ### The recorded threats of the side not to move -/

@[simp] theorem piece_setStatus (x : Board) (st : Status) (id : PieceId) :
    ({ x with status := st } : Board).piece id = x.piece id := rfl

theorem piece_settle_of_opponent (x : Board) {king id : PieceId} (kingSq : Square)
    (kingColor : (x.piece king).color = x.side) (color : (x.piece id).color = x.side.opponent)
    (nodup : (x.roster x.side).toList.Nodup) (absent : id ∉ (x.roster x.side).toList) :
    (x.settle king kingSq).piece id = x.piece id := by
  have other : id ≠ king := fun same => by
    rw [same, kingColor] at color
    exact Color.ne_opponent _ color
  have own {y : Board} (bare : y.bare = x.bare) :
      (y.roster y.side).toList.Nodup ∧ id ∉ (y.roster y.side).toList := by
    rw [roster_of_bare bare, side_of_bare bare]
    exact ⟨nodup, absent⟩
  have later {m : Board} (kept : m.bare = x.bare ∧ m.piece id = x.piece id) (castle : Bool) :
      (if castle then (m.dropExposingEnPassant kingSq).addCastles king
        else m.dropExposingEnPassant kingSq).piece id = x.piece id := by
    have dropped : (m.dropExposingEnPassant kingSq).piece id = x.piece id := by
      rw [← kept.2]
      simp [Board.piece, piece?_dropExposingEnPassant _ (own kept.1).1, (own kept.1).2]
    split
    · rw [piece_addCastles_of_ne _ _ other, dropped]
    · exact dropped
  unfold settle
  dsimp only
  generalize pinned : (x.keepKingSafe king x.side.opponent).restrictPins kingSq x.side.opponent = a
  have bare : a.bare = x.bare := pinned ▸ (bare_restrictPins _ _ _).trans (bare_keepKingSafe _ _ _)
  have kept : a.piece id = x.piece id :=
    pinned ▸ piece_restrictPins_keepKingSafe x kingSq (by rw [kingColor]; exact Color.ne_opponent _)
      color
  generalize SquareSet.ofList ((a.threatsTo kingSq x.side.opponent).filterMap
    fun id => (a.piece id).square) = checkers
  generalize staged : ({ a with status := { a.status with hasKing := true, checkers } } : Board) = y
  have bareStaged : y.bare = x.bare := staged ▸ (bare_setStatus _ _).trans bare
  have keptStaged : y.piece id = x.piece id := staged ▸ kept
  have skip := own bareStaged
  rw [piece_setStatus]
  refine later ?_ _
  split
  · exact ⟨bareStaged, keptStaged⟩
  · refine ⟨(bare_restrictToCheckResolutions _ _ _ _).trans bareStaged, ?_⟩
    rw [← keptStaged]
    simp [Board.piece, piece?_restrictToCheckResolutions _ skip.1, skip.2]
  · refine ⟨(bare_freezeAllBut _ _).trans bareStaged, ?_⟩
    rw [← keptStaged]
    simp [Board.piece, piece?_freezeAllBut _ skip.1, skip.2]

namespace Settled

variable (coherent : b.Coherent) (settled : b.Settled)
include coherent settled

theorem piece_eq_rawReached_of_opponent {id : PieceId} (member : id ∈ b.roster b.side.opponent) :
    b.piece id = b.rawReached.piece id := by
  have raw := bare_rawReached b
  have color := coherent.color_of_roster member
  rw [Same.piece_eq settled (Or.inr (Or.inl ⟨_, member⟩))]
  cases found : b.kingSquare b.side with
  | none =>
    rw [regenerate_eq_of_kingSquare found]
    rfl
  | some kingSq =>
    obtain ⟨k, hasKing, stands⟩ := Option.bind_eq_some_iff.mp found
    rw [regenerate_eq_settle hasKing stands]
    have kingColor := coherent.color_of_roster ((coherent.king_iff _ k).mp hasKing).1
    have colorRaw (t : PieceId) : (b.rawReached.piece t).color = (b.piece t).color := by
      rw [← Piece.bare_color, piece_bare_of_bare raw, Piece.bare_color]
    refine piece_settle_of_opponent _ kingSq ?_ ?_ ?_ ?_ <;>
      simp only [colorRaw, roster_of_bare raw, side_of_bare raw]
    · exact kingColor
    · exact color
    · exact coherent.nodup _
    · intro inSide
      have same := coherent.color_of_roster (Array.mem_toList_iff.mp inSide)
      rw [color] at same
      exact Color.ne_opponent _ same.symm

/-- What a piece of the side not to move records on a settled board: it attacks or guards a
square exactly when it stands on the board and bears on the square through the occupancy
without the king of the side to move. -/
theorem attacks_or_guards_iff_bears {id : PieceId} (member : id ∈ b.roster b.side.opponent)
    (s : Square) :
    ((b.piece id).attacks.contains s || (b.piece id).guards.contains s) = true ↔
      ∃ o, (b.piece id).square = some o ∧ (b.piece id).Bears (b.occupancyWithoutKing b.side) o s := by
  have raw := congrArg (fun p : Piece => (p.targets, p.guards, p.quiet))
    ((piece_eq_rawReached_of_opponent coherent settled member).trans (piece_rawReached b id))
  simp only [Prod.mk.injEq] at raw
  obtain ⟨targets, guards, quiet⟩ := raw
  rw [Piece.attacks, targets, guards, quiet]
  cases square : (b.piece id).square with
  | none => simp [rawReach, square]
  | some o =>
    have standing := (coherent.square_captured_of_occupant (coherent.occupant_of_square square)).2
    rw [attacks_or_guards_rawReach coherent (coherent.color_of_roster member) square standing]
    simp

end Settled

/-- On a coherent settled board, the recorded attacks and guards of the side not to move hold a
square exactly when the attack test finds an attacker of that side, on the occupancy without
the king of the side to move. -/
theorem threatened_or_guarded_iff_attacked (coherent : b.Coherent) (settled : b.Settled)
    (s : Square) :
    (b.isThreatened s b.side.opponent || b.isGuarded s b.side.opponent) =
      b.isAttackedWith s b.side.opponent (b.occupancyWithoutKing b.side) := by
  rw [Bool.eq_iff_iff, isAttackedWith_iff, isThreatened, isGuarded, ← Array.any_toList,
    ← Array.any_toList, Bool.or_eq_true, List.any_eq_true, List.any_eq_true]
  have recorded {id : PieceId} (member : id ∈ b.roster b.side.opponent) :=
    Settled.attacks_or_guards_iff_bears coherent settled member s
  constructor
  · rintro (⟨id, member, holds⟩ | ⟨id, member, holds⟩) <;>
    · have member := Array.mem_toList_iff.mp member
      obtain ⟨o, square, bears⟩ := (recorded member).mp (by simp [holds])
      have held := coherent.occupant_of_square square
      have color := coherent.color_of_roster member
      refine ⟨o, b.piece id, by simp [pieceAt?, held], ?_, color, bears⟩
      exact coherent.contains_occupancyWithoutKing held (by rw [color]; exact (Color.ne_opponent _).symm)
  · rintro ⟨t, q, held, -, color, bears⟩
    obtain ⟨id, occupied, rfl⟩ : ∃ id, b.occupant t = some id ∧ b.piece id = q := by
      simpa [pieceAt?] using held
    have member := (coherent.mem_roster_iff_of_occupant occupied _).mpr color
    have holds := (recorded member).mpr ⟨t, coherent.piece_square_of_occupant occupied, bears⟩
    rw [Bool.or_eq_true] at holds
    rcases holds with threat | guard
    · exact Or.inl ⟨id, Array.mem_toList_iff.mpr member, threat⟩
    · exact Or.inr ⟨id, Array.mem_toList_iff.mpr member, guard⟩

theorem threatened_or_guarded_iff_attacked_standard :
    Board.standard.Coherent ∧ Board.standard.Settled ∧ ∀ s,
      (Board.standard.isThreatened s Board.standard.side.opponent ||
          Board.standard.isGuarded s Board.standard.side.opponent) =
        Board.standard.isAttackedWith s Board.standard.side.opponent
          (Board.standard.occupancyWithoutKing Board.standard.side) :=
  ⟨WellFormed.standard.toCoherent, Settled.standard,
    threatened_or_guarded_iff_attacked WellFormed.standard.toCoherent Settled.standard⟩

end Board

end Chess
