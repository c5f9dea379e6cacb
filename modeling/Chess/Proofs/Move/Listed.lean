import Chess.Proofs.Move.Line
import Chess.Proofs.Board.Targets

namespace Chess

/-! The moves a board lists, and the boards play reaches. A listed move is a move of a piece of
the side to move from its square to one of its targets, once for each promotion piece when a
pawn reaches its last rank, or an open castle of the king. Play starts from the standard
position or from a FEN text and goes on by listed moves; every board it reaches is well formed
and settled. -/

namespace Move

section Built

variable {b : Board} {id : PieceId} {o t : Square} {promo : Option PieceKind}
  {castle : Option CastleSide}

@[simp] theorem lineage_build : (build b id o t promo castle).lineage = b.lineage := by
  unfold build; split; cases castle <;> rfl

@[simp] theorem piece_build : (build b id o t promo castle).piece = id := by
  unfold build; split; cases castle <;> rfl

@[simp] theorem kind_build : (build b id o t promo castle).kind = (b.piece id).kind := by
  unfold build; split; cases castle <;> rfl

@[simp] theorem color_build : (build b id o t promo castle).color = (b.piece id).color := by
  unfold build; split; cases castle <;> rfl

@[simp] theorem origin_build : (build b id o t promo castle).origin = o := by
  unfold build; split; cases castle <;> rfl

@[simp] theorem target_build : (build b id o t promo castle).target = t := by
  unfold build; split; cases castle <;> rfl

@[simp] theorem promotion_build : (build b id o t promo castle).promotion = promo := by
  unfold build; split; cases castle <;> rfl

@[simp] theorem castle_build : (build b id o t promo castle).castle = castle := by
  unfold build; split; cases castle <;> rfl

@[simp] theorem promoted_build : (build b id o t promo castle).promoted = none := by
  unfold build; split; cases castle <;> rfl

@[simp] theorem executed_build : (build b id o t promo castle).executed = false := by
  unfold build; split; cases castle <;> rfl

@[simp] theorem outcome_build : (build b id o t promo castle).outcome = none := by
  unfold build; split; cases castle <;> rfl

@[simp] theorem fileUnique_build :
    (build b id o t promo castle).fileUnique = (b.disambiguation id t).1 := by
  unfold build; split; rename_i flags; rw [flags]; cases castle <;> rfl

@[simp] theorem rankUnique_build :
    (build b id o t promo castle).rankUnique = (b.disambiguation id t).2 := by
  unfold build; split; rename_i flags; rw [flags]; cases castle <;> rfl

theorem casualty_build :
    (build b id o t promo castle).casualty = (build b id o t promo castle).findCasualty b := by
  unfold build; split; cases castle <;> rfl

theorem castleRook_build : (build b id o t promo castle).castleRook =
    castle.bind fun side => (b.castlePlan? (b.piece id).color side).map fun plan =>
      { rook := plan.rook, origin := plan.rookFrom, target := plan.rookTo } := by
  unfold build; split; cases castle <;> rfl

theorem knownLegal_eq :
    knownLegal b id o t promo castle = { build b id o t promo castle with verified := true } :=
  rfl

end Built

end Move

namespace Board

/-- The promotions a listed move of a piece to a square comes with: each of queen, rook,
bishop and knight for a pawn reaching its last rank, none otherwise. -/
def promotionChoices (b : Board) (id : PieceId) (t : Square) : List (Option PieceKind) :=
  if (b.piece id).kind = .pawn ∧ t.rank = Rank.promotion b.side then
    [some .queen, some .rook, some .bishop, some .knight]
  else [none]

def movesFrom (b : Board) (id : PieceId) (o : Square) : List Move :=
  (b.piece id).targets.toList.flatMap fun t =>
    (b.promotionChoices id t).map fun promo => Move.knownLegal b id o t promo none

def pieceMoves (b : Board) (id : PieceId) : List Move :=
  ((b.piece id).square.map (b.movesFrom id)).getD []

def castleMoves (b : Board) : List Move :=
  CastleSide.all.filterMap fun side =>
    (b.legalCastle? side).map fun plan =>
      Move.knownLegal b plan.king plan.kingFrom plan.kingTo none (some side)

theorem legalMoves_eq (b : Board) :
    b.legalMoves = (b.roster b.side).toList.flatMap b.pieceMoves ++ b.castleMoves := by
  unfold legalMoves
  dsimp only
  congr 1
  refine List.flatMap_congr fun id _ => ?_
  unfold pieceMoves movesFrom
  cases (b.piece id).square with
  | none => rfl
  | some o =>
    refine List.flatMap_congr fun t _ => ?_
    unfold promotionChoices
    split <;> rfl

variable {b : Board} {m : Move}

theorem mem_pieceMoves {id : PieceId} :
    m ∈ b.pieceMoves id ↔ ∃ o, (b.piece id).square = some o ∧
      ∃ t, (b.piece id).targets.contains t = true ∧ ∃ promo ∈ b.promotionChoices id t,
        m = Move.knownLegal b id o t promo none := by
  unfold pieceMoves movesFrom
  cases (b.piece id).square with
  | none => simp only [Option.map_none, Option.getD_none, List.not_mem_nil, reduceCtorEq, false_and,
      exists_false]
  | some o =>
    simp only [Option.map_some, Option.getD_some, List.mem_flatMap, SquareSet.mem_toList,
      List.mem_map, Option.some.injEq, exists_eq_left']
    exact exists_congr fun t => and_congr_right fun _ => exists_congr fun promo =>
      and_congr_right fun _ => eq_comm

theorem mem_castleMoves :
    m ∈ b.castleMoves ↔ ∃ side plan, b.legalCastle? side = some plan ∧
      m = Move.knownLegal b plan.king plan.kingFrom plan.kingTo none (some side) := by
  unfold castleMoves
  simp only [List.mem_filterMap, Option.map_eq_some_iff]
  constructor
  · rintro ⟨side, -, plan, found, rfl⟩
    exact ⟨side, plan, found, rfl⟩
  · rintro ⟨side, plan, found, rfl⟩
    exact ⟨side, by cases side <;> simp [CastleSide.all], plan, found, rfl⟩

theorem mem_legalMoves :
    m ∈ b.legalMoves ↔
      (∃ id ∈ b.roster b.side, ∃ o, (b.piece id).square = some o ∧
        ∃ t, (b.piece id).targets.contains t = true ∧ ∃ promo ∈ b.promotionChoices id t,
          m = Move.knownLegal b id o t promo none) ∨
      (∃ side plan, b.legalCastle? side = some plan ∧
        m = Move.knownLegal b plan.king plan.kingFrom plan.kingTo none (some side)) := by
  rw [legalMoves_eq, List.mem_append, List.mem_flatMap, mem_castleMoves]
  simp only [Array.mem_toList_iff, mem_pieceMoves]

theorem promotion_of_mem_promotionChoices {id : PieceId} {t : Square} {promo : Option PieceKind}
    (choice : promo ∈ b.promotionChoices id t) :
    (promo = none ∧ ¬((b.piece id).kind = .pawn ∧ t.rank = Rank.promotion b.side)) ∨
      ((b.piece id).kind = .pawn ∧ t.rank = Rank.promotion b.side ∧
        ∃ k, promo = some k ∧ k.isPromotionTarget = true) := by
  unfold promotionChoices at choice
  split at choice
  · rename_i last
    right
    refine ⟨last.1, last.2, ?_⟩
    simp only [List.mem_cons, List.not_mem_nil, or_false] at choice
    rcases choice with rfl | rfl | rfl | rfl <;> exact ⟨_, rfl, rfl⟩
  · rename_i notLast
    simp only [List.mem_cons, List.not_mem_nil, or_false] at choice
    exact Or.inl ⟨choice, notLast⟩

theorem kind_of_legalCastle? (coherent : b.Coherent) (settled : b.Settled) {side : CastleSide}
    {plan : CastlePlan} (found : b.legalCastle? side = some plan) :
    (b.piece plan.king).kind = .king ∧ (b.piece plan.king).color = b.side := by
  obtain ⟨planned, -⟩ := settled.castle found
  obtain ⟨king, -⟩ := castlePlan?_eq_some planned
  obtain ⟨member, kind⟩ := (coherent.king_iff b.side plan.king).mp king
  exact ⟨kind, coherent.color_of_roster member⟩

theorem fits_of_mem_legalMoves (coherent : b.Coherent) (settled : b.Settled)
    (listed : m ∈ b.legalMoves) : m.Fits b := by
  rcases mem_legalMoves.mp listed with
    ⟨id, member, o, -, t, -, promo, choice, rfl⟩ | ⟨side, plan, found, rfl⟩
  · have color := coherent.color_of_roster member
    refine ⟨by simp [Move.knownLegal_eq], by simp [Move.knownLegal_eq], by simp [Move.knownLegal_eq],
      fun k promoted => ?_, by simp [Move.knownLegal_eq]⟩
    simp only [Move.knownLegal_eq, Move.promotion_build, Move.kind_build, Move.target_build,
      Move.color_build] at promoted ⊢
    rcases promotion_of_mem_promotionChoices choice with ⟨rfl, -⟩ | ⟨pawn, last, k', rfl, target⟩
    · cases promoted
    · cases promoted
      exact ⟨target, pawn, color ▸ last⟩
  · have king := (kind_of_legalCastle? coherent settled found).1
    refine ⟨by simp [Move.knownLegal_eq], by simp [Move.knownLegal_eq], fun _ => ?_,
      fun k promoted => ?_, by simp [Move.knownLegal_eq]⟩
    · simpa [Move.knownLegal_eq] using king
    · simp [Move.knownLegal_eq] at promoted

/-- The boards play reaches: the standard start, a board read from a FEN text, and the board a
listed move is played to. -/
inductive Reachable : Board → Prop
  | standard : Reachable Board.standard
  | ofFen {text : String} {b : Board} (read : Board.ofFen text = .ok b) : Reachable b
  | play {b : Board} {m : Move} {r : Move × Board} (reach : Reachable b)
      (listed : m ∈ b.legalMoves) (run : m.execute b = .ok r) : Reachable r.2

theorem Settled.ofFen {text : String} (read : Board.ofFen text = .ok b) : b.Settled := by
  obtain ⟨st, -, built⟩ := Except.bind_eq_ok.mp read
  split at built
  · rename_i fromSetup
    cases built
    obtain ⟨placed, -, finished⟩ := Except.bind_eq_ok.mp fromSetup
    obtain ⟨x, -, regenerated⟩ := Except.bind_eq_ok.mp finished
    cases regenerated
    exact Settled.regenerate x
  · cases built

theorem Reachable.wellFormed_settled (reach : b.Reachable) : b.WellFormed ∧ b.Settled := by
  induction reach with
  | standard => exact ⟨WellFormed.standard, Settled.standard⟩
  | ofFen read => exact ⟨WellFormed.ofFen read, Settled.ofFen read⟩
  | play _ listed run ih =>
    have fits := fits_of_mem_legalMoves ih.1.toCoherent ih.2 listed
    exact ⟨ih.1.execute ih.2 fits run, Settled.execute run⟩

theorem Reachable.coherent (reach : b.Reachable) : b.Coherent :=
  reach.wellFormed_settled.1.toCoherent

theorem Reachable.settled (reach : b.Reachable) : b.Settled :=
  reach.wellFormed_settled.2

end Board

end Chess
