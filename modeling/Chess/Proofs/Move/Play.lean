import Chess.Proofs.Board.Settled
import Chess.Proofs.Except
import Chess.Move.Execute

namespace Chess

namespace Move

/-! Playing and taking back a move, read step by step. A successful `execute` is the checks
of `checkPlayable` followed by four steps: the move is completed against the board, the
clocks advance, the pieces are placed, a pawn promotes, and the turn passes. A successful
`unexecute` undoes them in the opposite order. -/

/-- What the library's move constructors guarantee of a move and the board it is played
on: its piece has the move's kind and colour, only a king castles, only a pawn reaching its
last rank promotes, and to a knight, bishop, rook or queen, and a move holds a promoted
piece only when it promotes. -/
structure Fits (m : Move) (b : Board) : Prop where
  kind : (b.piece m.piece).kind = m.kind
  color : (b.piece m.piece).color = m.color
  castle : m.castle.isSome → m.kind = .king
  promotion : ∀ k, m.promotion = some k →
    k.isPromotionTarget = true ∧ m.kind = .pawn ∧ m.target.rank = Rank.promotion m.color
  promoted : m.promoted.isSome → m.promotion.isSome

section Complete

variable (m : Move) (b : Board) (hop : Option RookHop)

theorem complete_eq : m.complete b hop =
    { m with castleRook := hop,
             promotion := if m.kind = .pawn ∧ m.target.rank = Rank.promotion m.color ∧ m.promotion.isNone
               then some .queen else m.promotion,
             fileUnique := (b.disambiguation m.piece m.target).1,
             rankUnique := (b.disambiguation m.piece m.target).2,
             casualty := m.findCasualty b, prevEnPassant := b.enPassant, prevHalfmove := b.halfmove,
             prevFullmove := b.fullmove } := by
  unfold complete
  by_cases promotes : m.kind = .pawn ∧ m.target.rank = Rank.promotion m.color ∧ m.promotion.isNone
  · simp only [if_pos promotes]
    rfl
  · simp only [if_neg promotes]
    rfl

@[simp] theorem lineage_complete : (m.complete b hop).lineage = m.lineage := by rw [complete_eq]
@[simp] theorem piece_complete : (m.complete b hop).piece = m.piece := by rw [complete_eq]
@[simp] theorem kind_complete : (m.complete b hop).kind = m.kind := by rw [complete_eq]
@[simp] theorem color_complete : (m.complete b hop).color = m.color := by rw [complete_eq]
@[simp] theorem origin_complete : (m.complete b hop).origin = m.origin := by rw [complete_eq]
@[simp] theorem target_complete : (m.complete b hop).target = m.target := by rw [complete_eq]
@[simp] theorem castle_complete : (m.complete b hop).castle = m.castle := by rw [complete_eq]
@[simp] theorem castleRook_complete : (m.complete b hop).castleRook = hop := by rw [complete_eq]
@[simp] theorem promoted_complete : (m.complete b hop).promoted = m.promoted := by rw [complete_eq]
@[simp] theorem executed_complete : (m.complete b hop).executed = m.executed := by rw [complete_eq]

@[simp] theorem casualty_complete : (m.complete b hop).casualty = m.findCasualty b := by
  rw [complete_eq]

@[simp] theorem prevEnPassant_complete : (m.complete b hop).prevEnPassant = b.enPassant := by
  rw [complete_eq]

@[simp] theorem prevHalfmove_complete : (m.complete b hop).prevHalfmove = b.halfmove := by
  rw [complete_eq]

@[simp] theorem prevFullmove_complete : (m.complete b hop).prevFullmove = b.fullmove := by
  rw [complete_eq]

theorem promotion_complete : (m.complete b hop).promotion =
    if m.kind = .pawn ∧ m.target.rank = Rank.promotion m.color ∧ m.promotion.isNone
    then some .queen else m.promotion := by
  rw [complete_eq]

end Complete

variable {m : Move} {b : Board}

/-- The checks before a move is played: the move belongs to the board and is not played
yet, its piece stands on its origin, its side is to move, and either it is no castle and its
destination is among the piece's targets, or it is an open castle of the king to its
destination. -/
theorem checkPlayable_eq_ok {hop : Option RookHop} :
    m.checkPlayable b = .ok hop ↔
      b.lineage = m.lineage ∧ m.executed = false ∧ b.occupant m.origin = some m.piece ∧
        b.side = m.color ∧
        ((m.castle = none ∧ (b.piece m.piece).targets.contains m.target = true ∧
            hop = m.castleRook) ∨
          (∃ side plan, m.castle = some side ∧ b.legalCastle? side = some plan ∧
            plan.kingTo = m.target ∧
            hop = some { rook := plan.rook, origin := plan.rookFrom, target := plan.rookTo })) := by
  unfold checkPlayable
  by_cases lineage : b.lineage = m.lineage
  case neg => simp [lineage]
  by_cases executed : m.executed = false
  case neg => simp_all
  by_cases held : b.occupant m.origin = some m.piece
  case neg => simp [lineage, executed, held]
  by_cases side : b.side = m.color
  case neg => simp [lineage, executed, held, side]
  simp only [lineage, executed, held, side, ne_eq, not_true_eq_false, if_false, Bool.false_eq_true,
    true_and]
  cases castle : m.castle with
  | none =>
    cases reach : (b.piece m.piece).targets.contains m.target <;> simp [eq_comm]
  | some s =>
    simp only [reduceCtorEq, false_and, Option.some.injEq, exists_and_left, exists_eq_left',
      false_or]
    cases open_ : b.legalCastle? s with
    | none => simp
    | some plan =>
      by_cases lands : plan.kingTo = m.target <;> simp [lands, eq_comm]

/-- Playing up to passing the turn: the move completed against the board, and the board
after the clocks advance, the pieces move and a pawn promotes. -/
def playSteps (m : Move) (b : Board) (hop : Option RookHop) : Move × Board :=
  (m.complete b hop).promote ((m.complete b hop).place ((m.complete b hop).advanceClocks b))

theorem execute_eq_ok {r : Move × Board} (run : m.execute b = .ok r) :
    ∃ hop, m.checkPlayable b = .ok hop ∧
      r.2 = { ((m.playSteps b hop).1.passTurn (m.playSteps b hop).2).regenerate with
              started := true } ∧
      ∃ outcome, r.1 = { (m.playSteps b hop).1 with outcome, executed := true, verified := true } := by
  unfold execute at run
  obtain ⟨hop, checked, played⟩ := Except.bind_eq_ok.mp run
  refine ⟨hop, checked, ?_⟩
  dsimp only at played
  unfold playSteps
  generalize (m.complete b hop).promote
    ((m.complete b hop).place ((m.complete b hop).advanceClocks b)) = p at played ⊢
  obtain ⟨promoted, placed⟩ := p
  cases played
  refine ⟨rfl, ?_⟩
  split
  · exact ⟨_, rfl⟩
  · exact ⟨_, rfl⟩

theorem execute_ok_iff : (∃ r, m.execute b = .ok r) ↔ ∃ hop, m.checkPlayable b = .ok hop := by
  constructor
  · rintro ⟨r, run⟩
    obtain ⟨hop, checked, -⟩ := execute_eq_ok run
    exact ⟨hop, checked⟩
  · rintro ⟨hop, checked⟩
    unfold execute
    rw [checked, Except.ok_bind]
    exact ⟨_, rfl⟩

theorem lineage_of_execute {r : Move × Board} (run : m.execute b = .ok r) : m.lineage = b.lineage := by
  obtain ⟨hop, checked, -⟩ := execute_eq_ok run
  exact (checkPlayable_eq_ok.mp checked).1.symm

theorem occupant_origin_of_execute {r : Move × Board} (run : m.execute b = .ok r) :
    b.occupant m.origin = some m.piece := by
  obtain ⟨hop, checked, -⟩ := execute_eq_ok run
  exact (checkPlayable_eq_ok.mp checked).2.2.1

theorem unexecute_eq_ok {r : Move × Board} :
    m.unexecute b = .ok r ↔
      b.lineage = m.lineage ∧ m.executed = true ∧ b.lastMove? = some (m.origin, m.target) ∧
        r = ({ m with executed := false },
          { m.unplace (m.unpromote { b with played := b.played.pop, side := m.color }) with
              enPassant := m.prevEnPassant, halfmove := m.prevHalfmove,
              fullmove := m.prevFullmove }.regenerate) := by
  unfold unexecute
  by_cases lineage : b.lineage = m.lineage
  case neg => simp [lineage]
  by_cases executed : m.executed = true
  case neg => simp_all
  by_cases last : b.lastMove? = some (m.origin, m.target)
  case neg => simp [lineage, executed, last]
  simp [lineage, executed, last, eq_comm]

end Move

end Chess
