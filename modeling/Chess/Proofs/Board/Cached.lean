import Chess.Proofs.Board.Position
import Chess.Proofs.Move.Listed
import Chess.Proofs.Board.Attacks

namespace Chess

/-! The status a board caches agrees with its position. Regeneration counts the legal moves
apart from listing them, and finds the checking pieces through the attack sets of the raw
reach, with its x-ray through the king and its pawns threatening empty diagonals. On a settled
board the count is the length of the list, and on a coherent settled board the checkers are
exactly the pieces of the side not to move that attack the king's square by the movement
rules; check, double check, mate and stalemate are read off these two. -/

theorem List.foldl_add_eq_sum {α : Type} (l : List α) (value : α → Nat) :
    l.foldl (fun n a => n + value a) 0 = (l.map value).sum := by
  rw [List.sum_eq_foldl_nat, List.foldl_map]

theorem SquareSet.isEmpty_iff_toList_eq_nil (t : SquareSet) : t.isEmpty = true ↔ t.toList = [] := by
  rw [SquareSet.isEmpty_iff, List.eq_nil_iff_forall_not_mem]
  simp

theorem Color.eq_of_ne_opponent {c d : Color} (other : c ≠ d.opponent) : c = d := by
  cases c <;> cases d <;> simp_all [Color.opponent]

namespace Board

variable {b : Board}

/-! ### The count of legal moves -/

theorem length_promotionChoices (id : PieceId) (t : Square) :
    (b.promotionChoices id t).length =
      if (b.piece id).kind = .pawn ∧ t.rank = Rank.promotion b.side then 4 else 1 := by
  unfold promotionChoices
  split <;> rfl

theorem length_pieceMoves {id : PieceId}
    (idle : (b.piece id).square = none → (b.piece id).targets = SquareSet.empty) :
    (b.pieceMoves id).length = (b.piece id).targets.toList.foldl (fun n s =>
      n + if (b.piece id).kind = .pawn ∧ s.rank = Rank.promotion b.side then 4 else 1) 0 := by
  rw [List.foldl_add_eq_sum]
  unfold pieceMoves
  cases square : (b.piece id).square with
  | none => simp [idle square, SquareSet.toList_empty]
  | some o =>
    simp only [Option.map_some, Option.getD_some, movesFrom, List.length_flatMap,
      List.length_map, length_promotionChoices]

theorem length_castleMoves :
    b.castleMoves.length = (CastleSide.all.filter fun side => (b.status.castle side).isSome).length := by
  unfold castleMoves legalCastle?
  simp only [CastleSide.all, List.filterMap_cons, List.filterMap_nil, List.filter_cons,
    List.filter_nil]
  cases b.status.castle .kingside <;> cases b.status.castle .queenside <;> rfl

theorem length_legalMoves
    (idle : ∀ id ∈ b.roster b.side, (b.piece id).square = none → (b.piece id).targets = SquareSet.empty) :
    b.legalMoves.length = b.countLegal := by
  rw [legalMoves_eq, List.length_append, List.length_flatMap, length_castleMoves, countLegal]
  dsimp only
  rw [← List.sum_eq_foldl_nat]
  congr 1
  refine congrArg List.sum (List.map_congr_left fun id member => ?_)
  exact length_pieceMoves (idle id (Array.mem_toList_iff.mp member))

theorem countLegal_setStatus (e : Board) (st : Status)
    (castles : ∀ side, st.castle side = e.status.castle side) :
    { e with status := st }.countLegal = e.countLegal := by
  simp only [countLegal, castles]
  rfl

theorem exists_regenerate_eq_counted (b : Board) :
    ∃ e : Board, b.regenerate = { e with status := { e.status with legalCount := e.countLegal } } := by
  unfold regenerate
  dsimp only
  split
  · exact ⟨{ b.withRawReach with status := {} }, rfl⟩
  · split
    · exact ⟨{ b.withRawReach with status := {} }, rfl⟩
    · exact ⟨_, rfl⟩

theorem legalCount_regenerate (b : Board) :
    b.regenerate.status.legalCount = b.regenerate.countLegal := by
  obtain ⟨e, counted⟩ := exists_regenerate_eq_counted b
  rw [counted]
  exact (countLegal_setStatus e _ fun side => by cases side <;> rfl).symm

namespace Settled

variable (settled : b.Settled)
include settled

theorem legalCount : b.status.legalCount = b.countLegal := by
  rw [settled.status, legalCount_regenerate, ← Same.countLegal settled]

theorem targets_eq_empty {id : PieceId} (tracked : b.Tracks id) (off : (b.piece id).square = none) :
    (b.piece id).targets = SquareSet.empty := by
  refine SquareSet.ext fun s => ?_
  cases member : (b.piece id).targets.contains s with
  | false => exact (SquareSet.contains_empty s).symm
  | true =>
    have raw := settled.target_within tracked member
    simp [rawReach, off] at raw

theorem legalMoveCount_eq_length : b.legalMoveCount = b.legalMoves.length := by
  rw [legalMoveCount, settled.legalCount, length_legalMoves]
  exact fun id member => settled.targets_eq_empty (tracks_of_roster member)

end Settled

/-! ### The pieces giving check -/

/-- The pieces giving check by the rules: pieces of the side not to move, on the board, that
attack the square of the king of the side to move. -/
def GivesCheck (b : Board) (id : PieceId) : Prop :=
  ∃ kingSq origin, b.kingSquare b.side = some kingSq ∧ (b.piece id).square = some origin ∧
    (b.piece id).color = b.side.opponent ∧ b.attacksFrom (b.piece id) origin kingSq = true

theorem status_addCastles (x : Board) (king : PieceId) :
    (x.addCastles king).status.hasKing = x.status.hasKing ∧
      (x.addCastles king).status.checkers = x.status.checkers := by
  unfold addCastles
  refine List.foldl_keeps (P := fun a : Board => a.status.hasKing = x.status.hasKing ∧
    a.status.checkers = x.status.checkers) _ (fun a side _ kept => ?_) x ⟨rfl, rfl⟩
  split
  · split
    · cases side <;> exact kept
    · exact kept
  · exact kept

theorem hasKing_addCastles (x : Board) (king : PieceId) :
    (x.addCastles king).status.hasKing = x.status.hasKing :=
  (status_addCastles x king).1

theorem checkers_addCastles (x : Board) (king : PieceId) :
    (x.addCastles king).status.checkers = x.status.checkers :=
  (status_addCastles x king).2

theorem status_settle (x : Board) (king : PieceId) (kingSq : Square) :
    (x.settle king kingSq).status.hasKing = true ∧
      (x.settle king kingSq).status.checkers = SquareSet.ofList
        ((((x.keepKingSafe king x.side.opponent).restrictPins kingSq x.side.opponent).threatsTo
          kingSq x.side.opponent).filterMap fun id =>
            (((x.keepKingSafe king x.side.opponent).restrictPins kingSq x.side.opponent).piece id).square) := by
  unfold settle
  dsimp only
  generalize (x.keepKingSafe king x.side.opponent).restrictPins kingSq x.side.opponent = a
  generalize SquareSet.ofList ((a.threatsTo kingSq x.side.opponent).filterMap
    fun id => (a.piece id).square) = checkers
  split <;> split <;>
    simp only [hasKing_addCastles, checkers_addCastles, status_dropExposingEnPassant,
      status_restrictToCheckResolutions, status_freezeAllBut, and_self]

theorem color_of_pinOf? (b : Board) {kingSq : Square} {them : Color} {enemy : PieceId}
    {pin : PieceId × List Square} (found : b.pinOf? kingSq them enemy = some pin) :
    (b.piece pin.1).color ≠ them := by
  have scan : ∀ (squares : List Square) (u : Option PieceId × Bool),
      (∀ id, u.1 = some id → (b.piece id).color ≠ them) →
        ∀ id, (squares.foldl (b.pinScanStep them) u).1 = some id → (b.piece id).color ≠ them := by
    intro squares
    refine List.foldl_keeps (P := fun (u : Option PieceId × Bool) =>
      ∀ id, u.1 = some id → (b.piece id).color ≠ them) squares fun u s _ kept => ?_
    obtain ⟨pinned, blocked⟩ := u
    cases blocked with
    | true => exact kept
    | false =>
      unfold pinScanStep
      cases b.occupant s with
      | none => exact kept
      | some id =>
        dsimp only
        split_ifs with stops
        · exact kept
        · intro found same
          cases same
          exact fun color => stops (Or.inr color)
  simp only [pinOf?] at found
  split at found
  · split at found
    · simp at found
    · split at found
      · split at found
        · rename_i pinned scanned
          cases found
          exact scan _ (none, false) (by simp) pinned (congrArg Prod.fst scanned)
        · simp at found
      · simp at found
  · simp at found

theorem piece_restrictPins_keepKingSafe (x : Board) {king id : PieceId} (kingSq : Square)
    {them : Color} (kingColor : (x.piece king).color ≠ them) (color : (x.piece id).color = them) :
    ((x.keepKingSafe king them).restrictPins kingSq them).piece id = x.piece id := by
  have other : id ≠ king := by
    rintro rfl
    exact kingColor color
  have safe : (x.keepKingSafe king them).piece? id = x.piece? id := by
    simp [keepKingSafe, other]
  have safePiece : (x.keepKingSafe king them).piece id = x.piece id := by
    simp [piece, safe]
  have unpinned : ∀ e w, ((x.keepKingSafe king them).pinOf? kingSq them e).all
      (fun pin => pin.1 ≠ id || pin.2.contains w) = true := by
    intro e w
    cases found : (x.keepKingSafe king them).pinOf? kingSq them e with
    | none => rfl
    | some pin =>
      simp only [Option.all_some, Bool.or_eq_true, decide_eq_true_eq]
      refine Or.inl fun same => color_of_pinOf? _ found ?_
      rw [same, safePiece]
      exact color
  simp only [piece, piece?_restrictPins, safe]
  cases x.piece? id with
  | none => rfl
  | some p =>
    simp only [Option.map_some, Option.getD_some]
    congr 1
    refine SquareSet.ext fun w => ?_
    simp only [SquareSet.contains_filter, List.all_eq_true.mpr fun e _ => unpinned e w, Bool.and_true]

theorem piece_rawReached (b : Board) (id : PieceId) :
    b.rawReached.piece id =
      { b.piece id with
        targets := (b.rawReach (b.piece id)).targets
        guards := (b.rawReach (b.piece id)).guards
        quiet := (b.rawReach (b.piece id)).quiet
        castleTargets := SquareSet.empty } := by
  change (b.withRawReach.piece? id).getD default = _
  rw [piece?_withRawReach]
  cases found : b.piece? id with
  | none =>
    simp only [Option.map_none, Option.getD_none, piece, found]
    rfl
  | some p => simp [piece, found]

namespace Coherent

variable (coherent : b.Coherent)
include coherent

theorem eq_of_king_held {c : Color} {k : PieceId} {kingSq t : Square} {q : Piece}
    (hasKing : b.king c = some k) (stands : (b.piece k).square = some kingSq)
    (held : b.pieceAt? t = some q) (color : q.color = c) (king : q.kind = .king) : t = kingSq := by
  obtain ⟨id, occupied, rfl⟩ : ∃ id, b.occupant t = some id ∧ b.piece id = q := by
    simpa [pieceAt?] using held
  have member := (coherent.mem_roster_iff_of_occupant occupied c).mpr color
  obtain ⟨kMember, kKing⟩ := (coherent.king_iff c k).mp hasKing
  cases coherent.one_king c id k member kMember king kKing
  exact coherent.square_eq_of_occupant occupied (coherent.occupant_of_square stands)

theorem nodup_checkers : b.checkers.Nodup :=
  (SquareSet.toList_nodup _).filterMap fun _ _ _ first second =>
    coherent.square_eq_of_occupant first second

end Coherent

namespace Settled

variable (coherent : b.Coherent) (settled : b.Settled)

include settled in
theorem status_of_kingSquare_none (absent : b.kingSquare b.side = none) :
    b.status.hasKing = false ∧ b.status.checkers = SquareSet.empty := by
  rw [settled.status, regenerate_eq_of_kingSquare absent]
  exact ⟨rfl, rfl⟩

include coherent settled in
theorem contains_checkers {k : PieceId} {kingSq : Square} (hasKing : b.king b.side = some k)
    (stands : (b.piece k).square = some kingSq) (s : Square) :
    b.status.checkers.contains s = true ↔ ∃ id, b.occupant s = some id ∧
      (b.piece id).color = b.side.opponent ∧ b.attacksFrom (b.piece id) s kingSq = true := by
  have raw := bare_rawReached b
  have kingSide : (b.rawReached.piece k).color = b.side := by
    rw [← Piece.bare_color, piece_bare_of_bare raw, Piece.bare_color]
    exact coherent.color_of_roster ((coherent.king_iff _ k).mp hasKing).1
  have held : b.pieceAt? kingSq = some (b.piece k) := by
    simp [pieceAt?, coherent.occupant_of_square stands]
  have untouched : ∀ id, (b.piece id).color = b.side.opponent →
      ((b.rawReached.keepKingSafe k b.side.opponent).restrictPins kingSq b.side.opponent).piece id =
        b.rawReached.piece id := fun id color =>
    piece_restrictPins_keepKingSafe _ _ (by rw [kingSide]; cases b.side <;> decide)
      (by rw [← Piece.bare_color, piece_bare_of_bare raw, Piece.bare_color, color])
  have roster : ∀ c, ((b.rawReached.keepKingSafe k b.side.opponent).restrictPins kingSq
      b.side.opponent).roster c = b.roster c := fun c => by
    rw [roster_of_bare (bare_restrictPins _ kingSq _), roster_of_bare (bare_keepKingSafe _ k _),
      roster_of_bare raw]
  have rules : ∀ id, (b.piece id).color = b.side.opponent → ∀ {o : Square},
      (b.piece id).square = some o →
        ((b.rawReach (b.piece id)).targets \ (b.rawReach (b.piece id)).quiet).contains kingSq =
          b.attacksFrom (b.piece id) o kingSq := by
    intro id color o square
    have kingColor := coherent.color_of_roster ((coherent.king_iff _ k).mp hasKing).1
    have enemy : (b.piece k).color ≠ (b.piece id).color := by
      rw [color, kingColor]
      cases b.side <;> decide
    have standing := (coherent.square_captured_of_occupant (coherent.occupant_of_square square)).2
    refine attacks_rawReach square standing held enemy fun t q' held' other king => ?_
    exact coherent.eq_of_king_held hasKing stands held' (Color.eq_of_ne_opponent (color ▸ other)) king
  rw [settled.status, regenerate_eq_settle hasKing stands, (status_settle _ k kingSq).2]
  simp only [show b.rawReached.side = b.side from side_of_bare raw, SquareSet.contains_ofList,
    decide_eq_true_eq, List.mem_filterMap, threatsTo, List.mem_filter, Array.mem_toList_iff, roster]
  constructor
  · rintro ⟨id, ⟨member, attacks⟩, square⟩
    have color := coherent.color_of_roster member
    rw [untouched id color, piece_rawReached] at attacks square
    simp only [Piece.attacks] at attacks square
    rw [rules id color square] at attacks
    exact ⟨id, coherent.occupant_of_square square, color, attacks⟩
  · rintro ⟨id, occupied, color, attacks⟩
    have square := coherent.piece_square_of_occupant occupied
    refine ⟨id, ⟨(coherent.mem_roster_iff_of_occupant occupied _).mpr color, ?_⟩, ?_⟩
    · rw [untouched id color, piece_rawReached]
      simp only [Piece.attacks]
      rw [rules id color square]
      exact attacks
    · rw [untouched id color, piece_rawReached]
      exact square

include coherent settled in
theorem mem_checkers (id : PieceId) : id ∈ b.checkers ↔ b.GivesCheck id := by
  cases found : b.kingSquare b.side with
  | none =>
    have none := (settled.status_of_kingSquare_none found).2
    simp [checkers, none, SquareSet.toList_empty, GivesCheck, found]
  | some kingSq =>
    obtain ⟨k, hasKing, stands⟩ := Option.bind_eq_some_iff.mp found
    simp only [checkers, List.mem_filterMap, SquareSet.mem_toList,
      settled.contains_checkers coherent hasKing stands]
    constructor
    · rintro ⟨s, ⟨id', held', color, attacks⟩, held⟩
      cases Option.some.inj (held.symm.trans held')
      exact ⟨kingSq, s, found, coherent.piece_square_of_occupant held, color, attacks⟩
    · rintro ⟨kingSq', o, found', square, color, attacks⟩
      cases Option.some.inj (found.symm.trans found')
      have held := coherent.occupant_of_square square
      exact ⟨o, ⟨id, held, color, attacks⟩, held⟩

include coherent settled in
theorem occupied_of_checkers {s : Square} (member : b.status.checkers.contains s = true) :
    ∃ id, b.occupant s = some id := by
  cases found : b.kingSquare b.side with
  | none =>
    rw [(settled.status_of_kingSquare_none found).2, SquareSet.contains_empty] at member
    cases member
  | some kingSq =>
    obtain ⟨k, hasKing, stands⟩ := Option.bind_eq_some_iff.mp found
    obtain ⟨id, held, -⟩ := (settled.contains_checkers coherent hasKing stands s).mp member
    exact ⟨id, held⟩

include coherent settled in
theorem length_checkers : b.checkers.length = b.status.checkers.card :=
  List.filterMap_length_eq_length.mpr fun s member => by
    obtain ⟨id, held⟩ := settled.occupied_of_checkers coherent ((SquareSet.mem_toList _ _).mp member)
    simp [held]

include settled in
theorem hasKing_iff : b.status.hasKing = true ↔ (b.kingSquare b.side).isSome := by
  cases found : b.kingSquare b.side with
  | none => simp [(settled.status_of_kingSquare_none found).1]
  | some kingSq =>
    obtain ⟨k, hasKing, stands⟩ := Option.bind_eq_some_iff.mp found
    rw [settled.status, regenerate_eq_settle hasKing stands]
    simp [(status_settle _ k kingSq).1]

include coherent settled in
theorem isCheck_iff : b.isCheck = true ↔ b.checkers ≠ [] := by
  rw [← List.length_pos_iff, settled.length_checkers coherent, SquareSet.card,
    List.length_pos_iff, isCheck, Bool.not_eq_true', ← Bool.not_eq_true,
    SquareSet.isEmpty_iff_toList_eq_nil]

include coherent settled in
theorem isDoubleCheck_iff : b.isDoubleCheck = true ↔ 2 ≤ b.checkers.length := by
  rw [settled.length_checkers coherent, isDoubleCheck, decide_eq_true_iff]
  rfl

include settled in
theorem legalCount_eq_zero_iff : b.status.legalCount = 0 ↔ b.legalMoves = [] := by
  rw [← legalMoveCount, settled.legalMoveCount_eq_length, List.length_eq_zero_iff]

include settled in
theorem isCheckmate_iff : b.isCheckmate = true ↔ b.isCheck = true ∧ b.legalMoves = [] := by
  rw [isCheckmate, Bool.and_eq_true, decide_eq_true_iff, settled.legalCount_eq_zero_iff]

include settled in
theorem isStalemate_iff : b.isStalemate = true ↔
    (b.kingSquare b.side).isSome ∧ b.isCheck = false ∧ b.legalMoves = [] := by
  rw [isStalemate, Bool.and_eq_true, Bool.and_eq_true, decide_eq_true_iff, Bool.not_eq_true',
    settled.hasKing_iff, settled.legalCount_eq_zero_iff, and_assoc]

end Settled

/-- Every status query of a coherent settled board agrees with its position: the count is the
length of the move list, the checkers are the pieces attacking the king by the movement rules,
each once, and check, double check, mate and stalemate follow from the checkers and the moves. -/
theorem status_agrees_with_position (coherent : b.Coherent) (settled : b.Settled) :
    b.legalMoveCount = b.legalMoves.length ∧
      (∀ id, id ∈ b.checkers ↔ b.GivesCheck id) ∧ b.checkers.Nodup ∧
      (b.isCheck = true ↔ b.checkers ≠ []) ∧
      (b.isDoubleCheck = true ↔ 2 ≤ b.checkers.length) ∧
      (b.isCheckmate = true ↔ b.isCheck = true ∧ b.legalMoves = []) ∧
      (b.isStalemate = true ↔
        (b.kingSquare b.side).isSome ∧ b.isCheck = false ∧ b.legalMoves = []) :=
  ⟨settled.legalMoveCount_eq_length, settled.mem_checkers coherent, coherent.nodup_checkers,
    settled.isCheck_iff coherent, settled.isDoubleCheck_iff coherent, settled.isCheckmate_iff,
    settled.isStalemate_iff⟩

theorem status_agrees_with_position_standard :
    Board.standard.Coherent ∧ Board.standard.Settled ∧
      Board.standard.legalMoveCount = Board.standard.legalMoves.length ∧
      (∀ id, id ∈ Board.standard.checkers ↔ Board.standard.GivesCheck id) ∧
      Board.standard.checkers.Nodup ∧
      (Board.standard.isCheck = true ↔ Board.standard.checkers ≠ []) ∧
      (Board.standard.isDoubleCheck = true ↔ 2 ≤ Board.standard.checkers.length) ∧
      (Board.standard.isCheckmate = true ↔
        Board.standard.isCheck = true ∧ Board.standard.legalMoves = []) ∧
      (Board.standard.isStalemate = true ↔ (Board.standard.kingSquare Board.standard.side).isSome ∧
        Board.standard.isCheck = false ∧ Board.standard.legalMoves = []) :=
  ⟨WellFormed.standard.toCoherent, Settled.standard,
    status_agrees_with_position WellFormed.standard.toCoherent Settled.standard⟩

end Board

end Chess
