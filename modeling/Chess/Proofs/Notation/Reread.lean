import Chess.Proofs.Notation.ReadBack
import Chess.Proofs.Move.Again

namespace Chess

/-! Moves read again on a mirrored board. Playing a move reads only its intent: its piece,
squares, castle and promotion, a pawn reaching its last rank promoting to a queen when it names
nothing. Standard algebraic notation read on a coherent, settled board gives a move that plays
as a listed one. Two boards that mirror each other under a renaming of the pieces list the same
moves, of renamed pieces, and tell their rivals apart alike; so a listed move played on one is
written as the same text as its counterpart on the other, and that text read there plays the
counterpart, leaving boards that mirror each other again. -/

namespace Move

/-- What playing a move reads of it: a pawn reaching its last rank with no promotion named
promotes to a queen, and a castle finds its rook on the board. -/
def intent (m : Move) : Move :=
  { lineage := m.lineage, piece := m.piece, kind := m.kind, color := m.color, origin := m.origin,
    target := m.target,
    promotion := if m.kind = .pawn ∧ m.target.rank = Rank.promotion m.color ∧ m.promotion.isNone
      then some .queen else m.promotion,
    promoted := m.promoted, castle := m.castle,
    castleRook := if m.castle.isSome then none else m.castleRook,
    outcome := m.outcome, executed := m.executed }

variable {m m' : Move} {b : Board}

theorem checkPlayable_intent {hop : Option RookHop} :
    m.intent.checkPlayable b = .ok hop ↔ m.checkPlayable b = .ok hop := by
  rw [checkPlayable_eq_ok, checkPlayable_eq_ok]
  cases castle : m.castle <;> simp [intent, castle]

theorem complete_intent (hop : Option RookHop) :
    m.intent.complete b hop = { m.complete b hop with verified := false } := by
  have casualty : m.intent.findCasualty b = m.findCasualty b := rfl
  rw [complete_eq, complete_eq, casualty]
  congr 1
  by_cases promotes : m.kind = .pawn ∧ m.target.rank = Rank.promotion m.color ∧ m.promotion.isNone
  · simp [intent, promotes]
  · rw [Option.isNone_iff_eq_none] at promotes
    simp [intent, promotes]

section Verified

variable (c : Move) (v : Bool) (x : Board)

theorem advanceClocks_verified : { c with verified := v }.advanceClocks x = c.advanceClocks x := rfl

theorem place_verified : { c with verified := v }.place x = c.place x := rfl

theorem passTurn_verified : { c with verified := v }.passTurn x = c.passTurn x := rfl

theorem promote_verified :
    { c with verified := v }.promote x = ({ (c.promote x).1 with verified := v }, (c.promote x).2) := by
  cases promo : c.promotion with
  | none => simp only [promote, promo]
  | some kind => simp only [promote, promo]; rfl

end Verified

theorem execute_intent {hop : Option RookHop} (checked : m.checkPlayable b = .ok hop) :
    m.intent.execute b = m.execute b := by
  unfold execute
  rw [checkPlayable_intent.mpr checked, checked]
  simp only [Except.ok_bind]
  rw [complete_intent, advanceClocks_verified, place_verified, promote_verified]
  generalize (m.complete b hop).promote ((m.complete b hop).place ((m.complete b hop).advanceClocks b)) = p
  obtain ⟨c, placed⟩ := p
  dsimp only
  rw [passTurn_verified]
  split <;> rfl

theorem execute_eq_of_intent (same : m.intent = m'.intent) {r : Move × Board}
    (run : m.execute b = .ok r) : m'.execute b = .ok r := by
  obtain ⟨hop, checked, -⟩ := execute_eq_ok run
  have checked' : m'.checkPlayable b = .ok hop :=
    checkPlayable_intent.mp (same ▸ checkPlayable_intent.mpr checked)
  rw [← execute_intent checked', ← same, execute_intent checked, run]

section Outcome

variable (c : Move) (o : Option Outcome) (x : Board)

theorem advanceClocks_outcome : { c with outcome := o }.advanceClocks x = c.advanceClocks x := rfl

theorem place_outcome : { c with outcome := o }.place x = c.place x := rfl

theorem promote_outcome :
    { c with outcome := o }.promote x = ({ (c.promote x).1 with outcome := o }, (c.promote x).2) := by
  cases promo : c.promotion with
  | none => simp only [promote, promo]
  | some kind => simp only [promote, promo]; rfl

theorem complete_outcome (hop : Option RookHop) :
    { c with outcome := o }.complete x hop = { c.complete x hop with outcome := o } := by
  rw [complete_eq, complete_eq]
  rfl

end Outcome

theorem playSteps_outcome (c : Move) (o : Option Outcome) (x : Board) (hop : Option RookHop) :
    { c with outcome := o }.playSteps x hop = ({ (c.playSteps x hop).1 with outcome := o }, (c.playSteps x hop).2) := by
  unfold playSteps
  rw [complete_outcome, advanceClocks_outcome, place_outcome, promote_outcome]

theorem execute_recorded {r : Move × Board} (run : m.execute b = .ok r) :
    { m with outcome := r.1.outcome }.execute b = .ok r := by
  obtain ⟨hop, checked, board, outcome, move⟩ := execute_eq_ok run
  have checked' : { m with outcome := r.1.outcome }.checkPlayable b = .ok hop :=
    checkPlayable_eq_ok.mpr ((checkPlayable_eq_ok (m := m)).mp checked)
  obtain ⟨r', run'⟩ := execute_ok_iff.mpr ⟨hop, checked'⟩
  obtain ⟨hop', checked'', board', move'⟩ := execute_of_outcome (m := { m with outcome := r.1.outcome }) (outcome_execute run) run'
  rw [checked'] at checked''
  cases checked''
  rw [playSteps_outcome] at board' move'
  rw [run']
  congr 1
  obtain ⟨r1, r2⟩ := r
  obtain ⟨r1', r2'⟩ := r'
  simp only at board move board' move' ⊢
  subst move board
  rw [move', board']
  rfl

theorem outcome_execute_fresh (fresh : m.outcome = none) {r : Move × Board} (run : m.execute b = .ok r) :
    r.1.outcome = some ⟨r.2.isCheck, r.2.isDoubleCheck, r.2.isCheckmate, r.2.isStalemate⟩ := by
  unfold execute at run
  obtain ⟨hop, -, played⟩ := Except.bind_eq_ok.mp run
  dsimp only at played
  have keeps : ((m.complete b hop).promote ((m.complete b hop).place
      ((m.complete b hop).advanceClocks b))).1.outcome = none := by
    obtain ⟨promoted, fields⟩ := promote_fst (m := m.complete b hop)
      ((m.complete b hop).place ((m.complete b hop).advanceClocks b))
    rw [fields, complete_eq]
    exact fresh
  generalize (m.complete b hop).promote ((m.complete b hop).place
    ((m.complete b hop).advanceClocks b)) = p at played keeps
  obtain ⟨c, placed⟩ := p
  dsimp only at keeps played
  simp only [keeps, Option.isNone_none, if_true] at played
  cases played
  rfl

theorem WrittenAlike.san_eq {n : Move} (alike : WrittenAlike n m) (outcome : n.outcome = m.outcome) :
    n.san = m.san := by
  simp only [san, alike.castle, alike.kind, alike.origin, alike.target, alike.capture, alike.fileUnique,
    alike.rankUnique, alike.promotion, outcome]

theorem rehearse_result {t : Trial} (trial : m.rehearse b = .ok t) :
    ∃ r, m.execute b = .ok r ∧ t.result = { r.1 with executed := false, promoted := none } := by
  unfold rehearse at trial
  cases run : m.execute b with
  | error e =>
    rw [run] at trial
    cases trial
  | ok r =>
    rw [run] at trial
    obtain ⟨played, afterPlay⟩ := r
    cases undo : played.unexecute afterPlay with
    | error e =>
      simp [undo] at trial
    | ok u =>
      simp only [undo, Except.ok_bind] at trial
      cases trial
      refine ⟨_, rfl, ?_⟩
      rw [Trial.result, (unexecute_eq_ok.mp undo).2.2.2]

theorem execute_trial (fresh : m.promoted = none) {r : Move × Board} (run : m.execute b = .ok r) :
    { r.1 with executed := false, promoted := none }.execute b = .ok r := by
  obtain ⟨hop, checked, -, outcome, move⟩ := execute_eq_ok run
  obtain ⟨promoted, fields⟩ := playSteps_fst (m := m) (w := b) hop
  refine execute_eq_of_intent ?_ (execute_recorded run)
  obtain ⟨-, unplayed, -, -, rook⟩ := checkPlayable_eq_ok.mp checked
  rw [move, fields]
  by_cases promotes : m.kind = .pawn ∧ m.target.rank = Rank.promotion m.color ∧ m.promotion.isNone
  · cases castle : m.castle <;> simp_all [intent, complete_eq]
  · rw [Option.isNone_iff_eq_none] at promotes
    cases castle : m.castle <;> simp_all [intent, complete_eq]

@[simp] theorem intent_verified (v : Bool) : { m with verified := v }.intent = m.intent := rfl

section Listed

variable (coherent : b.Coherent) (settled : b.Settled)
include coherent settled

omit settled in
theorem listed_of_build {id : PieceId} {o t : Square} {promo : Option PieceKind}
    (held : b.occupant o = some id)
    (named : ∀ k, promo = some k →
      k.isPromotionTarget = true ∧ (b.piece id).kind = .pawn ∧ t.rank = Rank.promotion (b.piece id).color)
    {hop : Option RookHop} (checked : (build b id o t promo none).checkPlayable b = .ok hop) :
    ∃ n ∈ b.legalMoves, n.intent = (build b id o t promo none).intent := by
  obtain ⟨-, -, -, side, rules⟩ := checkPlayable_eq_ok.mp checked
  simp only [color_build, castle_build, true_and, reduceCtorEq, false_and, exists_false,
    or_false, piece_build, target_build] at side rules
  have member : id ∈ b.roster b.side := (coherent.mem_roster_iff_of_occupant held _).mpr side.symm
  have at_ := coherent.piece_square_of_occupant held
  by_cases last : (b.piece id).kind = .pawn ∧ t.rank = Rank.promotion b.side
  · have choice : some (promo.getD .queen) ∈ b.promotionChoices id t := by
      unfold Board.promotionChoices
      rw [if_pos last]
      cases promo with
      | none => simp
      | some k =>
        have target := (named k rfl).1
        cases k <;> simp_all [PieceKind.isPromotionTarget]
    refine ⟨knownLegal b id o t (some (promo.getD .queen)) none,
      Board.mem_legalMoves.mpr (Or.inl ⟨id, member, o, at_, t, rules.1, _, choice, rfl⟩), ?_⟩
    rw [knownLegal_eq, intent_verified]
    cases promo <;> simp [intent, side, last, castleRook_build]
  · have plain : promo = none := by
      cases promo with
      | none => rfl
      | some k => exact absurd ⟨(named k rfl).2.1, side ▸ (named k rfl).2.2⟩ last
    subst plain
    refine ⟨knownLegal b id o t none none,
      Board.mem_legalMoves.mpr (Or.inl ⟨id, member, o, at_, t, rules.1, none, ?_, rfl⟩), rfl⟩
    simp [Board.promotionChoices, last]

theorem listed_of_castle {id : PieceId} {o t : Square} {side : CastleSide}
    (held : b.occupant o = some id) (isKing : (b.piece id).kind = .king) {hop : Option RookHop}
    (checked : (build b id o t none (some side)).checkPlayable b = .ok hop) :
    ∃ n ∈ b.legalMoves, n.intent = (build b id o t none (some side)).intent := by
  obtain ⟨-, -, -, color, rules⟩ := checkPlayable_eq_ok.mp checked
  simp only [color_build, castle_build, reduceCtorEq, false_and, Option.some.injEq, exists_and_left,
    exists_eq_left', target_build, false_or] at color rules
  obtain ⟨plan, found, lands, -⟩ := rules
  have castle := Board.openCastle_of_legalCastle? coherent settled found
  have member : id ∈ b.roster b.side := (coherent.mem_roster_iff_of_occupant held _).mpr color.symm
  have king : plan.king = id :=
    Option.some.inj (castle.king.symm.trans ((coherent.king_iff _ _).mpr ⟨member, isKing⟩))
  have origin : plan.kingFrom = o := by
    have kingAt := coherent.piece_square_of_occupant castle.kingHeld
    rw [king, coherent.piece_square_of_occupant held, Option.some.injEq] at kingAt
    exact kingAt.symm
  refine ⟨knownLegal b plan.king plan.kingFrom plan.kingTo none (some side),
    Board.mem_legalMoves.mpr (Or.inr ⟨side, plan, found, rfl⟩), ?_⟩
  rw [king, origin, lands, knownLegal_eq, intent_verified]

omit coherent settled in
theorem Fits.trial {m' : Move} (fits : m'.Fits b) {t : Trial} (trial : m'.rehearse b = .ok t) :
    t.result.Fits b := by
  obtain ⟨r, run, result⟩ := rehearse_result trial
  have played := fits.played run
  rw [result]
  exact ⟨played.kind, played.color, played.castle, played.promotion, fun held => by simp at held⟩

omit coherent settled in
theorem trial_listed {m' n : Move} (fresh : m'.promoted = none) (fits : m'.Fits b)
    (listed : n ∈ b.legalMoves) (same : n.intent = m'.intent) {t : Trial} (trial : m'.rehearse b = .ok t) :
    ∃ n ∈ b.legalMoves, ∃ r, n.execute b = .ok r ∧ t.result.execute b = .ok r ∧ t.result.Fits b := by
  obtain ⟨r, run, result⟩ := rehearse_result trial
  exact ⟨n, listed, r, execute_eq_of_intent same.symm run, result ▸ execute_trial fresh run,
    fits.trial trial⟩

theorem new_listed {o t : Square} {promo : Option PieceKind} {k : Move}
    (made : Move.new b o t promo = .ok k) :
    ∃ n ∈ b.legalMoves, ∃ r, n.execute b = .ok r ∧ k.execute b = .ok r ∧ k.Fits b := by
  unfold Move.new at made
  obtain ⟨m', prepared, rest⟩ := Except.bind_eq_ok.mp made
  obtain ⟨trial, rehearsed, result⟩ := Except.bind_eq_ok.mp rest
  cases result
  obtain ⟨r, run, -⟩ := rehearse_result rehearsed
  obtain ⟨hop, checked, -⟩ := execute_eq_ok run
  have fits := (Fits.prepare prepared).1
  obtain ⟨id, held, ⟨side, kingTo, isKing, rfl⟩ | ⟨rfl, named⟩⟩ := prepare_eq_ok prepared
  · obtain ⟨n, listed, same⟩ := listed_of_castle coherent settled held isKing checked
    exact trial_listed promoted_build fits listed same rehearsed
  · obtain ⟨n, listed, same⟩ := listed_of_build coherent held named checked
    exact trial_listed promoted_build fits listed same rehearsed

theorem castleOn_listed {side : CastleSide} {k : Move} (made : castleOn b side = .ok k) :
    ∃ n ∈ b.legalMoves, ∃ r, n.execute b = .ok r ∧ k.execute b = .ok r ∧ k.Fits b := by
  unfold castleOn at made
  dsimp only at made
  cases king : b.king b.side with
  | none => simp [king] at made
  | some id =>
    rw [king] at made
    dsimp only at made
    cases square : (b.piece id).square with
    | none => simp [square] at made
    | some o =>
      rw [square] at made
      dsimp only at made
      obtain ⟨trial, rehearsed, result⟩ := Except.bind_eq_ok.mp made
      cases result
      obtain ⟨r, run, -⟩ := rehearse_result rehearsed
      obtain ⟨hop, checked, -⟩ := execute_eq_ok run
      have isKing := ((coherent.king_iff _ _).mp king).2
      have fits : (build b id o (Square.make side.kingFile (Rank.back b.side)) none (some side)).Fits b :=
        ⟨by simp, by simp, fun _ => by simpa using isKing, by simp, by simp⟩
      obtain ⟨n, listed, same⟩ :=
        listed_of_castle coherent settled (coherent.occupant_of_square square) isKing checked
      exact trial_listed promoted_build fits listed same rehearsed

end Listed

end Move

namespace Board

variable {σ : PieceId → PieceId} {x y : Board}

theorem Mirrors.disambiguation (mir : Mirrors σ x y) (cx : x.Coherent) (cy : y.Coherent)
    (sx : x.Settled) (sy : y.Settled) {id : PieceId} (tracked : x.Tracks id) (t : Square) :
    y.disambiguation (σ id) t = x.disambiguation id t := by
  have look := mir.lookalike cx cy sx sy
  unfold Board.disambiguation
  dsimp only
  rw [← mir.square tracked, ← mir.color tracked, ← mir.kind tracked, mir.roster]
  split
  · rfl
  · rename_i origin _
    rw [← Array.foldl_toList, ← Array.foldl_toList, Array.toList_map, List.foldl_map]
    apply List.foldl_ext
    intro acc other member
    have trackedO : x.Tracks other := tracks_of_roster (Array.mem_toList_iff.mp member)
    have same : σ other = σ id ↔ other = id :=
      ⟨mir.injective other id trackedO tracked, fun eq => eq ▸ rfl⟩
    rw [← mir.kind trackedO, ← mir.captured trackedO, ← mir.square trackedO]
    simp only [same]
    cases square : (x.piece other).square with
    | none => rfl
    | some s =>
      have heldX := cx.occupant_of_square square
      have heldY : y.occupant s = some (σ other) := by rw [mir.occupant, heldX, Option.map_some]
      have targets : (x.piece other).targets = (y.piece (σ other)).targets :=
        congrArg Sight.targets (look.sight_piece cx cy heldX heldY)
      rw [← targets]

end Board

theorem San.parse_listed {b : Board} (coherent : b.Coherent) (settled : b.Settled) {text : String}
    {k : Move} (read : San.parse b text = .ok k) :
    ∃ n ∈ b.legalMoves, ∃ r, n.execute b = .ok r ∧ k.execute b = .ok r ∧ k.Fits b := by
  unfold San.parse San.parseNoted at read
  dsimp only at read
  split at read
  · cases read
  · rw [Move.castleOnNoted_quiet] at read
    exact Move.castleOn_listed coherent settled read
  · split at read
    · cases read
    · split at read
      · cases read
      · split at read
        · rw [Move.newNoted_quiet] at read
          exact Move.new_listed coherent settled read
        · cases read

namespace Move

variable {b v w : Board} {m n : Move}

theorem eq_knownLegal_of_listed (coherent : b.Coherent) (settled : b.Settled) (listed : m ∈ b.legalMoves) :
    b.occupant m.origin = some m.piece ∧
      m = knownLegal b m.piece m.origin m.target m.promotion m.castle := by
  rcases Board.mem_legalMoves.mp listed with
    ⟨id, -, o, at_, t, -, promo, -, rfl⟩ | ⟨side, plan, found, rfl⟩
  · refine ⟨?_, by simp [knownLegal_eq]⟩
    simpa [knownLegal_eq] using coherent.occupant_of_square at_
  · refine ⟨?_, by simp [knownLegal_eq]⟩
    simpa [knownLegal_eq] using (Board.openCastle_of_legalCastle? coherent settled found).kingHeld

theorem WrittenAlike.symm {k : Move} (alike : WrittenAlike k m) : WrittenAlike m k :=
  ⟨alike.castle.symm, alike.kind.symm, alike.origin.symm, alike.target.symm, alike.capture.symm,
    alike.fileUnique.symm, alike.rankUnique.symm, alike.promotion.symm⟩

theorem WrittenAlike.trans {k : Move} (first : WrittenAlike k m) (second : WrittenAlike m n) :
    WrittenAlike k n :=
  ⟨first.castle.trans second.castle, first.kind.trans second.kind, first.origin.trans second.origin,
    first.target.trans second.target, first.capture.trans second.capture,
    first.fileUnique.trans second.fileUnique, first.rankUnique.trans second.rankUnique,
    first.promotion.trans second.promotion⟩

theorem execute_of_read (cw : w.Coherent) {n' k : Move} (listed' : n' ∈ w.legalMoves)
    (same : k.playsSame n' = true)
    (read : ∃ n ∈ w.legalMoves, ∃ r, n.execute w = .ok r ∧ k.execute w = .ok r ∧ k.Fits w)
    {r' : Move × Board} (run' : n'.execute w = .ok r') : k.execute w = .ok r' ∧ k.Fits w := by
  obtain ⟨n'', listed'', r'', run'', played, fitsK⟩ := read
  have agrees : n''.playsSame n' = true :=
    playsSame_trans (playsSame_trans (by rw [playsSame_comm]; exact playsSame_execute run'')
      (playsSame_execute played)) same
  obtain rfl := eq_of_playsSame cw listed'' listed' agrees
  rw [run'] at run''
  obtain rfl := Except.ok.inj run''
  exact ⟨played, fitsK⟩

section Mirrored

variable {σ : PieceId → PieceId} (mir : Board.Mirrors σ v w) (cv : v.Coherent) (cw : w.Coherent)
  (sv : v.Settled) (sw : w.Settled)
include mir cv cw sv sw

theorem writtenAlike_knownLegal {id : PieceId} (tracked : v.Tracks id) (o t : Square)
    (promo : Option PieceKind) (castle : Option CastleSide) :
    WrittenAlike (knownLegal w (σ id) o t promo castle) (knownLegal v id o t promo castle) := by
  have casualty := findCasualty_of_mirrors mir (m := build v id o t promo castle)
    (k := build w (σ id) o t promo castle) (by simp) (by simp [mir.kind tracked])
    (by simp [mir.color tracked]) (by simp) (by simp)
  have flags := mir.disambiguation cv cw sv sw tracked t
  refine ⟨by simp [knownLegal_eq], by simp [knownLegal_eq, mir.kind tracked], by simp [knownLegal_eq],
    by simp [knownLegal_eq], ?_, by simp [knownLegal_eq, flags], by simp [knownLegal_eq, flags],
    by simp [knownLegal_eq]⟩
  simp only [isCapture, knownLegal_eq, casualty_build]
  rw [casualty, Option.isSome_map]

omit cv cw sv sw in
theorem intent_knownLegal {id : PieceId} (tracked : v.Tracks id) (o t : Square)
    (promo : Option PieceKind) (castle : Option CastleSide) :
    (knownLegal w (σ id) o t promo castle).intent = ((knownLegal v id o t promo castle).replica σ).intent := by
  cases castle <;>
    simp [intent, knownLegal_eq, replica, castleRook_build, mir.lineage, mir.kind tracked, mir.color tracked]

omit cv cw sv sw in
theorem playsSame_knownLegal_renamed {id : PieceId} (tracked : v.Tracks id) (o t : Square)
    (promo : Option PieceKind) (castle : Option CastleSide) :
    (knownLegal w (σ id) o t promo castle).playsSame (knownLegal v id o t promo castle) = true := by
  simp [playsSame, promotionPiece, knownLegal_eq, mir.kind tracked, mir.color tracked]

/-- A listed move played on one of two mirrored boards has its counterpart listed on the
other: the board's move of the renamed piece with the same squares, castle and promotion, which
plays to a mirrored board and is written as the first move was played. -/
theorem plays_mirrored (listed : n ∈ v.legalMoves) {r : Move × Board} (run : n.execute v = .ok r) :
    ∃ id o t promo castle, n = knownLegal v id o t promo castle ∧ v.Tracks id ∧
      knownLegal w (σ id) o t promo castle ∈ w.legalMoves ∧
      ∃ r' σ', (knownLegal w (σ id) o t promo castle).execute w = .ok r' ∧ Board.Mirrors σ' r.2 r'.2 ∧
        r'.1.san = r.1.san ∧ WrittenAlike (knownLegal w (σ id) o t promo castle) r.1 := by
  have look := mir.lookalike cv cw sv sw
  obtain ⟨held, shape⟩ := eq_knownLegal_of_listed cv sv listed
  obtain ⟨id, o, t, promo, castle, rfl⟩ : ∃ id o t promo castle, n = knownLegal v id o t promo castle :=
    ⟨_, _, _, _, _, shape⟩
  simp only [knownLegal_eq, piece_build, origin_build] at held
  have tracked : v.Tracks id := Board.tracks_of_occupant held
  obtain ⟨n', listed', summary⟩ : ∃ n' ∈ w.legalMoves, n'.summary = (o, t, promo, castle) := by
    have mem := (look.mem_legalMoves_summary cv cw _).mp (List.mem_map_of_mem listed)
    simpa [Move.summary_knownLegal] using mem
  obtain ⟨held', shape'⟩ := eq_knownLegal_of_listed cw sw listed'
  obtain ⟨id', o', t', promo', castle', rfl⟩ :
      ∃ id o t promo castle, n' = knownLegal w id o t promo castle := ⟨_, _, _, _, _, shape'⟩
  simp only [Move.summary_knownLegal, Prod.mk.injEq] at summary
  obtain ⟨ho, ht, hp, hc⟩ := summary
  subst o' t' promo' castle'
  simp only [knownLegal_eq, piece_build, origin_build] at held'
  have renamed : id' = σ id := by
    rw [mir.occupant, held, Option.map_some] at held'
    exact (Option.some.inj held').symm
  subst renamed
  have fits := Board.fits_of_mem_legalMoves cv sv listed
  obtain ⟨σ', r', replayed, mirrored, -⟩ := execute_replica mir cv cw sv sw fits run
  have run' : (knownLegal w (σ id) o t promo castle).execute w = .ok r' :=
    execute_eq_of_intent (intent_knownLegal mir tracked o t promo castle).symm replayed
  have look' := mirrored.lookalike (cv.execute sv fits run)
    (cw.execute sw (Board.fits_of_mem_legalMoves cw sw listed') run') (Board.Settled.execute run)
    (Board.Settled.execute run')
  have alike : WrittenAlike (knownLegal w (σ id) o t promo castle) r.1 :=
    (writtenAlike_knownLegal mir cv cw sv sw tracked o t promo castle).trans
      (writtenAlike_execute cv sv listed run).symm
  have outcome : r'.1.outcome = r.1.outcome := by
    rw [outcome_execute_fresh (by simp [knownLegal_eq]) run', outcome_execute_fresh (by simp [knownLegal_eq]) run,
      look'.isCheck, look'.isDoubleCheck, look'.isCheckmate, look'.isStalemate]
  have written : r'.1.san = r.1.san :=
    ((writtenAlike_execute cw sw listed' run').trans alike).san_eq outcome
  exact ⟨id, o, t, promo, castle, rfl, tracked, listed', r', σ', run', mirrored, written, alike⟩

omit cv cw sv sw in
theorem playsSame_played_mirrored {id : PieceId} (tracked : v.Tracks id) {o t : Square}
    {promo : Option PieceKind} {castle : Option CastleSide} {r r' : Move × Board}
    (run' : (knownLegal w (σ id) o t promo castle).execute w = .ok r')
    (run : (knownLegal v id o t promo castle).execute v = .ok r) : r'.1.playsSame r.1 = true :=
  playsSame_trans (playsSame_execute run') (playsSame_trans
    (playsSame_knownLegal_renamed mir tracked o t promo castle)
    (by rw [playsSame_comm]; exact playsSame_execute run))

theorem reads_mirrored (listed : n ∈ v.legalMoves) {r : Move × Board} (run : n.execute v = .ok r) :
    ∃ k r' σ', San.parse w r.1.san = .ok k ∧ k.Fits w ∧ k.execute w = .ok r' ∧
      Board.Mirrors σ' r.2 r'.2 ∧ r'.1.san = r.1.san ∧ r'.1.playsSame r.1 = true := by
  obtain ⟨id, o, t, promo, castle, rfl, tracked, listed', r', σ', run', mirrored, written, alike⟩ :=
    plays_mirrored mir cv cw sv sw listed run
  obtain ⟨k, read, same⟩ := parse_san_of_writtenAlike cw sw listed' alike.symm
  obtain ⟨played, fitsK⟩ := execute_of_read cw listed' same (San.parse_listed cw sw read) run'
  exact ⟨k, r', σ', read, fitsK, played, mirrored, written, playsSame_played_mirrored mir tracked run' run⟩

end Mirrored

end Move

end Chess
