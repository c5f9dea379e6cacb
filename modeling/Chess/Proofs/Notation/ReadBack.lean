import Chess.Proofs.Notation.MoveText
import Chess.Proofs.Move.Prepare

namespace Chess

/-! Legal moves read back from their text. The readers of move text run a move through a trial
on a copy of the board and keep a journal of it; the journal never changes what they answer.
A listed move is played and taken back without fail, and the move the trial gives back plays
the same as the listed one. With the text layer, standard algebraic notation and coordinate
notation of every listed move read back as a move that plays the same. -/

theorem Noted.run_bind {α β : Type} (x : Noted α) (f : α → Noted β) (s : Array Entry) :
    (x >>= f).run s = (f (x.run s).1).run (x.run s).2 := rfl

namespace Move

variable {m : Move} {b : Board}

theorem executeNoted_run (m : Move) (b : Board) (s : Array Entry) :
    ((m.executeNoted b).run s).1 = m.execute b := by
  unfold executeNoted
  cases m.execute b with
  | error e => rfl
  | ok r =>
    simp only [StateT.run_bind]
    unfold Noted.regenerated
    split <;> rfl

theorem unexecuteNoted_run (m : Move) (b : Board) (s : Array Entry) :
    ((m.unexecuteNoted b).run s).1 = m.unexecute b := by
  unfold unexecuteNoted
  cases m.unexecute b with
  | error e => rfl
  | ok r =>
    simp only [StateT.run_bind]
    unfold Noted.regenerated
    split <;> rfl

theorem rehearseNoted_run (m : Move) (b : Board) (s : Array Entry) :
    ((m.rehearseNoted b).run s).1 = (m.rehearse b).map Trial.result := by
  rw [rehearseNoted, Noted.run_bind, executeNoted_run]
  unfold rehearse
  cases m.execute b with
  | error e => rfl
  | ok r =>
    obtain ⟨played, afterPlay⟩ := r
    dsimp only
    rw [Noted.run_bind, unexecuteNoted_run]
    simp only [bind, Except.bind]
    cases played.unexecute afterPlay with
    | error e => rfl
    | ok t => rfl

theorem newNoted_quiet (b : Board) (origin target : Square) (promotion : Option PieceKind) :
    (newNoted b origin target promotion).quiet = Move.new b origin target promotion := by
  unfold newNoted Move.new Noted.quiet
  cases prepare b origin target promotion with
  | error e => rfl
  | ok m =>
    simp only [Except.ok_bind]
    rw [Id.run, rehearseNoted_run]
    cases m.rehearse b <;> rfl

theorem castleOnNoted_quiet (b : Board) (side : CastleSide) :
    (castleOnNoted b side).quiet = castleOn b side := by
  unfold castleOnNoted castleOn Noted.quiet
  dsimp only
  cases b.king b.side with
  | none => rfl
  | some king =>
    dsimp only
    cases (b.piece king).square with
    | none => rfl
    | some origin =>
      dsimp only
      rw [Id.run, rehearseNoted_run]
      cases (build b king origin _ none (some side)).rehearse b <;> rfl

end Move

theorem PieceKind.ofUpper?_sanLetter {k : PieceKind} {c : Char} (letter : k.sanLetter? = some c) :
    PieceKind.ofUpper? c = some k := by
  cases k <;> simp only [PieceKind.sanLetter?, reduceCtorEq, Option.some.injEq] at letter <;>
    subst letter <;> rfl

theorem PieceKind.ofUpper?_lower (k : PieceKind) : PieceKind.ofUpper? k.lower.toUpper = some k := by
  cases k <;> rfl

namespace San

variable {b : Board} {text : String}

theorem parse_of_castle {side : CastleSide}
    (read : form? (Text.trimBlank text) = some (.castle side)) :
    parse b text = Move.castleOn b side := by
  unfold parse parseNoted
  simp only [read]
  exact Move.castleOnNoted_quiet b side

theorem parse_of_piece {letter file rank : Option Char} {capture : Bool} {target : Char × Char}
    {promotion : Option Char} {kind : PieceKind} {fileHint : Option File} {rankHint : Option Rank}
    {dest : Square} {promo : Option PieceKind} {id : PieceId} {origin : Square}
    (read : form? (Text.trimBlank text) = some (.piece letter file rank capture target promotion))
    (request : pieceRequest letter file rank target promotion =
      some (kind, fileHint, rankHint, dest, promo))
    (found : b.getOrigin kind fileHint rankHint dest = .ok id)
    (at_ : (b.piece id).square = some origin) :
    parse b text = Move.new b origin dest promo := by
  unfold parse parseNoted
  simp only [read, request, found, at_]
  exact Move.newNoted_quiet b origin dest promo

theorem pieceRequest_moveText (kind : PieceKind) (file : Option File) (rank : Option Rank)
    (t : Square) {promo : Option PieceKind} (promoted : promo.all PieceKind.isPromotionTarget) :
    pieceRequest kind.sanLetter? (file.map File.letter) (rank.map Rank.digit)
        (t.file.letter, t.rank.digit) (promo.bind PieceKind.sanLetter?) =
      some (kind, file, rank, t, promo) := by
  have square := Square.ofName?_name t
  unfold Square.name at square
  obtain ⟨promoLetter, letters, readPromo⟩ : ∃ p, promo.bind PieceKind.sanLetter? = p ∧
      (p.map fun c => PieceKind.ofUpper? c) = promo.map some := by
    rcases promo with _ | k
    · exact ⟨none, rfl, rfl⟩
    · cases k <;> simp_all [PieceKind.isPromotionTarget, PieceKind.sanLetter?, PieceKind.ofUpper?]
  unfold pieceRequest
  rw [letters]
  cases letter : kind.sanLetter? with
  | none =>
    have pawn : kind = .pawn := by cases kind <;> simp_all [PieceKind.sanLetter?]
    subst pawn
    rcases file with _ | f <;> rcases rank with _ | r <;> rcases promoLetter with _ | c <;>
      rcases promo with _ | k <;> simp_all [File.ofChar?_letter, Rank.ofChar?_digit]
  | some l =>
    rcases file with _ | f <;> rcases rank with _ | r <;> rcases promoLetter with _ | c <;>
      rcases promo with _ | k <;>
      simp_all [File.ofChar?_letter, Rank.ofChar?_digit, PieceKind.ofUpper?_sanLetter letter]

theorem parse_moveText {kind : PieceKind} {file : Option File} {rank : Option Rank} {capture : Bool}
    {t : Square} {promo : Option PieceKind} (promoted : promo.all PieceKind.isPromotionTarget)
    {mark : List Char} (marked : IsMark mark) {id : PieceId} {origin : Square}
    (found : b.getOrigin kind file rank t = .ok id) (at_ : (b.piece id).square = some origin) :
    parse b (String.ofList (moveText kind.sanLetter? file rank capture t
      (promo.bind PieceKind.sanLetter?) mark)) = Move.new b origin t promo := by
  have lettered : kind.sanLetter?.all fun c => "NBRQK".toList.contains c := by
    cases kind <;> decide
  have promoLettered : (promo.bind PieceKind.sanLetter?).all fun c => "NBRQ".toList.contains c := by
    rcases promo with _ | k
    · rfl
    · cases k <;> simp_all [PieceKind.isPromotionTarget] <;> decide
  exact parse_of_piece (form?_moveText lettered promoLettered marked)
    (pieceRequest_moveText kind file rank t promoted) found at_

theorem parse_castleText (side : CastleSide) {mark : List Char} (marked : IsMark mark) :
    parse b (String.ofList (side.san.toList ++ mark)) = Move.castleOn b side :=
  parse_of_castle (form?_castle side marked)

end San

namespace Move

variable {m : Move}

theorem san_toList_mark (m : Move) :
    ∃ mark, San.IsMark mark ∧ m.san.toList = { m with outcome := none }.san.toList ++ mark := by
  unfold san
  simp only [String.toList_append]
  cases m.outcome with
  | none =>
    refine ⟨[], Or.inl rfl, ?_⟩
    simp only [String.toList_empty, List.append_nil]
    rfl
  | some o =>
    refine ⟨(if o.checkmate then "#" else if o.check then "+" else "").toList, ?marked, ?text⟩
    case text =>
      simp only [String.toList_empty, List.append_nil]
      rfl
    by_cases mate : o.checkmate
    · exact Or.inr (Or.inr (by simp [mate]))
    · by_cases check : o.check
      · exact Or.inr (Or.inl (by simp [mate, check]))
      · exact Or.inl (by simp [mate, check])

theorem san_toList_of_castle {side : CastleSide} (castle : m.castle = some side) :
    ∃ mark, San.IsMark mark ∧ m.san.toList = side.san.toList ++ mark := by
  obtain ⟨mark, marked, text⟩ := san_toList_mark m
  refine ⟨mark, marked, ?_⟩
  rw [text]
  simp [san, castle]

theorem san_toList_pawn (castle : m.castle = none) (pawn : m.kind = .pawn) :
    ∃ mark, San.IsMark mark ∧ m.san.toList =
      San.moveText none (if m.isCapture then some m.origin.file else none) none m.isCapture m.target
        (m.promotion.bind PieceKind.sanLetter?) mark := by
  obtain ⟨mark, marked, text⟩ := san_toList_mark m
  refine ⟨mark, marked, ?_⟩
  rw [text]
  simp only [san, castle, pawn, if_true, isCapture]
  by_cases capture : m.casualty.isSome = true <;> cases m.promotion.bind PieceKind.sanLetter? <;>
    simp [capture, San.moveText, San.captureText, San.promotionText, Square.name]

theorem san_toList_piece (castle : m.castle = none) (notPawn : m.kind ≠ .pawn) :
    ∃ mark, San.IsMark mark ∧ m.san.toList =
      San.moveText m.kind.sanLetter? (Board.fileHint (m.fileUnique, m.rankUnique) m.origin)
        (Board.rankHint (m.fileUnique, m.rankUnique) m.origin) m.isCapture m.target none mark := by
  obtain ⟨mark, marked, text⟩ := san_toList_mark m
  refine ⟨mark, marked, ?_⟩
  rw [text]
  simp only [san, castle, notPawn, if_false, isCapture]
  by_cases capture : m.casualty.isSome = true <;>
    cases m.fileUnique <;> cases m.rankUnique <;> cases m.kind.sanLetter? <;>
    simp [capture, San.moveText, San.captureText, San.promotionText, Square.name, Board.fileHint,
      Board.rankHint]

theorem uci_toList_of_castle_none (castle : m.castle = none) :
    m.uci.toList = [m.origin.file.letter, m.origin.rank.digit, m.target.file.letter,
      m.target.rank.digit] ++ (m.promotion.map PieceKind.lower).toList := by
  unfold uci
  cases m.castleRook <;> cases m.promotion <;> simp [castle, Square.name, PieceKind.name]

theorem uci_toList_of_castle {side : CastleSide} {hop : RookHop} (castle : m.castle = some side)
    (rook : m.castleRook = some hop) (promotion : m.promotion = none) :
    ∃ target, ((target = m.target ∧
        ((m.target.file.index.val : Int) - m.origin.file.index.val).natAbs = 2) ∨
        target = hop.origin) ∧
      m.uci.toList = [m.origin.file.letter, m.origin.rank.digit, target.file.letter,
        target.rank.digit] := by
  by_cases two : ((m.target.file.index.val : Int) - m.origin.file.index.val).natAbs = 2
  · exact ⟨m.target, Or.inl ⟨rfl, two⟩, by simp [uci, castle, rook, promotion, two, Square.name]⟩
  · exact ⟨hop.origin, Or.inr rfl, by simp [uci, castle, rook, promotion, two, Square.name]⟩

end Move

namespace Uci

theorem parse_squares (b : Board) (o t : Square) (promo : Option PieceKind) :
    parse b (String.ofList ([o.file.letter, o.rank.digit, t.file.letter, t.rank.digit] ++
      (promo.map PieceKind.lower).toList)) = Move.new b o t promo := by
  have printable : ∀ c ∈ [o.file.letter, o.rank.digit, t.file.letter, t.rank.digit] ++
      (promo.map PieceKind.lower).toList, Text.Printable c := by
    intro c member
    simp only [List.cons_append, List.nil_append, List.mem_cons, Option.mem_toList,
      Option.map_eq_some_iff] at member
    rcases member with rfl | rfl | rfl | rfl | ⟨k, -, rfl⟩
    · exact (File.letter_printable _).1
    · exact (Rank.digit_printable _).1
    · exact (File.letter_printable _).1
    · exact (Rank.digit_printable _).1
    · cases k <;> decide
  have ascii : ([o.file.letter, o.rank.digit, t.file.letter, t.rank.digit] ++
      (promo.map PieceKind.lower).toList).all (·.toNat < 128) = true :=
    List.all_eq_true.mpr fun c member => decide_eq_true (printable c member).ascii.2.1
  have origin := Square.ofName?_name o
  have target := Square.ofName?_name t
  unfold Square.name at origin target
  simp only [String.ofList_cons, String.ofList_nil, String.append_empty, String.append_singleton]
    at origin target
  unfold parse parseNoted
  rw [Text.trimBlank_printable printable]
  simp only [String.utf8ByteSize_ofList, Text.utf8Len_printable printable, String.toList_ofList,
    ascii]
  cases promo with
  | none =>
    simp only [Option.map_none, Option.toList_none, List.append_nil]
    simp [origin, target, Move.newNoted_quiet]
  | some k =>
    simp only [Option.map_some, Option.toList_some]
    simp [origin, target, PieceKind.ofUpper?_lower, Move.newNoted_quiet]

end Uci

namespace Move

variable {b : Board} {m : Move}

/-- Two moves written alike before their check or mate mark: the same castle, piece kind,
squares, capture, origin flags and promotion. -/
structure WrittenAlike (n m : Move) : Prop where
  castle : n.castle = m.castle
  kind : n.kind = m.kind
  origin : n.origin = m.origin
  target : n.target = m.target
  capture : n.isCapture = m.isCapture
  fileUnique : n.fileUnique = m.fileUnique
  rankUnique : n.rankUnique = m.rankUnique
  promotion : n.promotion = m.promotion

theorem WrittenAlike.refl (m : Move) : WrittenAlike m m :=
  ⟨rfl, rfl, rfl, rfl, rfl, rfl, rfl, rfl⟩

variable (coherent : b.Coherent) (settled : b.Settled)
include coherent settled

theorem promotion_isSome_of_mem_legalMoves (listed : m ∈ b.legalMoves) (pawn : m.kind = .pawn)
    (last : m.target.rank = Rank.promotion m.color) : m.promotion.isSome := by
  rcases Board.mem_legalMoves.mp listed with
    ⟨id, member, o, -, t, -, promo, choice, rfl⟩ | ⟨side, plan, found, rfl⟩
  · simp only [knownLegal_eq, kind_build, target_build, color_build,
      coherent.color_of_roster member, promotion_build] at pawn last ⊢
    rcases Board.promotion_of_mem_promotionChoices choice with ⟨-, plain⟩ | ⟨-, -, k, rfl, -⟩
    · exact absurd ⟨pawn, last⟩ plain
    · rfl
  · have king := (Board.kind_of_legalCastle? coherent settled found).1
    simp only [knownLegal_eq, kind_build, king, reduceCtorEq] at pawn

/-- Playing a listed move writes it as before, but for the check or mate mark: completing it
against the board it is listed on finds the same capture and origin flags, and it names its
promotion already. -/
theorem writtenAlike_execute (listed : m ∈ b.legalMoves) {r : Move × Board}
    (run : m.execute b = .ok r) : WrittenAlike r.1 m := by
  obtain ⟨hop, -, -, outcome, move⟩ := execute_eq_ok run
  obtain ⟨promoted, fields⟩ := playSteps_fst (m := m) (w := b) hop
  have keeps : (m.complete b hop).promotion = m.promotion := by
    rw [promotion_complete, if_neg]
    rintro ⟨pawn, last, none_⟩
    have named := promotion_isSome_of_mem_legalMoves coherent settled listed pawn last
    simp_all
  obtain ⟨id, o, t, promo, castle, rfl⟩ : ∃ id o t promo castle,
      m = knownLegal b id o t promo castle := by
    rcases Board.mem_legalMoves.mp listed with
      ⟨id, -, o, -, t, -, promo, -, rfl⟩ | ⟨side, plan, -, rfl⟩
    · exact ⟨id, o, t, promo, none, rfl⟩
    · exact ⟨plan.king, plan.kingFrom, plan.kingTo, none, some side, rfl⟩
  rw [move, fields]
  refine ⟨by simp, by simp, by simp, by simp, ?_, ?_, ?_, keeps⟩
  · simp only [isCapture, casualty_complete, knownLegal_eq, casualty_build]
    rfl
  · simp [knownLegal_eq, complete_eq]
  · simp [knownLegal_eq, complete_eq]

theorem isCapture_pawn {id : PieceId} {o t : Square} {promo : Option PieceKind}
    (member : id ∈ b.roster b.side) (at_ : (b.piece id).square = some o)
    (pawn : (b.piece id).kind = .pawn) (reaches : (b.piece id).targets.contains t = true) :
    (build b id o t promo none).isCapture = decide (t.file ≠ o.file) := by
  have color := coherent.color_of_roster member
  have byO := settled.pawnReaches (Board.tracks_of_roster member) pawn at_ reaches
  rw [isCapture, casualty_build]
  unfold findCasualty
  simp only [castle_build, Option.isSome_none, Bool.false_eq_true, if_false, target_build,
    color_build, kind_build, origin_build, pawn, true_and]
  cases byO with
  | push ahead empty =>
    simp [empty, Square.file_of_ahead ahead]
  | double ahead _ _ beyond emptyTwo =>
    simp [emptyTwo, (Square.file_of_ahead beyond).trans (Square.file_of_ahead ahead)]
  | take diagonal held enemy =>
    obtain ⟨v, occupied, rfl⟩ := Option.map_eq_some_iff.mp held
    simp [occupied, enemy, Square.file_ne_of_mem_pawnAttacks diagonal]
  | passant diagonal empty open_ =>
    have vacant : b.occupant t = none := Option.map_eq_none_iff.mp empty
    obtain ⟨s, victim⟩ := Option.isSome_iff_exists.mp (open_.resolve_left (not_not.mpr color.symm))
    obtain ⟨-, -, p, standing, -⟩ := Board.enPassantVictim?_spec victim
    obtain ⟨v, occupied, -⟩ := Option.map_eq_some_iff.mp standing
    have apart := Square.file_ne_of_mem_pawnAttacks diagonal
    simp [vacant, victim, occupied, apart, Ne.symm apart]

theorem parse_san_of_writtenAlike (listed : m ∈ b.legalMoves) {n : Move}
    (alike : WrittenAlike n m) : ∃ k, San.parse b n.san = .ok k ∧ k.playsSame m = true := by
  rcases Board.mem_legalMoves.mp listed with
    ⟨id, member, o, at_, t, reaches, promo, choice, rfl⟩ | ⟨side, plan, found, rfl⟩
  · have castle : n.castle = none := by simpa [knownLegal_eq] using alike.castle
    have origin : n.origin = o := by simpa [knownLegal_eq] using alike.origin
    have target : n.target = t := by simpa [knownLegal_eq] using alike.target
    have promotion : n.promotion = promo := by simpa [knownLegal_eq] using alike.promotion
    have promoted : promo.all PieceKind.isPromotionTarget := by
      rcases Board.promotion_of_mem_promotionChoices choice with ⟨rfl, -⟩ | ⟨-, -, k, rfl, promotes⟩
      · rfl
      · exact promotes
    by_cases pawn : (b.piece id).kind = .pawn
    · have pawnN : n.kind = .pawn := by simpa [knownLegal_eq, pawn] using alike.kind
      have capture : n.isCapture = decide (t.file ≠ o.file) :=
        alike.capture.trans (isCapture_pawn coherent settled member at_ pawn reaches)
      have hint : (if decide (t.file ≠ o.file) = true then some o.file else none) =
          if t.file = o.file then none else some o.file := by
        by_cases straight : t.file = o.file <;> simp [straight]
      obtain ⟨mark, marked, text⟩ := san_toList_pawn castle pawnN
      rw [← String.ofList_toList (s := n.san), text, capture, origin, target, promotion, hint]
      rw [show (none : Option Char) = PieceKind.pawn.sanLetter? from rfl, San.parse_moveText promoted
        marked (Board.getOrigin_pawn coherent settled member at_ pawn reaches) at_]
      exact new_of_target coherent settled member at_ reaches choice
    · have notPawn : n.kind ≠ .pawn := by simpa [knownLegal_eq] using alike.kind ▸ pawn
      have kind : n.kind = (b.piece id).kind := by simpa [knownLegal_eq] using alike.kind
      have flags : (n.fileUnique, n.rankUnique) = b.disambiguation id t := by
        simp [alike.fileUnique, alike.rankUnique, knownLegal_eq]
      have plain : promo = none := by
        rcases Board.promotion_of_mem_promotionChoices choice with ⟨rfl, -⟩ | ⟨pawn', -⟩
        · rfl
        · exact absurd pawn' pawn
      subst plain
      obtain ⟨mark, marked, text⟩ := san_toList_piece castle notPawn
      rw [← String.ofList_toList (s := n.san), text, flags, kind, origin, target]
      rw [show (none : Option Char) = (none : Option PieceKind).bind PieceKind.sanLetter? from rfl,
        San.parse_moveText rfl marked (Board.getOrigin_eq_ok coherent settled member at_ reaches) at_]
      exact new_of_target coherent settled member at_ reaches choice
  · have castle : n.castle = some side := by simpa [knownLegal_eq] using alike.castle
    obtain ⟨mark, marked, text⟩ := san_toList_of_castle castle
    rw [← String.ofList_toList (s := n.san), text, San.parse_castleText side marked]
    exact castleOn_of_legalCastle? coherent settled found

/-- Coordinate notation of a listed move reads back as a move that plays the same; a castle is
written with its castle rook's square when its king does not move two files, and read back as
that castle. -/
theorem parse_uci_of_listed (listed : m ∈ b.legalMoves) :
    ∃ k, Uci.parse b m.uci = .ok k ∧ k.playsSame m = true := by
  rcases Board.mem_legalMoves.mp listed with
    ⟨id, member, o, at_, t, reaches, promo, choice, rfl⟩ | ⟨side, plan, found, rfl⟩
  · rw [← String.ofList_toList (s := (knownLegal b id o t promo none).uci),
      uci_toList_of_castle_none (by simp [knownLegal_eq])]
    simp only [knownLegal_eq, origin_build, target_build, promotion_build]
    rw [Uci.parse_squares]
    exact new_of_target coherent settled member at_ reaches choice
  · have castle := Board.openCastle_of_legalCastle? coherent settled found
    have kingColor := (Board.kind_of_legalCastle? coherent settled found).2
    have rook : (knownLegal b plan.king plan.kingFrom plan.kingTo none (some side)).castleRook =
        some { rook := plan.rook, origin := plan.rookFrom, target := plan.rookTo } := by
      simp [knownLegal_eq, castleRook_build, kingColor, castle.planned]
    obtain ⟨target, aim, text⟩ := uci_toList_of_castle
      (show (knownLegal b plan.king plan.kingFrom plan.kingTo none (some side)).castle = some side by
        simp [knownLegal_eq]) rook (by simp [knownLegal_eq])
    have origin : (knownLegal b plan.king plan.kingFrom plan.kingTo none (some side)).origin =
        plan.kingFrom := by
      simp [knownLegal_eq]
    simp only [knownLegal_eq, origin_build, target_build] at aim
    rw [origin] at text
    rw [← String.ofList_toList (s := (knownLegal b plan.king plan.kingFrom plan.kingTo none
      (some side)).uci), text]
    have parsed := Uci.parse_squares b plan.kingFrom target none
    simp only [Option.map_none, Option.toList_none, List.append_nil] at parsed
    rw [parsed]
    exact new_of_legalCastle? coherent settled found aim

theorem eq_of_uci_eq {n : Move} (listedM : m ∈ b.legalMoves) (listedN : n ∈ b.legalMoves)
    (same : m.uci = n.uci) : m = n := by
  obtain ⟨k, parsed, playsM⟩ := parse_uci_of_listed coherent settled listedM
  obtain ⟨k', parsed', playsN⟩ := parse_uci_of_listed coherent settled listedN
  rw [same, parsed'] at parsed
  cases parsed
  exact eq_of_playsSame coherent listedM listedN (playsSame_trans (playsSame_comm.trans playsM) playsN)

end Move

namespace Board

/-- Standard algebraic notation and coordinate notation read back every listed move of a board
that play reaches: each text, and the standard text the move takes once played with its check
or mate mark, reads as a move with the same origin, destination, castle and promotion piece;
and no two listed moves share a coordinate text. -/
theorem legalMoves_readBack {b : Board} (reach : b.Reachable) :
    ∀ m ∈ b.legalMoves,
      (∃ k, San.parse b m.san = .ok k ∧ k.playsSame m = true) ∧
      (∃ k, Uci.parse b m.uci = .ok k ∧ k.playsSame m = true) ∧
      (∃ r, m.execute b = .ok r ∧ ∃ k, San.parse b r.1.san = .ok k ∧ k.playsSame m = true) ∧
      ∀ n ∈ b.legalMoves, n.uci = m.uci → n = m := by
  have coherent := reach.coherent
  have settled := reach.settled
  intro m listed
  obtain ⟨hop, checked⟩ := Move.checkPlayable_of_mem_legalMoves coherent settled listed
  obtain ⟨r, run⟩ := Move.execute_ok_iff.mpr ⟨hop, checked⟩
  refine ⟨Move.parse_san_of_writtenAlike coherent settled listed (Move.WrittenAlike.refl m),
    Move.parse_uci_of_listed coherent settled listed, ⟨r, run, ?_⟩,
    fun n listedN same => Move.eq_of_uci_eq coherent settled listedN listed same⟩
  exact Move.parse_san_of_writtenAlike coherent settled listed
    (Move.writtenAlike_execute coherent settled listed run)

theorem legalMoves_readBack_standard : Board.standard.Reachable ∧
    ∀ m ∈ Board.standard.legalMoves,
      (∃ k, San.parse Board.standard m.san = .ok k ∧ k.playsSame m = true) ∧
      (∃ k, Uci.parse Board.standard m.uci = .ok k ∧ k.playsSame m = true) ∧
      (∃ r, m.execute Board.standard = .ok r ∧
        ∃ k, San.parse Board.standard r.1.san = .ok k ∧ k.playsSame m = true) ∧
      ∀ n ∈ Board.standard.legalMoves, n.uci = m.uci → n = m :=
  ⟨.standard, legalMoves_readBack .standard⟩

end Board

end Chess
