import Chess.Proofs.Notation.FenPlacement
import Chess.Proofs.Board.FromSetup

namespace Chess

/-! FEN read back. The writing of a setup, `Fen.written`, reads back as that setup, and the
FEN of a board is the writing of the setup the board shows. A canonical text is, conversely,
the writing of what it reads as. With a position built from a setup showing that setup, FEN
export is undone by import, and a canonical text that builds a position is that position's
FEN. -/

namespace Fen

/-- A setup in FEN: placement, side, castling letters, en-passant square and the two clocks,
one space between fields. -/
def written (st : Setup) : List Char :=
  placementText st ++ ' ' :: st.side.letter :: ' ' :: (st.castling.letters.toList ++ ' ' ::
    (enPassantText st.side st.enPassant ++ ' ' :: (Nat.toDigits 10 st.halfmove.toNat ++ ' ' ::
      Nat.toDigits 10 st.fullmove.toNat)))

theorem toList_toString (n : Nat) : (toString n).toList = Nat.toDigits 10 n := by
  rw [Nat.toString_eq_repr, Nat.toList_repr]

theorem toList_toString_uInt32 (n : UInt32) : (toString n).toList = Nat.toDigits 10 n.toNat :=
  toList_toString n.toNat

def readFen : Reader Setup := do
  let st ← readPlacement
  expect ' '
  let c ← peek
  let side ← match c with
    | 'w' => pure Color.white
    | 'b' => pure Color.black
    | _ => throw .invalidSideToMove
  advance
  expect ' '
  let castling ← readCastling st
  expect ' '
  let enPassant ← readEnPassant side
  expect ' '
  let halfmove ← readHalfmove
  expect ' '
  let fullmove ← readFullmove
  pure { st with side, castling, enPassant, halfmove, fullmove }

theorem parse_eq (text : String) :
    parse text = (readFen.run (Text.trimBlank text).toList).map Prod.fst := by
  have unfolded : parse text =
      (readFen.run (Text.trimBlank text).toList >>= fun p => pure p.1) := rfl
  rw [unfolded]
  cases readFen.run (Text.trimBlank text).toList <;> rfl

/-! ### Reading a written setup -/

theorem readFen_run_written (st : Setup) (letters : ∀ f r, Letter (st.letterAt f r)) :
    readFen.run (written st) = .ok (st, []) := by
  obtain ⟨placement, side, castling, enPassant, halfmove, fullmove⟩ := st
  have stop : (' ').isDigit = false := rfl
  cases side <;>
  simp only [readFen, written, StateT.run_bind, readPlacement_run _ letters, Except.ok_bind,
    expect_run, peek_run, Color.letter, pure_bind, advance_run, readCastling_run,
    readEnPassant_run, readHalfmove_run _ stop, readFullmove_run] <;> rfl

theorem isBlank_of_isDigit {c : Char} (digit : c.isDigit = true) : Text.isBlank c = false := by
  have bounds := toNat_bounds_of_isDigit digit
  simp only [Text.isBlank, Bool.or_eq_false_iff, Bool.and_eq_false_imp, decide_eq_true_eq,
    decide_eq_false_iff_not, beq_eq_false_iff_ne, ne_eq]
  omega

theorem isBlank_of_pieceOfLetter? {c : Char} (letter : (pieceOfLetter? c).isSome) :
    Text.isBlank c = false := by
  have all : ∀ n < 128, (pieceOfLetter? (Char.ofNat n)).isSome = true →
      Text.isBlank (Char.ofNat n) = false := by decide
  have shown := all c.toNat (toNat_lt_of_pieceOfLetter? letter)
  rw [Char.ofNat_toNat] at shown
  exact shown letter

theorem trimBlank_ofList {cs : List Char} (head : ∀ c ∈ cs.head?, Text.isBlank c = false)
    (last : ∀ c ∈ cs.getLast?, Text.isBlank c = false) :
    Text.trimBlank (String.ofList cs) = String.ofList cs := by
  have keep : ∀ {ds : List Char}, (∀ c ∈ ds.head?, Text.isBlank c = false) →
      ds.dropWhile Text.isBlank = ds := by
    intro ds front
    cases ds with
    | nil => rfl
    | cons d ds => exact List.dropWhile_cons_of_neg (by simpa using front d rfl)
  rw [Text.trimBlank, String.toList_ofList, keep head, keep (by simpa [List.head?_reverse] using last),
    List.reverse_reverse]

theorem head?_writeRank {c : Char} (letter : Letter c) (L : List Char) :
    ∃ d, (writeRank 0 (c :: L)).head? = some d ∧ Text.isBlank d = false := by
  rw [writeRank]
  split
  · obtain ⟨d, rest, eq, digit⟩ := exists_digit_head_writeRank (Nat.succ_pos 0) L
    exact ⟨d, by rw [eq]; rfl, isBlank_of_isDigit digit⟩
  · rename_i notBlank
    have piece : (pieceOfLetter? c).isSome := letter.resolve_left notBlank
    exact ⟨c, rfl, isBlank_of_pieceOfLetter? piece⟩

theorem trimBlank_written (st : Setup) (letters : ∀ f r, Letter (st.letterAt f r)) :
    Text.trimBlank (String.ofList (written st)) = String.ofList (written st) := by
  apply trimBlank_ofList
  · obtain ⟨d, front, notBlank⟩ := head?_writeRank (letters 0 7) (st.rankLetters 7).tail
    have rank : st.rankLetters ⟨7 % 8, Nat.mod_lt _ (by decide)⟩ =
        st.letterAt 0 7 :: (st.rankLetters 7).tail := rfl
    simp only [written, placementText, List.map_cons, List.intercalate_cons_cons, rank,
      List.append_assoc, List.head?_append, front, Option.some_or]
    rintro c ⟨⟩
    exact notBlank
  · obtain ⟨d, last⟩ := List.getLast?_isSome.mpr (Nat.toDigits_ne_nil (n := st.fullmove.toNat))
      |> Option.isSome_iff_exists.mp
    have digit := isDigit_of_mem_toDigits (List.mem_of_getLast? last)
    simp only [written, List.getLast?_append, List.getLast?_cons, last]
    simp [isBlank_of_isDigit digit]

theorem parse_written (st : Setup) (letters : ∀ f r, Letter (st.letterAt f r)) :
    parse (String.ofList (written st)) = .ok st := by
  rw [parse_eq, trimBlank_written st letters, String.toList_ofList, readFen_run_written st letters]
  rfl

/-! ### Reading a canonical text -/

theorem run_bind_eq_ok {α β : Type} {x : Reader α} {f : α → Reader β} {cs rest : List Char}
    {b : β}
    (run : (x >>= f).run cs = .ok (b, rest)) :
    ∃ a r, x.run cs = .ok (a, r) ∧ (f a).run r = .ok (b, rest) := by
  rw [StateT.run_bind] at run
  obtain ⟨⟨a, r⟩, first, second⟩ := Except.bind_eq_ok.mp run
  exact ⟨a, r, first, second⟩

theorem forall_mem_intercalate {P : Char → Prop} {sep : Char} (onSep : P sep) :
    ∀ {parts : List (List Char)}, (∀ p ∈ parts, ∀ x ∈ p, P x) →
      ∀ x ∈ List.intercalate [sep] parts, P x
  | [], _ => by simp
  | [p], each => by simpa using each p (by simp)
  | p :: q :: ps, each => by
    rw [List.intercalate_cons_cons]
    intro x member
    simp only [List.mem_append, List.mem_singleton] at member
    rcases member with (inP | rfl) | later
    · exact each p List.mem_cons_self x inP
    · exact onSep
    · exact forall_mem_intercalate onSep (fun r member => each r (List.mem_cons_of_mem _ member)) x
        later

theorem eq_of_intercalate_eq {sep : Char} {ps qs : List (List Char)} (nonempty : ps ≠ [])
    (plainP : ∀ p ∈ ps, sep ∉ p) (plainQ : ∀ q ∈ qs, sep ∉ q) (lengths : ps.length ≠ 1)
    (same : List.intercalate [sep] ps = List.intercalate [sep] qs) : ps = qs := by
  have splitP := List.splitOn_intercalate sep plainP nonempty
  by_cases empty : qs = []
  · subst empty
    rw [same] at splitP
    rw [← splitP] at lengths
    simp at lengths
  · rw [same, List.splitOn_intercalate sep plainQ empty] at splitP
    exact splitP.symm

theorem written_of_fields_run {st₀ : Setup} (side : Color)
    {castlingText epText halfText fullText : List Char}
    (rights : CastlingField castlingText) (epPlain : ' ' ∉ epText) (halfNumeral : Numeral halfText)
    (fullNumeral : Numeral fullText) {st : Setup} {rest : List Char}
    (run : (do
        advance
        expect ' '
        let castling ← readCastling st₀
        expect ' '
        let enPassant ← readEnPassant side
        expect ' '
        let halfmove ← readHalfmove
        expect ' '
        let fullmove ← readFullmove
        pure { st₀ with side, castling, enPassant, halfmove, fullmove } : Reader Setup).run
      (side.letter :: ' ' :: (castlingText ++ ' ' :: (epText ++ ' ' :: (halfText ++ ' ' ::
        fullText)))) = .ok (st, rest)) :
    written st = placementText st₀ ++ ' ' :: side.letter :: ' ' ::
      (castlingText ++ ' ' :: (epText ++ ' ' :: (halfText ++ ' ' :: fullText))) := by
  obtain ⟨_, r₁, advanced, run1⟩ := run_bind_eq_ok run
  rw [advance_run] at advanced
  obtain ⟨-, rfl⟩ := Prod.mk.inj (Except.ok.inj advanced)
  obtain ⟨_, r₂, expected, run2⟩ := run_bind_eq_ok run1
  rw [expect_run] at expected
  obtain ⟨-, rfl⟩ := Prod.mk.inj (Except.ok.inj expected)
  obtain ⟨read, r₃, readRights, run3⟩ := run_bind_eq_ok run2
  obtain ⟨granted, rfl⟩ := exists_letters_of_castlingField rights
  rw [readCastling_run] at readRights
  obtain ⟨rfl, rfl⟩ := Prod.mk.inj (Except.ok.inj readRights)
  obtain ⟨_, r₄, expected, run4⟩ := run_bind_eq_ok run3
  rw [expect_run] at expected
  obtain ⟨-, rfl⟩ := Prod.mk.inj (Except.ok.inj expected)
  obtain ⟨target, r₅, readTarget, run5⟩ := run_bind_eq_ok run4
  have shown := readEnPassant_run_inv readTarget
  obtain ⟨_, r₆, expected, run6⟩ := run_bind_eq_ok run5
  rw [eq_cons_of_expect_run expected] at shown
  obtain ⟨rfl, rfl⟩ := eq_of_append_cons (P := (· ≠ ' ')) (by simp) (by simp)
    (fun x member same => epPlain (same ▸ member))
    (fun x member same => space_not_mem_enPassantText side target (same ▸ member)) shown
  obtain ⟨halfmove, r₇, readHalf, run7⟩ := run_bind_eq_ok run6
  obtain ⟨ds, stop, more, halfShown, rfl, notDigit, digits, value⟩ := readHalfmove_run_inv readHalf
  obtain ⟨_, r₈, expected, run8⟩ := run_bind_eq_ok run7
  obtain ⟨rfl, rfl⟩ := List.cons.inj (eq_cons_of_expect_run expected)
  obtain ⟨rfl, rfl⟩ := eq_of_append_cons (P := fun d => d.isDigit = true) (by decide)
    (by simp [notDigit]) halfNumeral.2.1 digits halfShown
  obtain ⟨fullmove, r₉, readFull, run9⟩ := run_bind_eq_ok run8
  have fullValue := clockValue?_of_readFullmove_run fullNumeral.2.1 readFull
  cases run9
  simp only [written, toDigits_of_clockValue? halfNumeral value,
    toDigits_of_clockValue? fullNumeral fullValue]
  rfl

theorem written_of_readFen_run {ranks : List (List Char)} {letter : Char}
    {castlingText epText halfText fullText : List Char}
    (plain : ∀ r ∈ ranks, ' ' ∉ r ∧ '/' ∉ r ∧ NoAdjacentDigits r)
    (rights : CastlingField castlingText) (epPlain : ' ' ∉ epText) (halfNumeral : Numeral halfText)
    (fullNumeral : Numeral fullText) {st : Setup} {rest : List Char}
    (run : readFen.run (List.intercalate ['/'] ranks ++ ' ' :: letter :: ' ' ::
      (castlingText ++ ' ' :: (epText ++ ' ' :: (halfText ++ ' ' :: fullText)))) = .ok (st, rest)) :
    written st = List.intercalate ['/'] ranks ++ ' ' :: letter :: ' ' ::
      (castlingText ++ ' ' :: (epText ++ ' ' :: (halfText ++ ' ' :: fullText))) := by
  unfold readFen at run
  obtain ⟨st₀, r₁, placed, run1⟩ := run_bind_eq_ok run
  obtain ⟨whole, -, pres, presLength, text, presPlain, canonical⟩ := readPlacement_run_inv placed
  obtain ⟨_, r₂, expected, run2⟩ := run_bind_eq_ok run1
  rw [eq_cons_of_expect_run expected] at text
  have spaceFree : ∀ x ∈ List.intercalate ['/'] ranks, x ≠ ' ' :=
    forall_mem_intercalate (by decide) fun r member x inR same => (plain r member).1 (same ▸ inR)
  have spaceFree' : ∀ x ∈ List.intercalate ['/'] pres, x ≠ ' ' :=
    forall_mem_intercalate (by decide) fun p member x inP same => (presPlain p member).1 (same ▸ inP)
  obtain ⟨joined, rfl⟩ := eq_of_append_cons (P := (· ≠ ' ')) (by simp) (by simp) spaceFree
    spaceFree' text
  have samePieces : pres = ranks :=
    eq_of_intercalate_eq (by rintro rfl; simp at presLength) (fun p member => (presPlain p member).2)
      (fun r member => (plain r member).2.1) (by simp [presLength]) joined.symm
  subst samePieces
  have placement : placementText st₀ = List.intercalate ['/'] pres :=
    (canonical fun p member => (plain p member).2.2).symm
  obtain ⟨c, r₃, peeked, run3⟩ := run_bind_eq_ok run2
  rw [peek_run] at peeked
  obtain ⟨rfl, rfl⟩ := Prod.mk.inj (Except.ok.inj peeked)
  dsimp only at run3
  split at run3
  · rw [pure_bind] at run3
    rw [written_of_fields_run .white rights epPlain halfNumeral fullNumeral run3,
      placement]
    rfl
  · rw [pure_bind] at run3
    rw [written_of_fields_run .black rights epPlain halfNumeral fullNumeral run3,
      placement]
    rfl
  · cases run3

/-- A FEN text in canonical form: no blank around it, and fields one space apart: ranks joined
by `/` with no space, `/` or two adjacent digits in a rank; the side letter; castling as `-` or
some of `KQkq` in that order; an en-passant field with no space; the two clocks as numerals
without leading zeros, the full-move number last. -/
structure Canonical (text : String) : Prop where
  trimmed : Text.trimBlank text = text
  fields : ∃ (ranks : List (List Char)) (letter : Char)
      (castlingText epText halfText fullText : List Char),
    text.toList = List.intercalate ['/'] ranks ++ ' ' :: letter :: ' ' ::
      (castlingText ++ ' ' :: (epText ++ ' ' :: (halfText ++ ' ' :: fullText))) ∧
    (∀ r ∈ ranks, ' ' ∉ r ∧ '/' ∉ r ∧ NoAdjacentDigits r) ∧ CastlingField castlingText ∧
    ' ' ∉ epText ∧ Numeral halfText ∧ Numeral fullText

theorem written_of_parse {text : String} (canonical : Canonical text) {st : Setup}
    (parsed : parse text = .ok st) : written st = text.toList := by
  obtain ⟨trimmed, ranks, letter, castlingText, epText, halfText, fullText, split, plain, rights,
    epPlain, half, full⟩ := canonical
  rw [parse_eq, trimmed] at parsed
  cases run : readFen.run text.toList with
  | error e =>
    rw [run] at parsed
    cases parsed
  | ok result =>
    obtain ⟨read, rest⟩ := result
    rw [run] at parsed
    obtain rfl : read = st := Except.ok.inj parsed
    rw [split] at run ⊢
    exact written_of_readFen_run plain rights epPlain half full run

end Fen

namespace Board

/-- One file of a rank in FEN: a piece writes the empty run before it, then its letter; an
empty square lengthens the run. -/
def rankStep (b : Board) (r : Fin 8) (acc : String × Nat) (f : Fin 8) : String × Nat :=
  match b.pieceAt? (Square.make ⟨f⟩ ⟨r⟩) with
  | some p => ((if acc.2 ≠ 0 then acc.1 ++ toString acc.2 else acc.1).push p.letter, 0)
  | none => (acc.1, acc.2 + 1)

def closeRank (acc : String × Nat) : String := if acc.2 ≠ 0 then acc.1 ++ toString acc.2 else acc.1

theorem fenRank_eq (b : Board) (r : Fin 8) :
    b.fenRank r = closeRank ((List.finRange 8).foldl (rankStep b r) ("", 0)) := rfl

theorem toList_closeRank (acc : String × Nat) :
    (closeRank acc).toList = acc.1.toList ++ Fen.runDigits acc.2 := by
  unfold closeRank Fen.runDigits
  by_cases empty : acc.2 = 0 <;> simp [empty]

theorem closeRank_foldl_rankStep (b : Board) (r : Fin 8) :
    ∀ (files : List (Fin 8)) (acc : String × Nat),
    (closeRank (files.foldl (rankStep b r) acc)).toList =
      acc.1.toList ++ Fen.writeRank acc.2 (files.map fun f => b.letterOn (Square.make ⟨f⟩ ⟨r⟩))
  | [], acc => by rw [List.foldl_nil, toList_closeRank]; rfl
  | f :: files, acc => by
    rw [List.foldl_cons, closeRank_foldl_rankStep b r files, List.map_cons, rankStep]
    cases found : b.pieceAt? (Square.make ⟨f⟩ ⟨r⟩) with
    | none => simp [letterOn, found, Fen.writeRank]
    | some p =>
      have letter : p.letter ≠ ' ' := pieceLetter_ne_blank p.kind p.color
      have digits : (if acc.2 ≠ 0 then acc.1 ++ toString acc.2 else acc.1).toList =
          acc.1.toList ++ Fen.runDigits acc.2 := toList_closeRank acc
      simp only [String.toList_push, digits]
      simp [letterOn, found, Fen.writeRank, letter]

theorem rankLetters_setup (b : Board) (r : Fin 8) :
    b.setup.rankLetters r = (List.finRange 8).map fun f => b.letterOn (Square.make ⟨f⟩ ⟨r⟩) := by
  simp only [Setup.rankLetters, Setup.letterAt, setup, placement_get]

theorem fenRank_toList (b : Board) (r : Fin 8) :
    (b.fenRank r).toList = Fen.writeRank 0 (b.setup.rankLetters r) := by
  rw [fenRank_eq, closeRank_foldl_rankStep, rankLetters_setup]
  rfl

theorem fen_toList (b : Board) : b.fen.toList = Fen.written b.setup := by
  have placement : ("/".intercalate ((List.finRange 8).reverse.map b.fenRank)).toList =
      Fen.placementText b.setup := by
    rw [String.toList_intercalate, List.map_map, Fen.placementText]
    simp only [Function.comp_def, fenRank_toList]
    rfl
  unfold fen Fen.written
  simp only [String.toList_append, placement]
  cases ep : b.enPassant with
  | none => simp [Fen.toList_toString_uInt32, setup, ep, Fen.enPassantText]
  | some f => simp [Fen.toList_toString_uInt32, setup, ep, Fen.enPassantText, Square.name]

theorem letters_setup (b : Board) (f r : Fin 8) : Fen.Letter (b.setup.letterAt f r) := by
  change Fen.Letter ((b.placement.get f).get r)
  rw [placement_get]
  unfold letterOn
  cases b.pieceAt? (Square.make ⟨f⟩ ⟨r⟩) with
  | none => exact Or.inl rfl
  | some p => exact Or.inr (by simp [Piece.letter, pieceOfLetter?_pieceLetter])

theorem fen_eq_ofList (b : Board) : b.fen = String.ofList (Fen.written b.setup) :=
  String.toList_injective (by rw [fen_toList, String.toList_ofList])

theorem parse_fen (b : Board) : Fen.parse b.fen = .ok b.setup := by
  rw [fen_eq_ofList]
  exact Fen.parse_written b.setup (letters_setup b)

theorem fen_eq_of_setup {x y : Board} (same : x.setup = y.setup) : x.fen = y.fen := by
  rw [fen_eq_ofList, fen_eq_ofList, same]

theorem samePosition_of_setup {x y : Board} (same : x.setup = y.setup) :
    x.samePosition y = true := by
  simp only [setup, Setup.mk.injEq] at same
  obtain ⟨placement, side, castling, enPassant, -, -⟩ := same
  simp [samePosition, placement, side, castling, enPassant]

/-- FEN export is undone by FEN import. The FEN of a well-formed board reads as the board's
setup and builds a board equal to it as a position, with the same clocks and the same FEN;
and a canonical text that builds a board is that board's FEN. -/
theorem fen_roundTrip {b : Board} (wellFormed : b.WellFormed) :
    Fen.parse b.fen = .ok b.setup ∧
      (∃ b₂, Board.ofFen b.fen = .ok b₂ ∧ b₂.samePosition b = true ∧
        b₂.halfmove = b.halfmove ∧ b₂.fullmove = b.fullmove ∧ b₂.fen = b.fen) ∧
      ∀ (text : String) (b₃ : Board), Fen.Canonical text → Board.ofFen text = .ok b₃ →
        b₃.fen = text := by
  refine ⟨parse_fen b, ?_, fun text b₃ canonical built => ?_⟩
  · obtain ⟨b₂, built⟩ := ofSetup_setup_ok wellFormed
    have shown := setup_ofSetup built
    refine ⟨b₂, ?_, samePosition_of_setup shown, congrArg Setup.halfmove shown,
      congrArg Setup.fullmove shown, fen_eq_of_setup shown⟩
    rw [ofFen, parse_fen, Except.ok_bind, built]
    rfl
  · obtain ⟨st, parsed, built⟩ := Except.bind_eq_ok.mp built
    split at built
    · rename_i b' fromSetup
      cases built
      apply String.toList_injective
      rw [fen_toList, setup_ofSetup fromSetup]
      exact Fen.written_of_parse canonical parsed
    · cases built
theorem fen_roundTrip_standard : Board.standard.WellFormed ∧ Fen.Canonical Fen.standard ∧
    (Fen.parse Board.standard.fen = .ok Board.standard.setup ∧
      (∃ b₂, Board.ofFen Board.standard.fen = .ok b₂ ∧ b₂.samePosition Board.standard = true ∧
        b₂.halfmove = Board.standard.halfmove ∧ b₂.fullmove = Board.standard.fullmove ∧
        b₂.fen = Board.standard.fen) ∧
      ∀ (text : String) (b₃ : Board), Fen.Canonical text → Board.ofFen text = .ok b₃ →
        b₃.fen = text) := by
  refine ⟨WellFormed.standard, ?_, fen_roundTrip WellFormed.standard⟩
  refine ⟨by decide, [['r','n','b','q','k','b','n','r'], ['p','p','p','p','p','p','p','p'], ['8'],
    ['8'], ['8'], ['8'], ['P','P','P','P','P','P','P','P'], ['R','N','B','Q','K','B','N','R']],
    'w', ['K','Q','k','q'], ['-'], ['0'], ['1'], by decide, ?_, ?_, by decide, ?_, ?_⟩
  · unfold Fen.NoAdjacentDigits
    decide
  · exact Or.inr ⟨by simp, List.Sublist.refl _⟩
  · exact Fen.numeral_toDigits 0
  · exact Fen.numeral_toDigits 1

end Board

end Chess
