import Chess.Proofs.Notation.CastlingLetters

namespace Chess

/-! The language FEN reading accepts. Once the blanks around it are removed, a text reads as a
setup exactly when it is eight rank texts joined by `/`, then, each after one space, the side's
letter, a castling field, an en-passant field, the half-move clock and the full-move number,
followed by the end of the text or by any character other than a digit. A rank text is piece
letters and digits `1` to `8` standing for exactly eight squares; the castling field is `-` or
at most four letters each granting a right, `KQkq` their own and a file letter the wing of its
file beside the first king of its colour on the back rank; a clock is one or more digits with a
value below `2 ^ 32`. The setup read holds each rank's letters on its squares and the fields'
values. -/

namespace Fen

/-! ### The grammar -/

def RankChar (c : Char) : Prop := (∃ kind color, c = pieceLetter kind color) ∨ ('1' ≤ c ∧ c ≤ '8')

/-- The squares a character of a rank's text stands for: a digit as that many empty squares, a
letter as itself. -/
def squaresOf (c : Char) : List Char :=
  if c.isDigit then List.replicate (c.toNat - '0'.toNat) ' ' else [c]

def squares (cs : List Char) : List Char := cs.flatMap squaresOf

def RankText (cs : List Char) : Prop := (∀ c ∈ cs, RankChar c) ∧ (squares cs).length = 8

/-- The placement eight rank texts describe, rank 8 first: each square holds the letter its
rank's text puts there, a space where the text leaves it empty. -/
def placementOf (ranks : List (List Char)) : Vector (Vector Char 8) 8 :=
  Vector.ofFn fun f => Vector.ofFn fun r => (squares (ranks.getD (7 - r.val) [])).getD f.val ' '

def ClockText (ds : List Char) (v : UInt32) : Prop :=
  ds ≠ [] ∧ (∀ d ∈ ds, d.isDigit = true) ∧ Nat.ofDigitChars 10 ds 0 < 2 ^ 32 ∧
    v.toNat = Nat.ofDigitChars 10 ds 0

def FirstKing (st : Setup) (c : Color) (kf : Fin 8) : Prop :=
  st.letterAt kf (Rank.back c).index = pieceLetter .king c ∧
    ∀ f < kf, st.letterAt f (Rank.back c).index ≠ pieceLetter .king c

/-- The right a letter of the castling field grants beside a placement: `KQkq` their own, and
a file letter, a capital for White, the wing its file lies on beside the first king of its
colour on the back rank. -/
def Grants (st : Setup) (a : Char) (c : Color) (side : CastleSide) : Prop :=
  (a = 'K' ∧ c = .white ∧ side = .kingside) ∨ (a = 'Q' ∧ c = .white ∧ side = .queenside) ∨
    (a = 'k' ∧ c = .black ∧ side = .kingside) ∨ (a = 'q' ∧ c = .black ∧ side = .queenside) ∨
    ∃ (f : File) (kf : Fin 8), (a = f.letter.toUpper ∧ c = .white ∨ a = f.letter ∧ c = .black) ∧
      FirstKing st c kf ∧ side.Beyond kf f.index

/-- The castling field: `-` for no rights, or at most four letters each granting a right, the
rights being those the letters grant. -/
def CastlingText (st : Setup) (field : List Char) (rights : CastleRights) : Prop :=
  (field = ['-'] ∧ rights = {}) ∨
    (field.length ≤ 4 ∧ (∀ a ∈ field, ∃ c side, Grants st a c side) ∧
      ∀ c side, rights.get c side = true ↔ ∃ a ∈ field, Grants st a c side)

/-- What may follow the full-move number: the end of the text, or a character other than a
digit and anything after it. -/
def Ends (rest : List Char) : Prop := rest = [] ∨ ∃ c more, rest = c :: more ∧ c.isDigit = false

/-- A text FEN reads as a setup: eight rank texts joined by `/`, then, each after one space, the
side's letter, the castling field, the en-passant field, the half-move clock and the full-move
number, and what may follow it. -/
def Spells (cs : List Char) (st : Setup) : Prop :=
  ∃ (ranks : List (List Char)) (field half full rest : List Char),
    ranks.length = 8 ∧ (∀ p ∈ ranks, RankText p) ∧ st.placement = placementOf ranks ∧
      CastlingText st field st.castling ∧ ClockText half st.halfmove ∧
      ClockText full st.fullmove ∧ Ends rest ∧
      cs = List.intercalate ['/'] ranks ++ ' ' :: st.side.letter :: ' ' :: (field ++ ' ' ::
        (enPassantText st.side st.enPassant ++ ' ' :: (half ++ ' ' :: (full ++ rest))))

/-! ### Characters of a rank -/

theorem toNat_bounds_of_range {c : Char} (range : '1' ≤ c ∧ c ≤ '8') :
    49 ≤ c.toNat ∧ c.toNat ≤ 56 := by
  simp only [Char.le_def, UInt32.le_iff_toNat_le] at range
  exact range

theorem isDigit_of_range {c : Char} (range : '1' ≤ c ∧ c ≤ '8') : c.isDigit = true := by
  have bounds := toNat_bounds_of_range range
  simp only [Char.isDigit, Bool.and_eq_true, decide_eq_true_eq]
  exact (show 48 ≤ c.toNat ∧ c.toNat ≤ 57 by omega)

theorem squaresOf_letter {c : Char} (letter : (pieceOfLetter? c).isSome) : squaresOf c = [c] := by
  simp [squaresOf, isDigit_eq_false_of_letter letter]

theorem squaresOf_digit {c : Char} (digit : c.isDigit = true) :
    squaresOf c = List.replicate (c.toNat - '0'.toNat) ' ' := by
  simp [squaresOf, digit]

@[simp] theorem squares_nil : squares [] = [] := rfl

@[simp] theorem squares_cons (c : Char) (cs : List Char) :
    squares (c :: cs) = squaresOf c ++ squares cs := rfl

theorem isSome_pieceOfLetter?_iff {c : Char} :
    (pieceOfLetter? c).isSome ↔ ∃ kind color, c = pieceLetter kind color := by
  constructor
  · intro letter
    obtain ⟨⟨kind, color⟩, read⟩ := Option.isSome_iff_exists.mp letter
    exact ⟨kind, color, (pieceLetter_of_pieceOfLetter? read).symm⟩
  · rintro ⟨kind, color, rfl⟩
    simp [pieceOfLetter?_pieceLetter]

/-! ### One rank -/

theorem readRank_squares (rank : Fin 8) (rest : List Char) :
    ∀ (pre : List Char) (file : Nat) (st : Setup), (∀ c ∈ pre, RankChar c) →
      file + (squares pre).length = 8 →
      readRank rank file (pre ++ rest) st = .ok (rest, st.fillRank rank file (squares pre))
  | [], file, st, _, fits => by
    simp only [squares_nil, List.length_nil, Nat.add_zero] at fits
    subst fits
    exact readRank_end rank rest st
  | c :: pre, file, st, chars, fits => by
    have later : ∀ x ∈ pre, RankChar x := fun x member => chars x (List.mem_cons_of_mem c member)
    simp only [squares_cons, List.length_append] at fits
    rcases chars c List.mem_cons_self with letter | range
    · have known : (pieceOfLetter? c).isSome := isSome_pieceOfLetter?_iff.mpr letter
      rw [squaresOf_letter known] at fits
      rw [squares_cons, squaresOf_letter known]
      simp only [List.length_singleton] at fits
      have space : c ≠ ' ' := fun blank => by simp [blank, pieceOfLetter?_blank] at known
      rw [List.cons_append, readRank_letter rank (by omega) known,
        readRank_squares rank rest pre (file + 1) _ later (by omega), List.singleton_append,
        Setup.fillRank, if_neg space]
    · have digit := isDigit_of_range range
      have bounds := toNat_bounds_of_range range
      have zero : '0'.toNat = 48 := rfl
      rw [squaresOf_digit digit] at fits
      rw [squares_cons, squaresOf_digit digit]
      simp only [List.length_replicate] at fits
      rw [List.cons_append, readRank, if_neg (by omega), if_pos digit,
        if_neg (by simp only [not_or, not_lt, gt_iff_lt]; exact range)]
      dsimp only
      rw [if_neg (by omega), readRank_squares rank rest pre _ _ later (by omega),
        Setup.fillRank_replicate]

theorem readRank_eq_ok (rank : Fin 8) :
    ∀ (cs : List Char) (file : Nat) (st : Setup) {rest : List Char} {st' : Setup}, file ≤ 8 →
      readRank rank file cs st = .ok (rest, st') →
      ∃ pre, cs = pre ++ rest ∧ (∀ c ∈ pre, RankChar c) ∧ file + (squares pre).length = 8 ∧
        st' = st.fillRank rank file (squares pre)
  | [], file, st, _, _, bounded, run => by
    rw [readRank] at run
    split at run
    · cases run
      exact ⟨[], rfl, by simp, by simp; omega, rfl⟩
    · cases run
  | c :: cs, file, st, _, _, bounded, run => by
    rw [readRank] at run
    split at run
    · cases run
      exact ⟨[], rfl, by simp, by simp; omega, rfl⟩
    split at run
    · rename_i digit
      split at run
      · cases run
      rename_i range
      simp only [not_or, not_lt, gt_iff_lt] at range
      have bounds := toNat_bounds_of_range range
      have zero : '0'.toNat = 48 := rfl
      dsimp only at run
      split at run
      · cases run
      obtain ⟨pre, rfl, chars, fits, rfl⟩ := readRank_eq_ok rank cs _ st (by omega) run
      refine ⟨c :: pre, rfl, ?_, ?_, ?_⟩
      · intro x member
        rcases List.mem_cons.mp member with rfl | inner
        · exact .inr range
        · exact chars x inner
      · simp only [squares_cons, squaresOf_digit digit, List.length_append, List.length_replicate]
        omega
      · rw [squares_cons, squaresOf_digit digit, Setup.fillRank_replicate]
    · split at run
      · cases run
      rename_i known
      have letter : (pieceOfLetter? c).isSome := by simpa [Option.isSome_iff_ne_none] using known
      have space : c ≠ ' ' := fun blank => by simp [blank, pieceOfLetter?_blank] at letter
      obtain ⟨pre, rfl, chars, fits, rfl⟩ := readRank_eq_ok rank cs (file + 1) _ (by omega) run
      refine ⟨c :: pre, rfl, ?_, ?_, ?_⟩
      · intro x member
        rcases List.mem_cons.mp member with rfl | inner
        · exact .inl (isSome_pieceOfLetter?_iff.mp letter)
        · exact chars x inner
      · simp only [squares_cons, squaresOf_letter letter, List.length_append,
          List.length_singleton]
        omega
      · rw [squares_cons, squaresOf_letter letter, List.singleton_append, Setup.fillRank,
          if_neg space]
        rfl

/-! ### The placement -/

theorem readRankStep_run_rankText (r : Nat) {pre : List Char} (text : RankText pre) (acc : Setup)
    (rest : List Char) :
    (readRankStep r acc).run (pre ++ ((if r = 0 then [] else ['/']) ++ rest)) =
      .ok (acc.fillRank ⟨r % 8, Nat.mod_lt _ (by decide)⟩ 0 (squares pre), rest) := by
  unfold readRankStep
  simp only [StateT.run_bind, StateT.run_get, pure_bind]
  rw [readRank_squares _ _ pre 0 acc text.1 (by simp [text.2])]
  by_cases zero : r = 0
  · simp [zero]
  · simp [zero]

theorem readRankStep_run_eq_ok {r : Nat} {acc acc' : Setup} {cs rest : List Char}
    (run : (readRankStep r acc).run cs = .ok (acc', rest)) :
    ∃ pre, RankText pre ∧ cs = pre ++ ((if r = 0 then [] else ['/']) ++ rest) ∧
      acc' = acc.fillRank ⟨r % 8, Nat.mod_lt _ (by decide)⟩ 0 (squares pre) := by
  unfold readRankStep at run
  simp only [StateT.run_bind, StateT.run_get, pure_bind] at run
  cases read : readRank ⟨r % 8, Nat.mod_lt _ (by decide)⟩ 0 cs acc with
  | error e =>
    rw [read] at run
    cases run
  | ok result =>
    obtain ⟨after, next⟩ := result
    rw [read] at run
    obtain ⟨pre, rfl, chars, fits, rfl⟩ := readRank_eq_ok _ cs 0 acc (by omega) read
    have text : RankText pre := ⟨chars, by omega⟩
    by_cases zero : r = 0
    · subst zero
      simp at run
      obtain ⟨rfl, rfl⟩ := run
      exact ⟨pre, text, by simp, rfl⟩
    · have slash : r ≠ 0 := zero
      simp only [if_pos slash, StateT.run_bind, StateT.run_set, pure_bind] at run
      obtain ⟨⟨u, after'⟩, expected, finish⟩ := Except.bind_eq_ok.mp run
      have parted := eq_cons_of_expect_run expected
      simp only [StateT.run_pure, Except.pure_eq_ok, Except.ok.injEq, Prod.mk.injEq] at finish
      obtain ⟨rfl, rfl⟩ := finish
      exact ⟨pre, text, by simp [zero, parted], rfl⟩

theorem foldlM_readRankStep_run_rankText (rest : List Char) :
    ∀ (rs : List Nat) (ranks : List (List Char)) (acc : Setup), rs.length = ranks.length →
      (∀ p ∈ ranks, RankText p) →
      (rs.foldlM (fun st r => readRankStep r st) acc).run (joinRanks rs ranks ++ rest) =
        .ok (fillRanks acc rs (ranks.map squares), rest)
  | [], [], acc, _, _ => rfl
  | r :: rs, p :: ranks, acc, lengths, texts => by
    simp only [List.foldlM_cons, StateT.run_bind, List.map_cons, joinRanks, List.append_assoc,
      readRankStep_run_rankText r (texts p List.mem_cons_self), Except.ok_bind]
    exact foldlM_readRankStep_run_rankText rest rs ranks _ (by simpa using lengths)
      fun q member => texts q (List.mem_cons_of_mem p member)

theorem foldlM_readRankStep_run_eq_ok :
    ∀ (rs : List Nat) (acc : Setup) (cs : List Char) {st : Setup} {rest : List Char},
      (rs.foldlM (fun st r => readRankStep r st) acc).run cs = .ok (st, rest) →
      ∃ ranks, ranks.length = rs.length ∧ (∀ p ∈ ranks, RankText p) ∧
        cs = joinRanks rs ranks ++ rest ∧ st = fillRanks acc rs (ranks.map squares)
  | [], acc, cs, _, _, run => by
    simp only [List.foldlM_nil, StateT.run_pure, Except.pure_eq_ok, Except.ok.injEq,
      Prod.mk.injEq] at run
    obtain ⟨rfl, rfl⟩ := run
    exact ⟨[], rfl, by simp, rfl, rfl⟩
  | r :: rs, acc, cs, _, _, run => by
    simp only [List.foldlM_cons, StateT.run_bind] at run
    obtain ⟨⟨acc', cs'⟩, step, later⟩ := Except.bind_eq_ok.mp run
    obtain ⟨pre, text, rfl, rfl⟩ := readRankStep_run_eq_ok step
    obtain ⟨ranks, lengths, texts, rfl, rfl⟩ := foldlM_readRankStep_run_eq_ok rs _ cs' later
    refine ⟨pre :: ranks, by simp [lengths], ?_, by simp [joinRanks], rfl⟩
    intro p member
    rcases List.mem_cons.mp member with rfl | inner
    · exact text
    · exact texts p inner

theorem placement_fillRanks {ranks : List (List Char)} (length : ranks.length = 8)
    (texts : ∀ p ∈ ranks, RankText p) :
    (fillRanks {} [7, 6, 5, 4, 3, 2, 1, 0] (ranks.map squares)).placement = placementOf ranks := by
  have shown := @rankLetters_fillRanks_placement (ranks.map squares) (by simp [length])
    fun L member => by
      obtain ⟨p, inRanks, rfl⟩ := List.mem_map.mp member
      exact (texts p inRanks).2
  apply Setup.placement_eq_of_rankLetters (y := { placement := placementOf ranks })
  intro r
  have bound : 7 - r.val < ranks.length := by omega
  have described : ({ placement := placementOf ranks } : Setup).rankLetters r =
      squares ranks[7 - r.val] := by
    have eight := (texts _ (List.getElem_mem bound)).2
    refine List.ext_getElem (by simp [eight]) fun i inside _ => ?_
    simp only [Setup.length_rankLetters] at inside
    rw [Setup.getElem_rankLetters]
    simp only [Setup.letterAt, placementOf, Vector.get_ofFn, List.getD_eq_getElem _ _ bound,
      List.getD_eq_getElem _ _ (show i < (squares ranks[7 - r.val]).length by omega)]
  rw [described]
  have place : [7, 6, 5, 4, 3, 2, 1, 0][7 - r.val]? = some r.val := by
    fin_cases r <;> rfl
  have filled := congrArg (fun l => l[7 - r.val]?) shown
  simp only [List.getElem?_map, place, List.getElem?_eq_getElem bound, Option.map_some,
    Option.some.injEq] at filled
  rw [← filled]
  congr 1
  exact Fin.ext (Nat.mod_eq_of_lt r.isLt).symm

theorem readPlacement_run_iff {cs rest : List Char} {st : Setup} :
    readPlacement.run cs = .ok (st, rest) ↔
      ∃ ranks, ranks.length = 8 ∧ (∀ p ∈ ranks, RankText p) ∧
        cs = List.intercalate ['/'] ranks ++ rest ∧ st = { placement := placementOf ranks } := by
  rw [readPlacement_eq]
  constructor
  · intro run
    obtain ⟨ranks, length, texts, rfl, rfl⟩ := foldlM_readRankStep_run_eq_ok _ {} cs run
    refine ⟨ranks, length, texts, by rw [joinRanks_placement length], ?_⟩
    rw [fillRanks_eq_with, placement_fillRanks length texts]
  · rintro ⟨ranks, length, texts, rfl, rfl⟩
    rw [← joinRanks_placement length, foldlM_readRankStep_run_rankText rest _ ranks {}
      (by simp [length]) texts, fillRanks_eq_with, placement_fillRanks length texts]

theorem readPlacement_run_rankTexts {ranks : List (List Char)} (length : ranks.length = 8)
    (texts : ∀ p ∈ ranks, RankText p) (rest : List Char) :
    readPlacement.run (List.intercalate ['/'] ranks ++ rest) =
      .ok ({ placement := placementOf ranks }, rest) :=
  readPlacement_run_iff.mpr ⟨ranks, length, texts, rfl, rfl⟩

/-! ### Letters of the castling field -/

theorem toNat_toLower (c : Char) :
    c.toLower.toNat = if 65 ≤ c.toNat ∧ c.toNat ≤ 90 then c.toNat + 32 else c.toNat := by
  unfold Char.toLower
  by_cases upper : c.val ≥ 'A'.val ∧ c.val ≤ 'Z'.val
  · have bounds : 65 ≤ c.toNat ∧ c.toNat ≤ 90 := by
      simp only [ge_iff_le, UInt32.le_iff_toNat_le] at upper
      exact upper
    rw [dif_pos upper, if_pos bounds]
    simp only [Char.toNat] at bounds ⊢
    rw [UInt32.toNat_add]
    change (c.val.toNat + 32) % 2 ^ 32 = c.val.toNat + 32
    omega
  · have bounds : ¬(65 ≤ c.toNat ∧ c.toNat ≤ 90) := by
      simp only [ge_iff_le, UInt32.le_iff_toNat_le] at upper
      exact upper
    rw [dif_neg upper, if_neg bounds]

theorem toNat_toUpper (c : Char) :
    c.toUpper.toNat = if 97 ≤ c.toNat ∧ c.toNat ≤ 122 then c.toNat - 32 else c.toNat := by
  unfold Char.toUpper
  by_cases lower : 'a'.val ≤ c.val ∧ c.val ≤ 'z'.val
  · have bounds : 97 ≤ c.toNat ∧ c.toNat ≤ 122 := by
      simp only [UInt32.le_iff_toNat_le] at lower
      exact lower
    rw [dif_pos lower, if_pos bounds]
    simp only [Char.toNat] at bounds ⊢
    rw [UInt32.toNat_add]
    change (c.val.toNat + 4294967264) % 2 ^ 32 = c.val.toNat - 32
    omega
  · have bounds : ¬(97 ≤ c.toNat ∧ c.toNat ≤ 122) := by
      simp only [UInt32.le_iff_toNat_le] at lower
      exact lower
    rw [dif_neg lower, if_neg bounds]

theorem castlingColor_eq (a : Char) :
    castlingColor a = if 65 ≤ a.toNat ∧ a.toNat ≤ 90 then .white else .black := by
  have capitalA : 'A'.val.toNat = 65 := rfl
  have capitalZ : 'Z'.val.toNat = 90 := rfl
  unfold castlingColor Char.isUpper
  simp only [ge_iff_le, UInt32.le_iff_toNat_le, decide_eq_true_eq, capitalA, capitalZ, Char.toNat]

theorem File.toNat_letter (f : File) : f.letter.toNat = 97 + f.index.val := by
  obtain ⟨⟨i, small⟩⟩ := f
  interval_cases i <;> rfl

theorem File.toNat_letter_toUpper (f : File) : f.letter.toUpper.toNat = 65 + f.index.val := by
  have small := f.index.isLt
  rw [toNat_toUpper, File.toNat_letter, if_pos (by omega)]
  omega

theorem File.ofChar?_eq_some_iff {x : Char} {f : File} :
    File.ofChar? x = some f ↔ x.toNat = 97 + f.index.val := by
  constructor
  · intro read
    rw [← File.letter_of_ofChar? read, File.toNat_letter]
  · intro code
    rw [show x = f.letter from Char.toNat_inj.mp (by rw [code, File.toNat_letter]),
      File.ofChar?_letter]

theorem fileLetter_iff {a : Char} {f : File} {c : Color} :
    (File.ofChar? a.toLower = some f ∧ castlingColor a = c) ↔
      (a = f.letter.toUpper ∧ c = .white ∨ a = f.letter ∧ c = .black) := by
  have small := f.index.isLt
  rw [File.ofChar?_eq_some_iff, toNat_toLower, castlingColor_eq, ← Char.toNat_inj,
    ← Char.toNat_inj (c := a), File.toNat_letter_toUpper, File.toNat_letter]
  cases c <;> split_ifs <;> simp <;> omega

theorem find?_king_eq_some_iff {st : Setup} {c : Color} {kf : Fin 8} :
    (List.finRange 8).find? (fun f => st.letterAt f (Rank.back c).index = pieceLetter .king c) =
      some kf ↔ FirstKing st c kf := by
  rw [List.find?_eq_some_iff_getElem]
  simp only [decide_eq_true_eq, List.getElem_finRange, List.length_finRange]
  constructor
  · rintro ⟨king, i, small, rfl, before⟩
    refine ⟨king, fun f earlier => ?_⟩
    simpa using before f.val earlier
  · rintro ⟨king, first⟩
    exact ⟨king, kf.val, kf.isLt, rfl, fun j early => by simpa using first ⟨j, by omega⟩ early⟩

theorem castleSideForFile_eq_ok_iff {st : Setup} {c : Color} {f : File} {side : CastleSide} :
    castleSideForFile st c f = .ok side ↔ ∃ kf, FirstKing st c kf ∧ side.Beyond kf f.index := by
  unfold castleSideForFile
  dsimp only
  split
  next kf found =>
    have first := find?_king_eq_some_iff.mp found
    constructor
    · intro named
      refine ⟨kf, first, ?_⟩
      by_cases above : f.index > kf
      · simp only [above, if_true] at named
        cases named
        exact above
      · by_cases below : f.index < kf
        · simp only [above, below, if_true, if_false] at named
          cases named
          exact below
        · simp [above, below] at named
    · rintro ⟨kf', first', beyond⟩
      obtain rfl : kf = kf' :=
        Option.some.inj (found.symm.trans (find?_king_eq_some_iff.mpr first'))
      cases side
      · simp only [CastleSide.Beyond] at beyond
        simp [beyond]
      · simp only [CastleSide.Beyond] at beyond
        simp [beyond, Fin.lt_asymm beyond]
  next missing =>
    constructor
    · intro refused
      cases refused
    · rintro ⟨kf, first, -⟩
      exact absurd (find?_king_eq_some_iff.mpr first) (missing kf)

/-- The right a letter of the castling field grants beside a placement, decoded as reading
decodes it: `KQkq` by name, any other letter as a file beside the first king of its colour. -/
def letterRight? (st : Setup) (a : Char) : Option (Color × CastleSide) :=
  match a with
  | 'K' => some (.white, .kingside)
  | 'k' => some (.black, .kingside)
  | 'Q' => some (.white, .queenside)
  | 'q' => some (.black, .queenside)
  | _ =>
    match File.ofChar? a.toLower with
    | none => none
    | some f =>
      match castleSideForFile st (castlingColor a) f with
      | .ok side => some (castlingColor a, side)
      | .error _ => none

theorem grants_iff_letterRight? {st : Setup} {a : Char} {c : Color} {side : CastleSide} :
    Grants st a c side ↔ letterRight? st a = some (c, side) := by
  constructor
  · rintro (⟨rfl, rfl, rfl⟩ | ⟨rfl, rfl, rfl⟩ | ⟨rfl, rfl, rfl⟩ | ⟨rfl, rfl, rfl⟩ |
      ⟨f, kf, written, first, beyond⟩)
    · rfl
    · rfl
    · rfl
    · rfl
    · obtain ⟨file, color⟩ := fileLetter_iff.mpr written
      have found := castleSideForFile_eq_ok_iff.mpr ⟨kf, first, beyond⟩
      unfold letterRight?
      split
      case h_5 => simp only [file, color, found]
      all_goals simp [File.ofChar?] at file
  · intro decoded
    unfold letterRight? at decoded
    split at decoded
    · cases decoded
      exact Or.inl ⟨rfl, rfl, rfl⟩
    · cases decoded
      exact Or.inr (Or.inr (Or.inl ⟨rfl, rfl, rfl⟩))
    · cases decoded
      exact Or.inr (Or.inl ⟨rfl, rfl, rfl⟩)
    · cases decoded
      exact Or.inr (Or.inr (Or.inr (Or.inl ⟨rfl, rfl, rfl⟩)))
    · split at decoded
      · cases decoded
      · rename_i f file
        split at decoded
        · rename_i found
          cases decoded
          obtain ⟨kf, first, beyond⟩ := castleSideForFile_eq_ok_iff.mp found
          exact Or.inr (Or.inr (Or.inr (Or.inr
            ⟨f, kf, fileLetter_iff.mp ⟨file, rfl⟩, first, beyond⟩)))
        · cases decoded

theorem grants_iff_of_unnamed {st : Setup} {a : Char} {c : Color} {side : CastleSide}
    (unnamed : a ∉ ['K', 'Q', 'k', 'q']) :
    Grants st a c side ↔ ∃ f, File.ofChar? a.toLower = some f ∧ castlingColor a = c ∧
      castleSideForFile st c f = .ok side := by
  constructor
  · rintro (⟨rfl, -⟩ | ⟨rfl, -⟩ | ⟨rfl, -⟩ | ⟨rfl, -⟩ | ⟨f, kf, written, first, beyond⟩)
    iterate 4 exact absurd (by simp) unnamed
    obtain ⟨file, color⟩ := fileLetter_iff.mpr written
    exact ⟨f, file, color, castleSideForFile_eq_ok_iff.mpr ⟨kf, first, beyond⟩⟩
  · rintro ⟨f, file, color, found⟩
    obtain ⟨kf, first, beyond⟩ := castleSideForFile_eq_ok_iff.mp found
    exact Or.inr (Or.inr (Or.inr (Or.inr
      ⟨f, kf, fileLetter_iff.mp ⟨file, color⟩, first, beyond⟩)))

theorem castlingStep_run_eq_ok_iff {st : Setup} {rights : CastleRights} {a : Char}
    {cs : List Char} {step : ForInStep CastleRights} {rest : List Char} (letter : a ≠ ' ') :
    (castlingStep st rights).run (a :: cs) = .ok (step, rest) ↔
      rest = cs ∧ ∃ c side, Grants st a c side ∧ step = .yield (rights.set c side true) := by
  unfold castlingStep
  simp only [StateT.run_bind, peek_run, Except.ok_bind, letter, if_false]
  split
  case h_5 notK notk notQ notq =>
    have unnamed : a ∉ ['K', 'Q', 'k', 'q'] := by
      simp only [List.mem_cons, List.not_mem_nil, or_false]
      tauto
    simp only [grants_iff_of_unnamed unnamed, castlingColor]
    cases file : File.ofChar? a.toLower with
    | none => simp
    | some f =>
      cases found : castleSideForFile st (if a.isUpper = true then .white else .black) f with
      | error e => simp [found]
      | ok w =>
        simp only [found, pure_bind, StateT.run_bind, advance_run, StateT.run_pure, Except.ok_bind]
        constructor
        · intro run
          cases run
          exact ⟨rfl, _, w, ⟨f, rfl, rfl, found⟩, rfl⟩
        · rintro ⟨rfl, c, side, ⟨f', same, rfl, found'⟩, rfl⟩
          cases same
          rw [found] at found'
          cases found'
          rfl
  all_goals
    simp only [grants_iff_letterRight?, pure_bind, StateT.run_bind, advance_run, StateT.run_pure,
      Except.ok_bind]
    constructor
    · intro run
      cases run
      exact ⟨rfl, _, _, rfl, rfl⟩
    · rintro ⟨rfl, c, side, decoded, rfl⟩
      cases decoded
      rfl

theorem Grants.unique {st : Setup} {a : Char} {c c' : Color} {side side' : CastleSide}
    (grants : Grants st a c side) (grants' : Grants st a c' side') : c = c' ∧ side = side' := by
  have same := (grants_iff_letterRight?.mp grants).symm.trans (grants_iff_letterRight?.mp grants')
  cases same
  exact ⟨rfl, rfl⟩

theorem Grants.ne_blank {st : Setup} {a : Char} {c : Color} {side : CastleSide}
    (grants : Grants st a c side) : a ≠ ' ' := by
  rintro rfl
  cases grants_iff_letterRight?.mp grants

theorem Grants.ne_dash {st : Setup} {a : Char} {c : Color} {side : CastleSide}
    (grants : Grants st a c side) : a ≠ '-' := by
  rintro rfl
  cases grants_iff_letterRight?.mp grants

theorem CastleRights.ext_get {r r' : CastleRights} (same : ∀ c side, r.get c side = r'.get c side) :
    r = r' := by
  obtain ⟨wk, wq, bk, bq⟩ := r
  obtain ⟨wk', wq', bk', bq'⟩ := r'
  have sameWK := same .white .kingside
  have sameWQ := same .white .queenside
  have sameBK := same .black .kingside
  have sameBQ := same .black .queenside
  simp only [CastleRights.get] at sameWK sameWQ sameBK sameBQ
  rw [sameWK, sameWQ, sameBK, sameBQ]

theorem get_set_iff_grants {st : Setup} {a : Char} {c : Color} {side : CastleSide}
    (grants : Grants st a c side) (acc : CastleRights) (c' : Color) (side' : CastleSide) :
    (acc.set c side true).get c' side' = true ↔ acc.get c' side' = true ∨ Grants st a c' side' := by
  rw [CastleRights.get_set]
  by_cases same : (c', side') = (c, side)
  · obtain ⟨rfl, rfl⟩ := Prod.mk.inj same
    simp [grants]
  · have other : ¬Grants st a c' side' := fun grants' => by
      obtain ⟨rfl, rfl⟩ := grants.unique grants'
      exact same rfl
    simp [same, other]

theorem forIn_castlingStep_run_grants (st : Setup) (more : List Char) :
    ∀ (l : List Nat) (acc : CastleRights) (field : List Char), field.length ≤ l.length →
      (∀ a ∈ field, ∃ c side, Grants st a c side) →
      ∃ rights, (forIn l acc fun _ rights => castlingStep st rights).run (field ++ ' ' :: more) =
          .ok (rights, ' ' :: more) ∧
        ∀ c side, rights.get c side = true ↔
          acc.get c side = true ∨ ∃ a ∈ field, Grants st a c side
  | [], acc, [], _, _ => ⟨acc, rfl, by simp⟩
  | _ :: l, acc, [], _, _ =>
    ⟨acc, by simp [List.forIn_cons, castlingStep_run_space], by simp⟩
  | [], acc, a :: field, room, _ => by simp at room
  | _ :: l, acc, a :: field, room, granting => by
    obtain ⟨c, side, grants⟩ := granting a List.mem_cons_self
    have stepped : (castlingStep st acc).run (a :: (field ++ ' ' :: more)) =
        .ok (.yield (acc.set c side true), field ++ ' ' :: more) :=
      (castlingStep_run_eq_ok_iff grants.ne_blank).mpr ⟨rfl, c, side, grants, rfl⟩
    obtain ⟨rights, run, spec⟩ := forIn_castlingStep_run_grants st more l (acc.set c side true)
      field (by simp at room; omega) fun x member => granting x (List.mem_cons_of_mem a member)
    refine ⟨rights, ?_, fun c' side' => ?_⟩
    · simp only [List.forIn_cons, StateT.run_bind, List.cons_append, stepped, Except.ok_bind]
      exact run
    · rw [spec, get_set_iff_grants grants]
      simp only [List.mem_cons, or_and_right, exists_or, exists_eq_left]
      tauto

theorem forIn_castlingStep_run_eq_ok (st : Setup) :
    ∀ (l : List Nat) (acc : CastleRights) (cs : List Char) {rights : CastleRights}
      {rest : List Char},
      (forIn l acc fun _ rights => castlingStep st rights).run cs = .ok (rights, rest) →
      ∃ field, cs = field ++ rest ∧ field.length ≤ l.length ∧
        (∀ a ∈ field, ∃ c side, Grants st a c side) ∧
        ∀ c side, rights.get c side = true ↔
          acc.get c side = true ∨ ∃ a ∈ field, Grants st a c side
  | [], acc, cs, _, _, run => by
    simp only [List.forIn_nil, StateT.run_pure] at run
    obtain ⟨rfl, rfl⟩ := run
    exact ⟨[], rfl, by simp, by simp, by simp⟩
  | _ :: l, acc, [], _, _, run => by
    simp [List.forIn_cons, castlingStep, peek] at run
  | _ :: l, acc, a :: cs, _, _, run => by
    by_cases space : a = ' '
    · subst space
      simp only [List.forIn_cons, StateT.run_bind, castlingStep_run_space, Except.ok_bind,
        StateT.run_pure] at run
      obtain ⟨rfl, rfl⟩ := run
      exact ⟨[], rfl, by simp, by simp, by simp⟩
    · rw [List.forIn_cons, StateT.run_bind] at run
      obtain ⟨⟨step, r⟩, stepped, later⟩ := Except.bind_eq_ok.mp run
      obtain ⟨rfl, c, side, grants, rfl⟩ := (castlingStep_run_eq_ok_iff space).mp stepped
      obtain ⟨field, rfl, short, granting, spec⟩ :=
        forIn_castlingStep_run_eq_ok st l (acc.set c side true) r later
      refine ⟨a :: field, rfl, by simp [short], ?_, fun c' side' => ?_⟩
      · intro x member
        rcases List.mem_cons.mp member with rfl | later
        · exact ⟨c, side, grants⟩
        · exact granting x later
      · rw [spec, get_set_iff_grants grants]
        simp only [List.mem_cons, or_and_right, exists_or, exists_eq_left]
        tauto

@[simp] theorem CastleRights.get_empty (c : Color) (side : CastleSide) :
    ({} : CastleRights).get c side = false := by
  cases c <;> cases side <;> rfl

theorem eq_cons_of_peek_run {cs r : List Char} {c : Char} (run : peek.run cs = .ok (c, r)) :
    r = cs ∧ ∃ more, cs = c :: more := by
  match cs with
  | [] => simp [peek] at run
  | d :: more =>
    rw [peek_run] at run
    cases run
    exact ⟨rfl, more, rfl⟩

theorem readCastling_run_castlingText {st : Setup} {field : List Char} {rights : CastleRights}
    (text : CastlingText st field rights) (more : List Char) :
    (readCastling st).run (field ++ ' ' :: more) = .ok (rights, ' ' :: more) := by
  rw [readCastling_eq]
  rcases text with ⟨rfl, rfl⟩ | ⟨short, granting, spec⟩
  · rfl
  obtain ⟨rights', run, spec'⟩ :=
    forIn_castlingStep_run_grants st more [0, 1, 2, 3] {} field short granting
  have same : rights' = rights := CastleRights.ext_get fun c side => by
    apply Bool.eq_iff_iff.mpr
    rw [spec', spec]
    simp
  obtain ⟨x, xs, parted, notDash⟩ : ∃ x xs, field ++ ' ' :: more = x :: xs ∧ x ≠ '-' := by
    cases field with
    | nil => exact ⟨' ', more, rfl, by decide⟩
    | cons a field =>
      obtain ⟨c, side, grants⟩ := granting a List.mem_cons_self
      exact ⟨a, field ++ ' ' :: more, rfl, grants.ne_dash⟩
  rw [parted]
  simp only [StateT.run_bind, peek_run, Except.ok_bind, notDash, if_false]
  rw [← parted, run]
  simp [same]

theorem castlingText_of_readCastling_run {st : Setup} {cs rest rest' : List Char}
    {rights : CastleRights} {u : Unit} (run : (readCastling st).run cs = .ok (rights, rest))
    (spaced : (expect ' ').run rest = .ok (u, rest')) :
    ∃ field, cs = field ++ ' ' :: rest' ∧ CastlingText st field rights := by
  obtain rfl := eq_cons_of_expect_run spaced
  rw [readCastling_eq] at run
  obtain ⟨x, r, peeked, branch⟩ := run_bind_eq_ok run
  obtain ⟨rfl, more, rfl⟩ := eq_cons_of_peek_run peeked
  split at branch
  · rename_i dash
    subst dash
    simp only [StateT.run_bind, advance_run, Except.ok_bind, StateT.run_pure] at branch
    cases branch
    exact ⟨['-'], rfl, Or.inl ⟨rfl, rfl⟩⟩
  · rw [StateT.run_bind] at branch
    obtain ⟨⟨rights', r'⟩, looped, finished⟩ := Except.bind_eq_ok.mp branch
    cases finished
    obtain ⟨field, parted, short, granting, spec⟩ :=
      forIn_castlingStep_run_eq_ok st [0, 1, 2, 3] {} _ looped
    exact ⟨field, parted, Or.inr ⟨short, granting, fun c side => by simpa using spec c side⟩⟩

/-! ### The clocks -/

theorem clockValue?_eq_some_iff {ds : List Char} {v : UInt32} :
    clockValue? ds = some v ↔
      Nat.ofDigitChars 10 ds 0 < 2 ^ 32 ∧ v.toNat = Nat.ofDigitChars 10 ds 0 := by
  rw [clockValue?_eq]
  by_cases small : Nat.ofDigitChars 10 ds 0 < 4294967296
  · have wide : (Nat.ofDigitChars 10 ds 0).toUInt32.toNat = Nat.ofDigitChars 10 ds 0 := by
      rw [Nat.toUInt32_eq, UInt32.toNat_ofNat', Nat.mod_eq_of_lt small]
    rw [if_pos small, Option.some.injEq]
    constructor
    · rintro rfl
      exact ⟨small, wide⟩
    · rintro ⟨-, value⟩
      exact UInt32.toNat_inj.mp (by rw [value, wide])
  · rw [if_neg small]
    simp only [reduceCtorEq, false_iff, not_and]
    intro below
    exact absurd below small

theorem readHalfmove_run_stop {c : Char} (stop : c.isDigit = false) (more : List Char) :
    readHalfmove.run (c :: more) = .error .emptyHalfmove := by
  have loop := forIn_digitStep_run stop more [] (by simp) (List.range ((c :: more).length + 1))
    #[] (by simp)
  rw [readHalfmove_eq]
  simp only [StateT.run_bind, StateT.run_get, pure_bind]
  rw [List.nil_append] at loop
  rw [loop]
  simp

theorem readHalfmove_run_clockText {ds : List Char} {v : UInt32} (text : ClockText ds v)
    {c : Char} (stop : c.isDigit = false) (more : List Char) :
    readHalfmove.run (ds ++ c :: more) = .ok (v, c :: more) := by
  obtain ⟨nonempty, digits, small, value⟩ := text
  have loop := forIn_digitStep_run stop more ds digits
    (List.range ((ds ++ c :: more).length + 1)) #[] (by simp)
  rw [readHalfmove_eq]
  simp only [StateT.run_bind, StateT.run_get, pure_bind]
  rw [loop]
  simp [nonempty, clockValue?_eq_some_iff.mpr ⟨small, value⟩]

theorem clockText_of_readHalfmove_run {cs r : List Char} {v : UInt32}
    (run : readHalfmove.run cs = .ok (v, r)) :
    ∃ ds c rest, cs = ds ++ r ∧ r = c :: rest ∧ c.isDigit = false ∧ ClockText ds v := by
  obtain ⟨ds, c, rest, rfl, rfl, stop, digits, value⟩ := readHalfmove_run_inv run
  have nonempty : ds ≠ [] := by
    rintro rfl
    rw [List.nil_append, readHalfmove_run_stop stop] at run
    cases run
  exact ⟨ds, c, rest, rfl, rfl, stop, nonempty, digits, clockValue?_eq_some_iff.mp value⟩

theorem readFullmove_run_eq_ok_iff {cs : List Char} {v : UInt32} :
    (∃ r, readFullmove.run cs = .ok (v, r)) ↔
      ∃ ds rest, cs = ds ++ rest ∧ ClockText ds v ∧ Ends rest := by
  constructor
  · rintro ⟨r, run⟩
    simp only [readFullmove, StateT.run_bind, StateT.run_get, pure_bind, StateT.run_set] at run
    by_cases empty : cs.takeWhile Char.isDigit = []
    · simp [empty] at run
    cases value : clockValue? (cs.takeWhile Char.isDigit) with
    | none => simp [empty, value] at run
    | some n =>
      simp [empty, value] at run
      obtain ⟨rfl, -⟩ := run
      refine ⟨cs.takeWhile Char.isDigit, cs.dropWhile Char.isDigit, by simp,
        ⟨empty, fun d member => List.mem_takeWhile_imp member, clockValue?_eq_some_iff.mp value⟩, ?_⟩
      cases after : cs.dropWhile Char.isDigit with
      | nil => exact Or.inl rfl
      | cons c more =>
        have stop := List.head_dropWhile_not Char.isDigit (l := cs) (by simp [after])
        simp only [after, List.head_cons] at stop
        exact Or.inr ⟨c, more, rfl, stop⟩
  · rintro ⟨ds, rest, rfl, ⟨nonempty, digits, small, value⟩, ends⟩
    have taken : (ds ++ rest).takeWhile Char.isDigit = ds := by
      rw [List.takeWhile_append_of_pos digits]
      rcases ends with rfl | ⟨c, more, rfl, stop⟩
      · simp
      · simp [stop]
    simp only [readFullmove, StateT.run_bind, StateT.run_get, pure_bind, StateT.run_set, taken]
    simp [nonempty, clockValue?_eq_some_iff.mpr ⟨small, value⟩]

/-! ### The whole text -/

theorem run_expect_bind_eq_ok {β : Type} {c : Char} {f : Unit → Reader β} {cs rest : List Char}
    {b : β} (run : (expect c >>= f).run cs = .ok (b, rest)) :
    ∃ more, cs = c :: more ∧ (f ()).run more = .ok (b, rest) := by
  obtain ⟨u, more, expected, next⟩ := run_bind_eq_ok run
  exact ⟨more, eq_cons_of_expect_run expected, next⟩

theorem castlingText_congr {st st' : Setup} (same : st.placement = st'.placement)
    {field : List Char} {rights : CastleRights} :
    CastlingText st field rights ↔ CastlingText st' field rights := by
  have letters : st.letterAt = st'.letterAt := by
    funext f r
    simp [Setup.letterAt, same]
  unfold CastlingText Grants FirstKing
  rw [letters]

theorem spells_of_readFen_run {cs rest : List Char} {st : Setup}
    (run : readFen.run cs = .ok (st, rest)) : Spells cs st := by
  unfold readFen at run
  obtain ⟨st₀, r₁, placed, run₁⟩ := run_bind_eq_ok run
  obtain ⟨ranks, length, texts, rfl, rfl⟩ := readPlacement_run_iff.mp placed
  obtain ⟨r₂, rfl, run₂⟩ := run_expect_bind_eq_ok run₁
  obtain ⟨c, r₃, peeked, run₃⟩ := run_bind_eq_ok run₂
  obtain ⟨rfl, more, rfl⟩ := eq_cons_of_peek_run peeked
  dsimp only at run₃
  split at run₃
  case h_3 => simp at run₃
  all_goals
    rw [pure_bind] at run₃
    obtain ⟨_, r₄, advanced, run₄⟩ := run_bind_eq_ok run₃
    rw [advance_run] at advanced
    cases advanced
    obtain ⟨r₅, rfl, run₅⟩ := run_expect_bind_eq_ok run₄
    obtain ⟨castling, r₆, readRights, run₆⟩ := run_bind_eq_ok run₅
    obtain ⟨_, r₇, expected, run₇⟩ := run_bind_eq_ok run₆
    obtain ⟨field, rfl, castlingText⟩ := castlingText_of_readCastling_run readRights expected
    obtain rfl := eq_cons_of_expect_run expected
    obtain ⟨enPassant, r₈, readSquare, run₈⟩ := run_bind_eq_ok run₇
    obtain rfl := readEnPassant_run_inv readSquare
    obtain ⟨r₉, rfl, run₉⟩ := run_expect_bind_eq_ok run₈
    obtain ⟨halfmove, r₁₀, readHalf, run₁₀⟩ := run_bind_eq_ok run₉
    obtain ⟨half, d, r₁₁, rfl, rfl, -, halfText⟩ := clockText_of_readHalfmove_run readHalf
    obtain ⟨r₁₂, spaced, run₁₂⟩ := run_expect_bind_eq_ok run₁₀
    obtain ⟨rfl, rfl⟩ := List.cons.inj spaced
    obtain ⟨fullmove, r₁₃, readFull, run₁₃⟩ := run_bind_eq_ok run₁₂
    obtain ⟨full, after, rfl, fullText, ends⟩ := readFullmove_run_eq_ok_iff.mp ⟨r₁₃, readFull⟩
    cases run₁₃
    exact ⟨ranks, field, half, full, after, length, texts, rfl, castlingText, halfText, fullText,
      ends, rfl⟩

theorem readFen_run_of_spells {cs : List Char} {st : Setup} (spells : Spells cs st) :
    ∃ rest, readFen.run cs = .ok (st, rest) := by
  obtain ⟨ranks, field, half, full, after, length, texts, placed, castlingText, halfText,
    fullText, ends, rfl⟩ := spells
  obtain ⟨rest, readFull⟩ := readFullmove_run_eq_ok_iff.mpr ⟨full, after, rfl, fullText, ends⟩
  refine ⟨rest, ?_⟩
  obtain ⟨placement, side, castling, enPassant, halfmove, fullmove⟩ := st
  dsimp only at placed castlingText halfText fullText readFull ⊢
  subst placed
  have alone : CastlingText { placement := placementOf ranks } field castling :=
    (castlingText_congr rfl).mp castlingText
  have readRights := readCastling_run_castlingText alone
  have stop : (' ').isDigit = false := rfl
  unfold readFen
  cases side <;>
  simp only [StateT.run_bind, readPlacement_run_rankTexts length texts, Except.ok_bind,
    expect_run, peek_run, Color.letter, pure_bind, advance_run, readRights, readEnPassant_run,
    readHalfmove_run_clockText halfText stop, readFull] <;> rfl

/-- A text reads as a setup exactly when, once the blanks around it are removed, it spells
that setup. -/
theorem parse_eq_ok_iff_spells (text : String) (st : Setup) :
    parse text = .ok st ↔ Spells (Text.trimBlank text).toList st := by
  constructor
  · intro parsed
    obtain ⟨rest, run⟩ := readFen_run_of_parse parsed
    exact spells_of_readFen_run run
  · intro spells
    obtain ⟨rest, run⟩ := readFen_run_of_spells spells
    rw [parse_eq, run]
    rfl

end Fen

end Chess
