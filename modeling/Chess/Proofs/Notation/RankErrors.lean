import Chess.Proofs.Notation.FenGrammar

namespace Chess

namespace Fen

/-! Ranks that do not hold eight squares. Reading a rank counts its files as it goes and stops
at the h-file. It reports that a rank does not sum to eight files only when a digit carries
the count from short of the h-file past it. A rank whose squares fill the eight files before its
text ends meets its next character where the `/` after it, or the space after rank 1, should
stand; a rank that falls short meets the separator after it where a square should be, or the
end of the text. -/

/-- The squares of a rank's text run past the h-file in one step: some character takes their
count from short of eight to beyond it. Only a digit can. -/
def Overruns (t : List Char) : Prop :=
  ∃ pre d post, t = pre ++ d :: post ∧ (squares pre).length < 8 ∧
    8 < (squares pre).length + (squaresOf d).length

def FillsBefore (t : List Char) (c : Char) : Prop :=
  ∃ pre post, t = pre ++ c :: post ∧ (squares pre).length = 8

theorem overrun_or_fill_or_short :
    ∀ (t : List Char) (file : Nat), file < 8 → file + (squares t).length ≠ 8 →
      (∃ pre d post, t = pre ++ d :: post ∧ file + (squares pre).length < 8 ∧
          8 < file + (squares pre).length + (squaresOf d).length) ∨
        (∃ pre c post, t = pre ++ c :: post ∧ file + (squares pre).length = 8) ∨
        file + (squares t).length < 8
  | [], file, room, _ => .inr (.inr (by simpa using room))
  | c :: t, file, room, total => by
    simp only [squares_cons, List.length_append] at total
    rcases Nat.lt_trichotomy (file + (squaresOf c).length) 8 with short | full | beyond
    · rcases overrun_or_fill_or_short t _ short (by omega) with
        ⟨pre, d, post, rfl, below, above⟩ | ⟨pre, d, post, rfl, exact⟩ | under
      · exact .inl ⟨c :: pre, d, post, rfl, by simp; omega, by simp; omega⟩
      · exact .inr (.inl ⟨c :: pre, d, post, rfl, by simp; omega⟩)
      · exact .inr (.inr (by simp; omega))
    · cases t with
      | nil => simp at total; omega
      | cons d post => exact .inr (.inl ⟨[c], d, post, rfl, by simpa using full⟩)
    · exact .inl ⟨[], c, t, rfl, by simpa using room, by simpa using beyond⟩

theorem overruns_or_fillsBefore_or_short {t : List Char} (total : (squares t).length ≠ 8) :
    Overruns t ∨ (∃ c, FillsBefore t c) ∨ (squares t).length < 8 := by
  rcases overrun_or_fill_or_short t 0 (by decide) (by simpa using total) with
    ⟨pre, d, post, split, below, above⟩ | ⟨pre, c, post, split, exact⟩ | under
  · exact .inl ⟨pre, d, post, split, by simpa using below, by simpa using above⟩
  · exact .inr (.inl ⟨c, pre, post, split, by simpa using exact⟩)
  · exact .inr (.inr (by simpa using under))

theorem RankChar.ne_separator {c : Char} (square : RankChar c) : c ≠ '/' ∧ c ≠ ' ' := by
  rcases square with ⟨kind, color, rfl⟩ | range
  · cases kind <;> cases color <;> decide
  · have bounds := toNat_bounds_of_range range
    constructor <;> intro same <;> rw [same] at bounds <;> simp at bounds

theorem FillsBefore.rankChar {t : List Char} {c : Char} (fills : FillsBefore t c)
    (chars : ∀ x ∈ t, RankChar x) : RankChar c := by
  obtain ⟨pre, post, rfl, -⟩ := fills
  exact chars c (by simp)

/-! ### One rank -/

theorem readRank_append (rank : Fin 8) (rest : List Char) :
    ∀ (pre : List Char) (file : Nat) (st : Setup), (∀ c ∈ pre, RankChar c) →
      file + (squares pre).length ≤ 8 →
      readRank rank file (pre ++ rest) st =
        readRank rank (file + (squares pre).length) rest (st.fillRank rank file (squares pre))
  | [], file, st, _, _ => by simp [Setup.fillRank]
  | c :: pre, file, st, chars, fits => by
    have later : ∀ x ∈ pre, RankChar x := fun x member => chars x (List.mem_cons_of_mem c member)
    simp only [squares_cons, List.length_append] at fits
    rcases chars c List.mem_cons_self with letter | range
    · have known : (pieceOfLetter? c).isSome := isSome_pieceOfLetter?_iff.mpr letter
      have space : c ≠ ' ' := fun blank => by simp [blank, pieceOfLetter?_blank] at known
      rw [squaresOf_letter known] at fits
      simp only [List.length_singleton] at fits
      rw [List.cons_append, readRank_letter rank (by omega) known,
        readRank_append rank rest pre (file + 1) _ later (by omega), squares_cons,
        squaresOf_letter known, List.singleton_append, Setup.fillRank, if_neg space]
      simp only [List.length_cons]
      rw [Nat.add_comm (squares pre).length 1, Nat.add_assoc]
    · have digit := isDigit_of_range range
      have bounds := toNat_bounds_of_range range
      have zero : '0'.toNat = 48 := rfl
      rw [squaresOf_digit digit] at fits
      simp only [List.length_replicate] at fits
      rw [List.cons_append, readRank, if_neg (by omega), if_pos digit,
        if_neg (by simp only [not_or, not_lt, gt_iff_lt]; exact range)]
      dsimp only
      rw [if_neg (by omega), readRank_append rank rest pre _ _ later (by omega), squares_cons,
        squaresOf_digit digit, Setup.fillRank_replicate]
      simp only [List.length_append, List.length_replicate]
      rw [Nat.add_assoc]

theorem readRank_overrun (rank : Fin 8) {pre : List Char} {d : Char} (chars : ∀ c ∈ pre, RankChar c)
    (isRankChar : RankChar d) {file : Nat} (short : file + (squares pre).length < 8)
    (beyond : 8 < file + (squares pre).length + (squaresOf d).length) (rest : List Char) (st : Setup) :
    readRank rank file (pre ++ d :: rest) st = .error .fileDoesNotSumToEight := by
  rw [readRank_append rank _ pre file st chars (by omega)]
  rcases isRankChar with letter | range
  · rw [squaresOf_letter (isSome_pieceOfLetter?_iff.mpr letter)] at beyond
    simp at beyond
    omega
  · have digit := isDigit_of_range range
    have bounds := toNat_bounds_of_range range
    have zero : '0'.toNat = 48 := rfl
    rw [squaresOf_digit digit, List.length_replicate] at beyond
    rw [readRank, if_neg (by omega), if_pos digit,
      if_neg (by simp only [not_or, not_lt, gt_iff_lt]; exact range)]
    dsimp only
    rw [if_pos (by omega)]

theorem readRank_short (rank : Fin 8) {t : List Char} (chars : ∀ c ∈ t, RankChar c)
    {file : Nat} (short : file + (squares t).length < 8) {rest : List Char}
    (ends : ∀ c ∈ rest.head?, c = '/' ∨ c = ' ') (st : Setup) :
    readRank rank file (t ++ rest) st =
      .error (if rest = [] then .unexpectedEnd else .unknownPiece) := by
  rw [readRank_append rank rest t file st chars (by omega)]
  cases rest with
  | nil => simp [readRank, show ¬(file + (squares t).length > 7) by omega]
  | cons c more =>
    have separator : c = '/' ∨ c = ' ' := ends c rfl
    rw [readRank, if_neg (by omega)]
    rcases separator with rfl | rfl <;> rfl

/-! ### The rank in the placement -/

section Step

variable {r : Nat} {acc : Setup} {t rest : List Char}

theorem readRankStep_run_of_error {cs : List Char} {e : FenError}
    (read : readRank ⟨r % 8, mod_eight_lt r⟩ 0 cs acc = .error e) :
    (readRankStep r acc).run cs = .error e := by
  unfold readRankStep
  simp only [StateT.run_bind, StateT.run_get, pure_bind, read]
  rfl

theorem readRank_fillsBefore {c : Char} (chars : ∀ x ∈ t, RankChar x) (fills : FillsBefore t c)
    (rank : Fin 8) (st : Setup) (more : List Char) :
    ∃ st' post, readRank rank 0 (t ++ more) st = .ok (c :: post ++ more, st') := by
  obtain ⟨pre, post, rfl, exact⟩ := fills
  have early : ∀ x ∈ pre, RankChar x := fun x member => chars x (by simp [member])
  refine ⟨st.fillRank rank 0 (squares pre), post, ?_⟩
  rw [List.append_assoc, readRank_squares rank _ pre 0 st early (by simpa using exact)]

theorem readRankStep_run_fillsBefore (nonzero : r ≠ 0) {c : Char} (chars : ∀ x ∈ t, RankChar x)
    (fills : FillsBefore t c) : (readRankStep r acc).run (t ++ rest) = .error (.unexpectedChar c) := by
  obtain ⟨st', post, read⟩ := readRank_fillsBefore chars fills ⟨r % 8, mod_eight_lt r⟩ acc rest
  have notSlash : c ≠ '/' := (fills.rankChar chars).ne_separator.1
  unfold readRankStep
  simp only [StateT.run_bind, StateT.run_get, pure_bind, read, StateT.run_set, if_pos nonzero]
  simp [expect, notSlash]

theorem foldlM_readRankStep_run_of_error {rs : List Nat} {cs : List Char} {e : FenError}
    (step : (readRankStep r acc).run cs = .error e) :
    ((r :: rs).foldlM (fun st x => readRankStep x st) acc).run cs = .error e := by
  simp only [List.foldlM_cons, StateT.run_bind, step]
  rfl

end Step

/-! ### The text -/

theorem joinRanks_eq_flatMap : ∀ (rs : List Nat) (ts : List (List Char)), (∀ r ∈ rs, r ≠ 0) →
    rs.length = ts.length → joinRanks rs ts = ts.flatMap (· ++ ['/'])
  | [], [], _, _ => rfl
  | r :: rs, t :: ts, nonzero, lengths => by
    rw [joinRanks, if_neg (nonzero r List.mem_cons_self),
      joinRanks_eq_flatMap rs ts (fun x member => nonzero x (List.mem_cons_of_mem r member))
        (by simpa using lengths)]
    simp
  | [], _ :: _, _, lengths => by simp at lengths
  | _ :: _, [], _, lengths => by simp at lengths

theorem drop_ranks {k : Nat} (earlier : k < 8) :
    [7, 6, 5, 4, 3, 2, 1, 0].drop k = (7 - k) :: [7, 6, 5, 4, 3, 2, 1, 0].drop (k + 1) := by
  interval_cases k <;> rfl

theorem readPlacement_run_after {good : List (List Char)} (earlier : good.length < 8)
    (texts : ∀ p ∈ good, RankText p) (cs : List Char) :
    readPlacement.run (good.flatMap (· ++ ['/']) ++ cs) =
      (([7, 6, 5, 4, 3, 2, 1, 0].drop good.length).foldlM (fun st r => readRankStep r st)
        (fillRanks {} ([7, 6, 5, 4, 3, 2, 1, 0].take good.length) (good.map squares))).run cs := by
  have lengths : ([7, 6, 5, 4, 3, 2, 1, 0].take good.length).length = good.length := by
    simp only [List.length_take, List.length_cons, List.length_nil]
    omega
  have nonzero : ∀ r ∈ [7, 6, 5, 4, 3, 2, 1, 0].take good.length, r ≠ 0 := by
    generalize good.length = k at earlier
    interval_cases k <;> decide
  rw [readPlacement_eq, ← List.take_append_drop good.length [7, 6, 5, 4, 3, 2, 1, 0],
    List.foldlM_append, StateT.run_bind, List.take_append_drop,
    ← joinRanks_eq_flatMap _ good nonzero lengths,
    foldlM_readRankStep_run_rankText cs _ good {} lengths texts]
  rfl

theorem parse_eq_error_of_step {text : String} {good : List (List Char)} {cs : List Char}
    (earlier : good.length < 8) (texts : ∀ p ∈ good, RankText p)
    (spelled : (Text.trimBlank text).toList = good.flatMap (· ++ ['/']) ++ cs) {e : FenError}
    (step : (readRankStep (7 - good.length)
      (fillRanks {} ([7, 6, 5, 4, 3, 2, 1, 0].take good.length) (good.map squares))).run cs =
        .error e) :
    parse text = .error e := by
  have placement : readPlacement.run (Text.trimBlank text).toList = .error e := by
    rw [spelled, readPlacement_run_after earlier texts, drop_ranks earlier]
    exact foldlM_readRankStep_run_of_error step
  rw [parse_eq]
  simp only [readFen, StateT.run_bind, placement]
  rfl

theorem parse_eq_error_of_last_fillsBefore {text : String} {good : List (List Char)}
    {t rest : List Char} {c : Char} (last : good.length = 7) (texts : ∀ p ∈ good, RankText p)
    (chars : ∀ x ∈ t, RankChar x) (fills : FillsBefore t c)
    (spelled : (Text.trimBlank text).toList = good.flatMap (· ++ ['/']) ++ t ++ rest) :
    parse text = .error (.unexpectedChar c) := by
  obtain ⟨st', post, read⟩ := readRank_fillsBefore chars fills ⟨0 % 8, mod_eight_lt 0⟩
    (fillRanks {} ([7, 6, 5, 4, 3, 2, 1, 0].take 7) (good.map squares)) rest
  have placement : readPlacement.run (Text.trimBlank text).toList = .ok (st', c :: post ++ rest) := by
    rw [spelled, List.append_assoc, readPlacement_run_after (by omega) texts, last]
    simp only [drop_ranks (show 7 < 8 by decide), List.foldlM_cons, StateT.run_bind]
    unfold readRankStep
    simp only [StateT.run_bind, StateT.run_get, pure_bind, read, StateT.run_set]
    rfl
  have notSpace : c ≠ ' ' := (fills.rankChar chars).ne_separator.2
  rw [parse_eq]
  simp only [readFen, StateT.run_bind, placement, Except.ok_bind]
  simp [expect, notSpace]
  rfl

/-- Reading a FEN text whose first ranks are well formed, and whose next rank is piece letters and
digits `1` to `8` standing for other than eight squares, reports that the rank does not sum to
eight files exactly when a digit carries the count from short of the h-file past it. A rank that
fills the eight files before its text ends is refused at the character after the h-file, and a
rank that falls short at the separator after it, as no piece, or at the end of the text. -/
theorem parse_error_of_rank_not_eight {text : String} {good : List (List Char)}
    {t rest : List Char} (earlier : good.length < 8) (texts : ∀ p ∈ good, RankText p)
    (chars : ∀ c ∈ t, RankChar c) (total : (squares t).length ≠ 8)
    (ends : ∀ c ∈ rest.head?, c = '/' ∨ c = ' ')
    (spelled : (Text.trimBlank text).toList = good.flatMap (· ++ ['/']) ++ t ++ rest) :
    (parse text = .error .fileDoesNotSumToEight ↔ Overruns t) ∧
      (∀ c, FillsBefore t c → parse text = .error (.unexpectedChar c)) ∧
      ((squares t).length < 8 →
        parse text = .error (if rest = [] then .unexpectedEnd else .unknownPiece)) := by
  have spelled' := spelled
  rw [List.append_assoc] at spelled'
  have overrun : Overruns t → parse text = .error .fileDoesNotSumToEight := by
    rintro ⟨pre, d, post, rfl, short, beyond⟩
    refine parse_eq_error_of_step earlier texts spelled' (readRankStep_run_of_error ?_)
    rw [List.append_assoc, List.cons_append]
    exact readRank_overrun _ (fun x member => chars x (by simp [member])) (chars d (by simp))
      (by simpa using short) (by simpa using beyond) _ _
  have filled : ∀ c, FillsBefore t c → parse text = .error (.unexpectedChar c) := by
    intro c fills
    by_cases last : good.length = 7
    · exact parse_eq_error_of_last_fillsBefore last texts chars fills spelled
    · exact parse_eq_error_of_step earlier texts spelled'
        (readRankStep_run_fillsBefore (by omega) chars fills)
  have fallsShort : (squares t).length < 8 →
      parse text = .error (if rest = [] then .unexpectedEnd else .unknownPiece) := fun short =>
    parse_eq_error_of_step earlier texts spelled'
      (readRankStep_run_of_error (readRank_short _ chars (by simpa using short) ends _))
  refine ⟨⟨fun refused => ?_, overrun⟩, filled, fallsShort⟩
  rcases overruns_or_fillsBefore_or_short total with overruns | ⟨c, fills⟩ | short
  · exact overruns
  · rw [filled c fills] at refused
    cases refused
  · rw [fallsShort short] at refused
    split at refused <;> cases refused

/-- A rank of seven empty squares is refused at the `/` after it, as no piece. -/
theorem parse_error_of_rank_not_eight_sevenEmpty :
    parse "7/8/8/8/8/8/8/8 w - - 0 1" = .error .unknownPiece :=
  (@parse_error_of_rank_not_eight "7/8/8/8/8/8/8/8 w - - 0 1" [] ['7'] "/8/8/8/8/8/8/8 w - - 0 1".toList
    (by decide) (by simp) (by simp [RankChar]) (by decide) (by simp)
    (by simp [Text.trimBlank, Text.isBlank])).2.2 (by decide)

end Fen

end Chess
