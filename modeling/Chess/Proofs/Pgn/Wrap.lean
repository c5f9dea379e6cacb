import Chess.Proofs.Pgn.Layout
import Chess.Proofs.Notation.ReadBack
import Chess.Proofs.History.Reachable

namespace Chess

namespace Pgn

/-! The width of movetext lines. Laying tokens out measures each line as it goes: a token that
comes after a space, or first on its line, ends by column 79, and a line is broken only before a
token that would end past column 79 after a space. A token glued after `(`, and every `)`, is
put on its line with no such test, so there a line may run past column 79. -/

def lastLineWidth (cs : List Char) : Nat := (cs.reverse.takeWhile (· ≠ '\n')).length

@[simp] theorem lastLineWidth_append_newline (cs : List Char) :
    lastLineWidth (cs ++ ['\n']) = 0 := by
  simp [lastLineWidth]

theorem lastLineWidth_append {cs xs : List Char} (unbroken : '\n' ∉ xs) :
    lastLineWidth (cs ++ xs) = lastLineWidth cs + xs.length := by
  have kept : ∀ c ∈ xs.reverse, decide (c ≠ '\n') = true := fun c member => by
    have own : c ∈ xs := List.mem_reverse.mp member
    simpa using fun same : c = '\n' => unbroken (same ▸ own)
  simp only [lastLineWidth, List.reverse_append, List.takeWhile_append_of_pos kept,
    List.length_append, List.length_reverse]
  omega

/-- The characters `cs` lay the tokens `ts` out after the text `done`, whose last token is
`prev`, within the width: each token after the gap its neighbour allows; a token after a space
or a line break ends by column 79; and a line break stands only where the token after it would
end past column 79 after a space. -/
inductive Wrapped : List Char → String → List String → List Char → Prop
  | nil (done : List Char) (prev : String) : Wrapped done prev [] []
  | cons {done : List Char} {prev t : String} {ts : List String} {sep cs : List Char}
      (gap : Gap prev t sep) (fits : sep ≠ [] → lastLineWidth (done ++ sep ++ t.toList) ≤ 79)
      (needed : sep = ['\n'] → 79 < lastLineWidth done + 1 + t.length)
      (rest : Wrapped (done ++ sep ++ t.toList) t ts cs) :
      Wrapped done prev (t :: ts) (sep ++ t.toList ++ cs)

def Token (t : String) : Prop := t ≠ "" ∧ ∀ c ∈ t.toList, Text.Printable c

theorem Token.newline_not_mem {t : String} (token : Token t) : '\n' ∉ t.toList :=
  fun member => by simpa using (token.2 '\n' member).1

theorem Token.utf8ByteSize {t : String} (token : Token t) : t.utf8ByteSize = t.length := by
  have bytes := String.utf8ByteSize_ofList t.toList
  rw [String.ofList_toList] at bytes
  rw [bytes, Text.utf8Len_printable token.2, String.length_toList]

theorem Token.length_pos {t : String} (token : Token t) : 0 < t.length := by
  have nonempty : t.toList ≠ [] := fun empty => token.1 (String.toList_eq_nil_iff.mp empty)
  rw [← String.length_toList]
  exact List.length_pos_iff.mpr nonempty

/-! ### One token -/

/-- One step of the layout after a token `prev`, on a begun line whose width the layout counts:
the token comes after the gap its neighbour allows, within the width, and the layout counts the
width of the line it ends. -/
theorem layoutStep_wraps {prev t : String} (token : Token t) (short : t.length ≤ 79) (out : String)
    (begun : 0 < lastLineWidth out.toList) :
    ∃ sep out', Gap prev t sep ∧ out'.toList = out.toList ++ sep ++ t.toList ∧
      (sep ≠ [] → lastLineWidth out'.toList ≤ 79) ∧
      (sep = ['\n'] → 79 < lastLineWidth out.toList + 1 + t.length) ∧
      layoutStep (out, lastLineWidth out.toList, decide (prev = "(")) t =
        (out', lastLineWidth out'.toList, decide (t = "(")) := by
  have bytes := token.utf8ByteSize
  have unbroken := token.newline_not_mem
  rcases layoutStep_cases out begun (decide (prev = "(")) t with
    ⟨glued, step⟩ | ⟨spaced, fits, step⟩ | ⟨spaced, full, step⟩
  · refine ⟨[], out ++ t, .inl ⟨by simpa using glued, rfl⟩, by simp, nofun, nofun, ?_⟩
    rw [step, String.toList_append, lastLineWidth_append unbroken, bytes, String.length_toList]
  · have width : lastLineWidth (out.toList ++ [' '] ++ t.toList) =
        lastLineWidth out.toList + 1 + t.length := by
      rw [lastLineWidth_append unbroken, lastLineWidth_append (by simp), String.length_toList]
      rfl
    refine ⟨[' '], out.push ' ' ++ t, .inr ⟨by simpa using spaced, .inl rfl⟩,
      by simp [String.toList_append], fun _ => ?_, nofun, ?_⟩
    · rw [String.toList_append, String.toList_push, width]
      omega
    · rw [step, String.toList_append, String.toList_push, width, bytes]
  · have width : lastLineWidth (out.toList ++ ['\n'] ++ t.toList) = t.length := by
      rw [lastLineWidth_append unbroken, lastLineWidth_append_newline, String.length_toList]
      simp
    refine ⟨['\n'], out.push '\n' ++ t, .inr ⟨by simpa using spaced, .inr rfl⟩,
      by simp [String.toList_append], fun _ => ?_, fun _ => by omega, ?_⟩
    · rw [String.toList_append, String.toList_push, width]
      exact short
    · rw [step, String.toList_append, String.toList_push, width, bytes]

theorem foldl_layoutStep_wraps (prev : String) (ts : List String)
    (tokens : ∀ t ∈ ts, Token t ∧ t.length ≤ 79) (out : String)
    (begun : 0 < lastLineWidth out.toList) :
    ∃ cs, Wrapped out.toList prev ts cs ∧
      (ts.foldl layoutStep (out, lastLineWidth out.toList, decide (prev = "("))).1.toList =
        out.toList ++ cs := by
  induction ts generalizing prev out with
  | nil => exact ⟨[], .nil _ prev, by simp⟩
  | cons t rest ih =>
    obtain ⟨token, short⟩ := tokens t List.mem_cons_self
    obtain ⟨sep, out', gap, text, fits, needed, step⟩ :=
      @layoutStep_wraps prev t token short out begun
    have begun' : 0 < lastLineWidth out'.toList := by
      rw [text, lastLineWidth_append token.newline_not_mem, String.length_toList]
      have := token.length_pos
      omega
    obtain ⟨cs, wrapped, laid⟩ :=
      ih t (fun x member => tokens x (List.mem_cons_of_mem t member)) out' begun'
    refine ⟨sep ++ t.toList ++ cs, .cons gap (text ▸ fits) needed (text ▸ wrapped), ?_⟩
    rw [List.foldl_cons, step, laid, text]
    simp

theorem layout_wraps (t : String) (ts : List String) (tokens : ∀ x ∈ t :: ts, Token x ∧ x.length ≤ 79) :
    ∃ cs, Wrapped t.toList t ts cs ∧ (layout (t :: ts)).toList = t.toList ++ cs ++ ['\n'] := by
  obtain ⟨token, -⟩ := tokens t List.mem_cons_self
  have width : lastLineWidth t.toList = t.utf8ByteSize := by
    rw [token.utf8ByteSize, ← String.length_toList, ← List.nil_append t.toList,
      lastLineWidth_append token.newline_not_mem]
    simp [lastLineWidth]
  have first : layoutStep ("", 0, false) t = (t, lastLineWidth t.toList, decide (t = "(")) := by
    rw [width]
    simp [layoutStep]
  obtain ⟨cs, wrapped, laid⟩ := foldl_layoutStep_wraps t ts
    (fun x member => tokens x (List.mem_cons_of_mem _ member)) t
    (by rw [width, token.utf8ByteSize]; exact token.length_pos)
  refine ⟨cs, wrapped, ?_⟩
  rw [layout, List.foldl_cons, first, String.toList_append, laid]
  simp

/-! ### The tokens of a game -/

theorem printable_of_isDigit {c : Char} (digit : c.isDigit = true) : Text.Printable c := by
  have bounds := Fen.toNat_bounds_of_isDigit digit
  exact ⟨by simp only [Char.le_def, UInt32.le_iff_toNat_le]; exact (show 33 ≤ c.toNat by omega),
    by simp only [Char.le_def, UInt32.le_iff_toNat_le]; exact (show c.toNat ≤ 126 by omega)⟩

theorem token_open : Token "(" := ⟨by decide, by simp [Text.Printable]⟩

theorem token_close : Token ")" := ⟨by decide, by simp [Text.Printable]⟩

theorem token_number (n : UInt32) (dots : String) (nonempty : dots ≠ "") (dotted : ∀ c ∈ dots.toList, c = '.') :
    Token (toString n ++ dots) := by
  refine ⟨fun empty => nonempty ?_, fun c member => ?_⟩
  · have := congrArg String.toList empty
    simp only [String.toList_append, String.toList_empty, List.append_eq_nil_iff] at this
    exact String.toList_eq_nil_iff.mp this.2
  · rw [String.toList_append, Fen.toList_toString_uInt32, List.mem_append] at member
    rcases member with digit | dot
    · exact printable_of_isDigit (Fen.isDigit_of_mem_toDigits digit)
    · rw [dotted c dot]
      decide


theorem token_of_toList {t : String} {cs : List Char} (text : t.toList = cs) (nonempty : cs ≠ [])
    (printable : ∀ c ∈ cs, Text.Printable c) : Token t :=
  ⟨fun empty => nonempty (by rw [← text, empty]; rfl), text ▸ printable⟩

theorem printable_sanLetter (k : PieceKind) : ∀ c ∈ k.sanLetter?, Text.Printable c := by
  cases k <;> simp [PieceKind.sanLetter?] <;> decide

theorem printable_mark {mark : List Char} (marked : San.IsMark mark) : ∀ c ∈ mark, Text.Printable c := by
  rcases marked with rfl | rfl | rfl <;> simp <;> decide

theorem printable_moveText {letter : Option Char} (lettered : ∀ c ∈ letter, Text.Printable c)
    (file : Option File) (rank : Option Rank) (capture : Bool) (t : Square) {promotion : Option Char}
    (promoted : ∀ c ∈ promotion, Text.Printable c) {mark : List Char} (marked : San.IsMark mark) :
    ∀ c ∈ San.moveText letter file rank capture t promotion mark, Text.Printable c := by
  intro c member
  simp only [San.moveText, San.promotionText, San.captureText, List.mem_append, List.mem_cons,
    Option.mem_toList, Option.map_eq_some_iff] at member
  rcases member with ((((found | ⟨f, -, rfl⟩) | ⟨r, -, rfl⟩) | x) | rfl | rfl | promo | marks)
  · exact lettered c found
  · exact (File.letter_printable f).1
  · exact (Rank.digit_printable r).1
  · have capture : c = 'x' := by cases capture <;> simp_all
    subst capture
    decide
  · exact (File.letter_printable t.file).1
  · exact (Rank.digit_printable t.rank).1
  · rcases promotion with _ | p
    · simp at promo
    · simp only [List.mem_cons, List.not_mem_nil, or_false] at promo
      rcases promo with rfl | rfl
      · decide
      · exact promoted c rfl
  · exact printable_mark marked c marks

theorem Move.san_token (m : Move) : Token m.san := by
  cases castle : m.castle with
  | some side =>
    obtain ⟨mark, marked, text⟩ := Move.san_toList_of_castle castle
    refine token_of_toList text (by cases side <;> simp [CastleSide.san]) fun c member => ?_
    rcases List.mem_append.mp member with symbol | marks
    · have printable : ∀ c ∈ side.san.toList, Text.Printable c := by
        cases side <;> simp [CastleSide.san] <;> decide
      exact printable c symbol
    · exact printable_mark marked c marks
  | none =>
    by_cases pawn : m.kind = .pawn
    · obtain ⟨mark, marked, text⟩ := Move.san_toList_pawn castle pawn
      refine token_of_toList text (by simp [San.moveText]) ?_
      exact printable_moveText (by simp) _ _ _ _
        (fun c found => by
          obtain ⟨k, -, letter⟩ := Option.bind_eq_some_iff.mp found
          exact printable_sanLetter k c letter) marked
    · obtain ⟨mark, marked, text⟩ := Move.san_toList_piece castle pawn
      exact token_of_toList text (by simp [San.moveText])
        (printable_moveText (printable_sanLetter m.kind) _ _ _ _ (by simp) marked)


theorem token_of_mem_lineTokens (h : History) :
    ∀ (fuel : Nat) (o : Option NodeId) (numbered : Bool) (x : String),
      x ∈ h.lineTokens fuel o numbered → Token x
  | 0, _, _, x, member => by simp [History.lineTokens] at member
  | fuel + 1, none, _, x, member => by simp [History.lineTokens] at member
  | fuel + 1, some id, numbered, x, member => by
    rw [History.lineTokens] at member
    split at member
    · simp at member
    · rename_i m found
      simp only [List.mem_append, List.mem_flatMap, List.mem_cons] at member
      rcases member with ((label | rfl | nil) | ⟨a, -, (rfl | inner) | rfl | nil⟩) | later
      · generalize h.moveNumber (h.parent? id) = numbering at label
        obtain ⟨number, side⟩ := numbering
        split at label
        · simp only [List.mem_singleton] at label
          exact label ▸ token_number number "." (by decide) (by simp)
        · have labelled : x = toString number ++ "..." := by
            split at label
            · simpa using label
            · simp at label
          exact labelled ▸ token_number number "..." (by decide) (by simp)
      · exact Move.san_token m
      · simp at nil
      · exact token_open
      · exact token_of_mem_lineTokens h fuel (some a) true x inner
      · exact token_close
      · simp at nil
      · exact token_of_mem_lineTokens h fuel _ _ x later


theorem token_of_mem_gameTokens (g : PgnGame) :
    ∀ x ∈ g.history.movetextTokens ++ [resultToken g.result], Token x := by
  intro x member
  rcases List.mem_append.mp member with moves | last
  · exact token_of_mem_lineTokens g.history _ _ _ x moves
  · rw [List.mem_singleton.mp last]
    rcases g.result with _ | r
    · exact ⟨by decide, by simp [resultToken, Text.Printable]⟩
    · cases r <;> exact ⟨by decide, by simp [resultToken, GameResult.score, Text.Printable]⟩

end Pgn

namespace PgnGame

open Pgn

/-- The movetext that writing a game gives, after its tag pairs, which end a line: when each
of its tokens has at most 79 characters, they come in order, each after the gap its neighbour
allows (none after `(` or before `)`, otherwise one space or one line break); every token after
a space or a line break ends by column 79; and a line is broken only before a token that would
end past column 79 after a space. A token glued after `(`, and every `)`, is laid out with no
such test. -/
theorem write_wraps_movetext (g : PgnGame)
    (short : ∀ x ∈ g.history.movetextTokens ++ [resultToken g.result], x.length ≤ 79) :
    ∃ t ts tags cs, g.history.movetextTokens ++ [resultToken g.result] = t :: ts ∧
      g.write.toList = tags ++ t.toList ++ cs ++ ['\n'] ∧ (∀ c ∈ tags.getLast?, c = '\n') ∧
      Wrapped t.toList t ts cs := by
  have tokens : ∀ x ∈ g.history.movetextTokens ++ [resultToken g.result], Token x ∧ x.length ≤ 79 :=
    fun x member => ⟨token_of_mem_gameTokens g x member, short x member⟩
  cases listed : g.history.movetextTokens ++ [resultToken g.result] with
  | nil => simp at listed
  | cons t ts =>
    rw [listed] at tokens
    obtain ⟨cs, wrapped, laid⟩ := layout_wraps t ts tokens
    refine ⟨t, ts, (String.join (g.tags.toList.map tagLine) ++
      (if g.tags.isEmpty then "" else "\n")).toList, cs, rfl, ?_, ?_, wrapped⟩
    · simp only [write, listed, String.toList_append, laid, List.append_assoc]
    · by_cases empty : g.tags.isEmpty
      · have none : g.tags.toList = [] := by simpa using empty
        simp [empty, none]
      · simp [empty]

/-- The king's pawn with seven Black replies added as variations, by the library's calls: the
first line holds the replies, each numbered in its parentheses, up to column 79, and the line is
broken before White's move numbered again after them. -/
theorem write_wraps_movetext_replies :
    let move := fun (x : Nat × Nat) => History.Call.addMove (Square.ofNat x.1) (Square.ofNat x.2) none
    let replies := [(50, 34), (52, 44), (50, 42), (51, 35), (51, 43), (54, 46), (62, 45)]
    let calls := [(12, 28), (52, 36)].map move ++ (replies.map fun x => [.prev, move x]).flatten ++
      [.prev, .next, move (6, 21)]
    let g : PgnGame :=
      { tags := #[("Event", "Casual")]
        history := calls.foldl (fun h c => ((History.run c.act h).run #[]).1.2) (History.new Board.standard) }
    g.write = "[Event \"Casual\"]\n\n1. e4 e5 (1... c5) (1... e6) (1... c6) (1... d5) (1... d6) (1... g6) (1... Nf6)\n2. Nf3 *\n" ∧
      ∃ t ts tags cs, g.history.movetextTokens ++ [resultToken g.result] = t :: ts ∧
        g.write.toList = tags ++ t.toList ++ cs ++ ['\n'] ∧ (∀ c ∈ tags.getLast?, c = '\n') ∧
        Wrapped t.toList t ts cs := by
  intro move replies calls g
  have tokens : g.history.movetextTokens =
      ["1.", "e4", "e5", "(", "1...", "c5", ")", "(", "1...", "e6", ")", "(", "1...", "c6", ")", "(", "1...", "d5",
        ")", "(", "1...", "d6", ")", "(", "1...", "g6", ")", "(", "1...", "Nf6", ")", "2.", "Nf3"] := by
    decide +kernel
  have written : g.write = "[Event \"Casual\"]\n\n1. e4 e5 (1... c5) (1... e6) (1... c6) (1... d5) (1... d6) (1... g6) (1... Nf6)\n2. Nf3 *\n" := by
    rw [write, tokens]
    decide +kernel
  have short : ∀ x ∈ g.history.movetextTokens ++ [resultToken g.result], x.length ≤ 79 := by
    rw [tokens]
    decide +kernel
  exact ⟨written, write_wraps_movetext g short⟩

end PgnGame

end Chess
