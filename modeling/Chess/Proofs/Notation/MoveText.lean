import Chess.Notation.San
import Chess.Proofs.Notation.FenRoundTrip

namespace Chess

/-! Move texts read back. The move pattern tries its optional parts present before absent,
left to right, and keeps the first reading that matches the whole text: this is a search,
`San.readings`, through one function per part. A text in the form move writing gives (a piece
letter, the origin file or rank or both, `x` for a capture, the destination, a promotion after
`=`, a check or mate mark) reads as exactly those parts. Coordinate texts split into two
square names and an optional promotion letter. -/

theorem File.letter_facts (f : File) : 'a' ≤ f.letter ∧ f.letter ≤ 'h' ∧ '1' ≤ f.letter ∧
    '8' < f.letter ∧ f.letter ≠ 'x' ∧ "NBRQK".toList.contains f.letter = false ∧
    "NBRQ".toList.contains f.letter = false := by
  obtain ⟨⟨i, bound⟩⟩ := f
  revert i
  decide

theorem Rank.digit_facts (r : Rank) : ¬('a' ≤ r.digit) ∧ '1' ≤ r.digit ∧ r.digit ≤ '8' ∧
    r.digit ≠ 'x' ∧ "NBRQK".toList.contains r.digit = false ∧
    "NBRQ".toList.contains r.digit = false := by
  obtain ⟨⟨i, bound⟩⟩ := r
  revert i
  decide

def Text.Printable (c : Char) : Prop := '!' ≤ c ∧ c ≤ '~'

instance : DecidablePred Text.Printable := fun c => inferInstanceAs (Decidable ('!' ≤ c ∧ c ≤ '~'))

theorem Text.Printable.ascii {c : Char} (printable : Text.Printable c) :
    Text.isBlank c = false ∧ c.toNat < 128 ∧ c.utf8Size = 1 := by
  have lo : 33 ≤ c.toNat := printable.1
  have hi : c.toNat ≤ 126 := printable.2
  refine ⟨?_, by omega, ?_⟩
  · unfold Text.isBlank
    simp only [Bool.or_eq_false_iff, Bool.and_eq_false_iff, decide_eq_false_iff_not,
      beq_eq_false_iff_ne, ne_eq]
    omega
  · have small : c.val ≤ 127 := by
      rw [UInt32.le_iff_toNat_le]
      exact Nat.le_trans hi (by decide)
    simp [Char.utf8Size, small]

theorem Text.trimBlank_printable {cs : List Char} (printable : ∀ c ∈ cs, Text.Printable c) :
    Text.trimBlank (String.ofList cs) = String.ofList cs :=
  Fen.trimBlank_ofList (fun c found => (printable c (List.mem_of_mem_head? found)).ascii.1)
    (fun c found => (printable c (List.mem_of_getLast? found)).ascii.1)

theorem Text.utf8Len_printable {cs : List Char} (printable : ∀ c ∈ cs, Text.Printable c) :
    String.utf8Len cs = cs.length := by
  induction cs with
  | nil => rfl
  | cons c rest ih =>
    rw [String.utf8Len_cons, List.length_cons,
      ih fun d member => printable d (List.mem_cons_of_mem c member),
      (printable c List.mem_cons_self).ascii.2.2]

theorem File.letter_printable (f : File) : Text.Printable f.letter ∧ f.letter ≠ 'O' ∧ f.letter ≠ '0' := by
  obtain ⟨⟨i, bound⟩⟩ := f
  revert i
  decide

theorem Rank.digit_printable (r : Rank) : Text.Printable r.digit ∧ r.digit ≠ 'O' ∧ r.digit ≠ '0' := by
  obtain ⟨⟨i, bound⟩⟩ := r
  revert i
  decide

theorem Square.ofName?_name (s : Square) : Square.ofName? s.name = some s := by
  unfold Square.ofName? Square.name
  rw [String.toList_ofList]
  simp only [Rank.ofChar?_digit, File.ofChar?_letter]
  exact congrArg some (Square.make_file_rank s)

namespace San

def IsMark (cs : List Char) : Prop := cs = [] ∨ cs = ['+'] ∨ cs = ['#']

/-- The destination and what follows it: a file letter and a rank digit, then the promotion
part and the marks. -/
def readTarget (letter file rank : Option Char) (capture : Bool) : List Char → Option SanForm
  | f :: r :: rest =>
    if 'a' ≤ f ∧ f ≤ 'h' ∧ '1' ≤ r ∧ r ≤ '8' then
      (promotionPart rest).findSome? fun (promotion, marks) =>
        if isSuffix marks then some (.piece letter file rank capture (f, r) promotion) else none
    else none
  | _ => none

def readCapture (letter file rank : Option Char) (cs : List Char) : Option SanForm :=
  (optionalChar (· = 'x') cs).findSome? fun (x, rest) => readTarget letter file rank x.isSome rest

def readRank (letter file : Option Char) (cs : List Char) : Option SanForm :=
  (optionalChar (fun c => '1' ≤ c ∧ c ≤ '8') cs).findSome? fun (rank, rest) =>
    readCapture letter file rank rest

def readFile (letter : Option Char) (cs : List Char) : Option SanForm :=
  (optionalChar (fun c => 'a' ≤ c ∧ c ≤ 'h') cs).findSome? fun (file, rest) =>
    readRank letter file rest

def readings (cs : List Char) : Option SanForm :=
  (optionalChar (fun c => "NBRQK".toList.contains c) cs).findSome? fun (letter, rest) =>
    readFile letter rest

theorem forIn_firstSome {α β : Type} (l : List α) (g : α → Option β)
    (body : α → Option (Option β) × Unit → Id (ForInStep (Option (Option β) × Unit)))
    (step : ∀ x s, body x s = (match g x with
      | some r => ForInStep.done (some (some r), ())
      | none => ForInStep.yield (none, ()))) :
    forIn l (none, ()) body = ((l.findSome? g).map some, ()) := by
  induction l with
  | nil => rfl
  | cons x rest ih =>
    rw [List.forIn_cons, step, List.findSome?_cons]
    cases g x with
    | none => exact ih
    | some r => rfl

theorem pieceForm?_eq_readings (cs : List Char) : pieceForm? cs = readings cs := by
  unfold pieceForm?
  rw [forIn_firstSome _ (fun p => readFile p.1 p.2) _ fun ⟨letter, r1⟩ _ => by
    dsimp only
    rw [forIn_firstSome _ (fun p => readRank letter p.1 p.2) _ fun ⟨file, r2⟩ _ => by
      dsimp only
      rw [forIn_firstSome _ (fun p => readCapture letter file p.1 p.2) _ fun ⟨rank, r3⟩ _ => by
        dsimp only
        rw [forIn_firstSome _ (fun p => readTarget letter file rank p.1.isSome p.2) _
          fun ⟨x, r4⟩ _ => by
            dsimp only
            rcases r4 with _ | ⟨f, _ | ⟨r, r5⟩⟩
            · rfl
            · rfl
            by_cases square : 'a' ≤ f ∧ f ≤ 'h' ∧ '1' ≤ r ∧ r ≤ '8'
            · simp only [readTarget, if_pos square]
              rw [forIn_firstSome _ (fun p =>
                if isSuffix p.2 then some (.piece letter file rank x.isSome (f, r) p.1) else none)
                _ fun ⟨promotion, r6⟩ _ => by
                  dsimp only
                  split <;> rfl]
              cases List.findSome? _ _ <;> rfl
            · simp only [readTarget, if_neg square]
              rfl]
        unfold readCapture
        cases List.findSome? _ _ <;> rfl]
      unfold readRank
      cases List.findSome? _ _ <;> rfl]
    unfold readFile
    cases List.findSome? _ _ <;> rfl]
  unfold readings
  cases List.findSome? _ _ <;> rfl

section Search

variable {β : Type} (ok : Char → Bool) (F : Option Char × List Char → Option β)

theorem findSome?_optionalChar_of_ok {c : Char} (rest : List Char) (accepted : ok c = true) :
    (optionalChar ok (c :: rest)).findSome? F = (F (some c, rest)).or (F (none, c :: rest)) := by
  simp only [optionalChar, accepted, if_true, List.findSome?_cons, List.findSome?_nil]
  cases F (some c, rest) <;> cases F (none, c :: rest) <;> rfl

theorem findSome?_optionalChar_of_not {c : Char} (rest : List Char) (refused : ok c = false) :
    (optionalChar ok (c :: rest)).findSome? F = F (none, c :: rest) := by
  simp only [optionalChar, refused, Bool.false_eq_true, if_false, List.findSome?_cons,
    List.findSome?_nil]
  cases F (none, c :: rest) <;> rfl

theorem findSome?_optionalChar_nil : (optionalChar ok []).findSome? F = F (none, []) := by
  simp only [optionalChar, List.findSome?_cons, List.findSome?_nil]
  cases F (none, []) <;> rfl

end Search

def promotionText : Option Char → List Char
  | some c => ['=', c]
  | none => []

def captureText (capture : Bool) : List Char := if capture then ['x'] else []

theorem findSome?_promotionPart {promotion : Option Char}
    (promoted : promotion.all fun c => "NBRQ".toList.contains c) {mark : List Char}
    (marked : IsMark mark) (G : Option Char → SanForm) :
    (promotionPart (promotionText promotion ++ mark)).findSome?
        (fun (p, marks) => if isSuffix marks then some (G p) else none) = some (G promotion) := by
  cases promotion with
  | none =>
    rcases marked with rfl | rfl | rfl <;> rfl
  | some c =>
    simp only [Option.all_some] at promoted
    rcases marked with rfl | rfl | rfl <;>
      simp only [promotionText, List.cons_append, List.nil_append, promotionPart, promoted,
        if_true, List.cons_append, List.findSome?_cons] <;> rfl

theorem readTarget_square (letter file rank : Option Char) (capture : Bool) (t : Square)
    {promotion : Option Char} (promoted : promotion.all fun c => "NBRQ".toList.contains c)
    {mark : List Char} (marked : IsMark mark) :
    readTarget letter file rank capture
        (t.file.letter :: t.rank.digit :: (promotionText promotion ++ mark)) =
      some (.piece letter file rank capture (t.file.letter, t.rank.digit) promotion) := by
  obtain ⟨f1, f2, -⟩ := File.letter_facts t.file
  obtain ⟨-, d2, d3, -⟩ := Rank.digit_facts t.rank
  simp only [readTarget, f1, f2, d2, d3, and_self, if_true]
  exact findSome?_promotionPart promoted marked fun p => .piece letter file rank capture _ p

theorem readTarget_of_not_file (letter file rank : Option Char) (capture : Bool) {c : Char}
    (rest : List Char) (notFile : ¬('a' ≤ c ∧ c ≤ 'h')) :
    readTarget letter file rank capture (c :: rest) = none := by
  cases rest with
  | nil => rfl
  | cons r rest =>
    simp only [readTarget]
    rw [if_neg fun square => notFile ⟨square.1, square.2.1⟩]

theorem readCapture_promotionText (letter file rank : Option Char) (promotion : Option Char)
    {mark : List Char} (marked : IsMark mark) :
    readCapture letter file rank (promotionText promotion ++ mark) = none := by
  cases promotion with
  | none => rcases marked with rfl | rfl | rfl <;> rfl
  | some c =>
    simp only [readCapture, promotionText, List.cons_append]
    rw [findSome?_optionalChar_of_not _ _ _ (by decide)]
    exact readTarget_of_not_file _ _ _ _ _ (by decide)

theorem readCapture_mark (letter file rank : Option Char) (capture : Bool) (t : Square)
    {promotion : Option Char} (promoted : promotion.all fun c => "NBRQ".toList.contains c)
    {mark : List Char} (marked : IsMark mark) :
    readCapture letter file rank
        (captureText capture ++ t.file.letter :: t.rank.digit :: (promotionText promotion ++ mark)) =
      some (.piece letter file rank capture (t.file.letter, t.rank.digit) promotion) := by
  obtain ⟨-, -, -, -, notX, -⟩ := File.letter_facts t.file
  cases capture with
  | true =>
    simp only [readCapture, captureText, if_true, List.cons_append, List.nil_append]
    rw [findSome?_optionalChar_of_ok _ _ _ (by decide)]
    simp only [Option.isSome_some]
    rw [readTarget_square _ _ _ _ _ promoted marked, Option.some_or]
  | false =>
    simp only [readCapture, captureText, Bool.false_eq_true, if_false, List.nil_append]
    rw [findSome?_optionalChar_of_not _ _ _ (by simpa using notX)]
    exact readTarget_square _ _ _ _ _ promoted marked

theorem readRank_mark (letter file : Option Char) (rank : Option Rank) (capture : Bool) (t : Square)
    {promotion : Option Char} (promoted : promotion.all fun c => "NBRQ".toList.contains c)
    {mark : List Char} (marked : IsMark mark) :
    readRank letter file ((rank.map Rank.digit).toList ++ captureText capture ++
        t.file.letter :: t.rank.digit :: (promotionText promotion ++ mark)) =
      some (.piece letter file (rank.map Rank.digit) capture (t.file.letter, t.rank.digit)
        promotion) := by
  cases rank with
  | some r =>
    obtain ⟨-, d2, d3, -⟩ := Rank.digit_facts r
    simp only [readRank, Option.map_some, Option.toList_some, List.cons_append]
    rw [findSome?_optionalChar_of_ok _ _ _ (by simp [d2, d3])]
    simp only [List.nil_append]
    rw [readCapture_mark _ _ _ _ _ promoted marked, Option.some_or]
  | none =>
    obtain ⟨-, -, -, f4, -⟩ := File.letter_facts t.file
    simp only [readRank, Option.map_none, Option.toList_none, List.nil_append]
    have notDigit : ∀ c ∈ (captureText capture ++ t.file.letter :: t.rank.digit ::
        (promotionText promotion ++ mark)).head?, ¬('1' ≤ c ∧ c ≤ '8') := by
      cases capture <;> simp [captureText, f4]
    generalize text : captureText capture ++ t.file.letter :: t.rank.digit ::
      (promotionText promotion ++ mark) = cs at notDigit
    rw [← readCapture_mark letter file none capture t promoted marked, text]
    cases cs with
    | nil => exact findSome?_optionalChar_nil _ _
    | cons c rest =>
      rw [findSome?_optionalChar_of_not _ _ _ (by simpa using notDigit c rfl)]

theorem readFile_mark (letter : Option Char) (file : Option File) (rank : Option Rank)
    (capture : Bool) (t : Square) {promotion : Option Char}
    (promoted : promotion.all fun c => "NBRQ".toList.contains c) {mark : List Char}
    (marked : IsMark mark) :
    readFile letter ((file.map File.letter).toList ++ (rank.map Rank.digit).toList ++
        captureText capture ++ t.file.letter :: t.rank.digit :: (promotionText promotion ++ mark)) =
      some (.piece letter (file.map File.letter) (rank.map Rank.digit) capture
        (t.file.letter, t.rank.digit) promotion) := by
  have tail := readRank_mark letter none rank capture t promoted marked
  cases file with
  | some f =>
    obtain ⟨f1, f2, -⟩ := File.letter_facts f
    simp only [readFile, Option.map_some, Option.toList_some, List.cons_append, List.nil_append]
    rw [findSome?_optionalChar_of_ok _ _ _ (by simp [f1, f2])]
    simp only
    rw [readRank_mark _ _ _ _ _ promoted marked, Option.some_or]
  | none =>
    simp only [readFile, Option.map_none, Option.toList_none, List.nil_append] at tail ⊢
    obtain ⟨t1, t2, -, t4, tx, -⟩ := File.letter_facts t.file
    obtain ⟨d1, d2, d3, -⟩ := Rank.digit_facts t.rank
    rcases rank with _ | r
    · cases capture with
      | true =>
        simp only [Option.map_none, Option.toList_none, List.nil_append, captureText, if_true,
          List.cons_append] at tail ⊢
        rw [findSome?_optionalChar_of_not _ _ _ (by decide), tail]
      | false =>
        simp only [Option.map_none, Option.toList_none, List.nil_append, captureText,
          Bool.false_eq_true, if_false] at tail ⊢
        rw [findSome?_optionalChar_of_ok _ _ _ (by simp [t1, t2])]
        simp only
        rw [tail, readRank, findSome?_optionalChar_of_ok _ _ _ (by simp [d2, d3])]
        simp only
        rw [readCapture_promotionText _ _ _ _ marked, readCapture,
          findSome?_optionalChar_of_not _ _ _ (by simpa using Rank.digit_facts t.rank |>.2.2.2.1)]
        dsimp only
        rw [readTarget_of_not_file _ _ _ _ _ (fun square => d1 square.1)]
        rfl
    · obtain ⟨r1, -⟩ := Rank.digit_facts r
      simp only [Option.map_some, Option.toList_some, List.cons_append, List.nil_append] at tail ⊢
      rw [findSome?_optionalChar_of_not _ _ _ (by simp [r1]), tail]

/-- The characters of a piece move's text: the piece letter, the origin file and rank it names,
`x` for a capture, the destination, `=` and the promotion letter, and a check or mate mark. -/
def moveText (letter : Option Char) (file : Option File) (rank : Option Rank) (capture : Bool)
    (t : Square) (promotion : Option Char) (mark : List Char) : List Char :=
  letter.toList ++ (file.map File.letter).toList ++ (rank.map Rank.digit).toList ++
    captureText capture ++ t.file.letter :: t.rank.digit :: (promotionText promotion ++ mark)

theorem readings_moveText {letter : Option Char}
    (lettered : letter.all fun c => "NBRQK".toList.contains c) (file : Option File)
    (rank : Option Rank) (capture : Bool) (t : Square) {promotion : Option Char}
    (promoted : promotion.all fun c => "NBRQ".toList.contains c) {mark : List Char}
    (marked : IsMark mark) :
    readings (moveText letter file rank capture t promotion mark) =
      some (.piece letter (file.map File.letter) (rank.map Rank.digit) capture
        (t.file.letter, t.rank.digit) promotion) := by
  unfold moveText
  have rest := readFile_mark letter file rank capture t promoted marked
  cases letter with
  | some c =>
    simp only [Option.all_some] at lettered
    simp only [readings, Option.toList_some, List.cons_append, List.nil_append, List.append_assoc]
      at rest ⊢
    rw [findSome?_optionalChar_of_ok _ _ _ lettered]
    simp only
    rw [rest, Option.some_or]
  | none =>
    have head : ∀ c ∈ ((file.map File.letter).toList ++ (rank.map Rank.digit).toList ++
        captureText capture ++ t.file.letter :: t.rank.digit ::
          (promotionText promotion ++ mark)).head?, "NBRQK".toList.contains c = false := by
      intro c found
      rcases file with _ | f
      · rcases rank with _ | r
        · cases capture
          · simpa [captureText, ← Option.some.inj found] using (File.letter_facts t.file).2.2.2.2.2.1
          · simp [captureText] at found
            rw [← found]
            decide
        · simpa [← Option.some.inj (by simpa using found)] using (Rank.digit_facts r).2.2.2.2.1
      · simpa [← Option.some.inj (by simpa using found)] using (File.letter_facts f).2.2.2.2.2.1
    simp only [readings, Option.toList_none, List.nil_append] at rest head ⊢
    generalize text : (file.map File.letter).toList ++ (rank.map Rank.digit).toList ++
      captureText capture ++ t.file.letter :: t.rank.digit :: (promotionText promotion ++ mark) =
        cs at rest head
    cases cs with
    | nil => simp at text
    | cons c more =>
      rw [findSome?_optionalChar_of_not _ _ _ (head c rfl)]
      exact rest

theorem form?_of_head {cs : List Char} (head : ∀ c ∈ cs.head?, c ≠ 'O' ∧ c ≠ '0') :
    form? (String.ofList cs) = readings cs := by
  unfold form?
  rw [String.toList_ofList, ← pieceForm?_eq_readings]
  cases cs with
  | nil => rfl
  | cons c rest =>
    obtain ⟨notO, notZero⟩ := head c rfl
    simp [Ne.symm notO, Ne.symm notZero]

variable {letter : Option Char} {file : Option File} {rank : Option Rank} {capture : Bool}
  {t : Square} {promotion : Option Char} {mark : List Char}

theorem letter_chars {c : Char} (found : "NBRQK".toList.contains c = true) :
    Text.Printable c ∧ c ≠ 'O' ∧ c ≠ '0' := by
  have letter : c = 'N' ∨ c = 'B' ∨ c = 'R' ∨ c = 'Q' ∨ c = 'K' := by simpa using found
  rcases letter with rfl | rfl | rfl | rfl | rfl <;> decide

theorem moveText_chars (lettered : letter.all fun c => "NBRQK".toList.contains c)
    (promoted : promotion.all fun c => "NBRQ".toList.contains c) (marked : IsMark mark) :
    ∀ c ∈ moveText letter file rank capture t promotion mark,
      Text.Printable c ∧ c ≠ 'O' ∧ c ≠ '0' := by
  intro c member
  simp only [moveText, promotionText, captureText, List.mem_append, List.mem_cons,
    Option.mem_toList, Option.map_eq_some_iff] at member
  rcases member with ((((found | ⟨f, -, rfl⟩) | ⟨r, -, rfl⟩) | x) | rfl | rfl | promo | marks)
  · rcases letter with _ | l
    · cases found
    · cases found
      exact letter_chars (by simpa using lettered)
  · exact File.letter_printable f
  · exact Rank.digit_printable r
  · have capture : c = 'x' := by cases capture <;> simp_all
    subst capture
    decide
  · exact File.letter_printable t.file
  · exact Rank.digit_printable t.rank
  · rcases promotion with _ | p
    · simp at promo
    · simp only [List.mem_cons, List.not_mem_nil, or_false] at promo
      rcases promo with rfl | rfl
      · decide
      · have letter : c = 'N' ∨ c = 'B' ∨ c = 'R' ∨ c = 'Q' := by simpa using promoted
        exact letter_chars (by rcases letter with rfl | rfl | rfl | rfl <;> decide)
  · rcases marked with rfl | rfl | rfl <;> simp_all <;> decide

theorem form?_moveText (lettered : letter.all fun c => "NBRQK".toList.contains c)
    (promoted : promotion.all fun c => "NBRQ".toList.contains c) (marked : IsMark mark) :
    form? (Text.trimBlank (String.ofList (moveText letter file rank capture t promotion mark))) =
      some (.piece letter (file.map File.letter) (rank.map Rank.digit) capture
        (t.file.letter, t.rank.digit) promotion) := by
  have chars : ∀ c ∈ moveText letter file rank capture t promotion mark,
      Text.Printable c ∧ c ≠ 'O' ∧ c ≠ '0' :=
    moveText_chars lettered promoted marked
  rw [Text.trimBlank_printable fun c member => (chars c member).1,
    form?_of_head fun c found => (chars c (List.mem_of_mem_head? found)).2]
  exact readings_moveText lettered file rank capture t promoted marked

theorem form?_castle (side : CastleSide) (marked : IsMark mark) :
    form? (Text.trimBlank (String.ofList (side.san.toList ++ mark))) = some (.castle side) := by
  have printable : ∀ c ∈ side.san.toList ++ mark, Text.Printable c := by
    rcases marked with rfl | rfl | rfl <;> cases side <;> simp [CastleSide.san] <;> decide
  rw [Text.trimBlank_printable printable]
  unfold form?
  rw [String.toList_ofList]
  have short : "O-O".length = 3 := rfl
  have long : "O-O-O".length = 5 := rfl
  rcases marked with rfl | rfl | rfl <;> cases side <;> simp [CastleSide.san, isSuffix, short, long]

end San

end Chess
