import Chess.Proofs.Pgn.Layout
import Chess.Proofs.Pgn.Scan

namespace Chess

namespace Pgn

/-! Movetext read back from its layout. The tokens of movetext are move numbers, moves and
parentheses around variations; laid out with the gaps of a layout and followed by blanks and a
stop, the elements read over them give back their items, and end after the last token. A
rule's fuel is spent three levels deep per variation, so three times the number of tokens is
enough. -/

def NumberToken (t : String) : Prop :=
  ∃ digits dots, t.toList = digits ++ dots ∧ digits ≠ [] ∧ (∀ ch ∈ digits, isDigit ch = true) ∧
    dots ≠ [] ∧ ∀ ch ∈ dots, ch = '.'

def SanToken (t : String) : Prop :=
  ∃ ch more, t.toList = ch :: more ∧ isAlpha ch = true ∧ ∀ d ∈ more, sanChar d = true

/-- The tokens `ts` write the movetext items `items`: each move as a word, perhaps after its
number, and each variation between parentheses. -/
inductive Movetext : List PgnItem → List String → Prop
  | nil : Movetext [] []
  | move {text : String} {items : List PgnItem} {ts : List String} (word : SanToken text)
      (rest : Movetext items ts) : Movetext (.move text :: items) (text :: ts)
  | numbered {label text : String} {items : List PgnItem} {ts : List String}
      (numeral : NumberToken label) (rest : Movetext (.move text :: items) (text :: ts)) :
      Movetext (.move text :: items) (label :: text :: ts)
  | variation {inner items : List PgnItem} {ts₁ ts₂ : List String} (inside : Movetext inner ts₁)
      (rest : Movetext items ts₂) :
      Movetext (.variation inner :: items) ("(" :: (ts₁ ++ ")" :: ts₂))

theorem Movetext.items_eq_nil {items : List PgnItem} {ts : List String} (text : Movetext items ts) :
    items = [] ↔ ts = [] := by
  cases text <;> simp

theorem SanToken.ne_empty {t : String} (word : SanToken t) : t ≠ "" := by
  obtain ⟨ch, more, spelled, -⟩ := word
  rintro rfl
  simp at spelled

theorem NumberToken.ne_empty {t : String} (numeral : NumberToken t) : t ≠ "" := by
  obtain ⟨digits, dots, spelled, present, -⟩ := numeral
  rintro rfl
  simp [eq_comm] at spelled
  exact present spelled.1

theorem Movetext.ne_empty {items : List PgnItem} {ts : List String} (text : Movetext items ts) :
    ∀ t ∈ ts, t ≠ "" := by
  induction text with
  | nil => simp
  | move word _ ih => exact List.forall_mem_cons.mpr ⟨word.ne_empty, ih⟩
  | numbered numeral _ ih => exact List.forall_mem_cons.mpr ⟨numeral.ne_empty, ih⟩
  | variation _ _ ihInside ihRest =>
    intro t found
    simp only [List.mem_cons, List.mem_append] at found
    rcases found with rfl | inside | rfl | rest
    · decide
    · exact ihInside t inside
    · decide
    · exact ihRest t rest

theorem SanToken.ne_parens {t : String} (word : SanToken t) : t ≠ "(" ∧ t ≠ ")" := by
  obtain ⟨ch, more, spelled, lead, -⟩ := word
  have plain := isAlnum_plain (.inl lead)
  constructor <;> rintro rfl <;> simp at spelled <;> obtain ⟨rfl, -⟩ := spelled <;> simp at plain

theorem NumberToken.ne_parens {t : String} (numeral : NumberToken t) : t ≠ "(" ∧ t ≠ ")" := by
  obtain ⟨digits, dots, spelled, present, numeric, -⟩ := numeral
  obtain ⟨d, ds, rfl⟩ := List.exists_cons_of_ne_nil present
  have plain := isAlnum_plain (.inr (numeric d (List.mem_cons_self ..)))
  constructor <;> rintro rfl <;> simp at spelled <;> obtain ⟨rfl, -⟩ := spelled <;> simp at plain

theorem resultLength_of_digit {d e : Char} (r : List Char) (lead : isDigit d = true)
    (second : isDigit e = true ∨ e = '.') : resultLength (d :: e :: r) = none := by
  have notStar : '*' ≠ d := by
    rw [isDigit_iff] at lead
    simp only [ne_iff_toNat, Char.reduceToNat]
    omega
  have apart : '-' ≠ e ∧ '/' ≠ e := by
    rcases second with digit | rfl
    · rw [isDigit_iff] at digit
      simp only [ne_iff_toNat, Char.reduceToNat]
      omega
    · decide
  simp [resultLength, notStar, apart.1, apart.2]

theorem Movetext.last_ne_open {items : List PgnItem} {ts : List String} (text : Movetext items ts) :
    ∀ t ∈ ts.getLast?, t ≠ "(" := by
  induction text with
  | nil => simp
  | @move text _ ts word _ ih =>
    cases ts with
    | nil => exact fun t found => by cases found; exact (SanToken.ne_parens word).1
    | cons t' ts' => simpa using ih
  | numbered _ _ ih => simpa using ih
  | @variation _ _ ts₁ ts₂ _ _ _ ihRest =>
    rw [← List.cons_append, List.getLast?_append]
    cases ts₂ with
    | nil => simp
    | cons t' ts' =>
      intro t found
      apply ihRest t
      simpa using found

theorem Gap.blank {before after : String} {sep : List Char} (gap : Gap before after sep) :
    ∀ ch ∈ sep, isBlank ch = true := by
  rcases gap with ⟨-, rfl⟩ | ⟨-, rfl | rfl⟩ <;> simp [isBlank]

theorem Gap.close {before : String} {sep : List Char} (gap : Gap before ")" sep) : sep = [] := by
  rcases gap with ⟨-, empty⟩ | ⟨apart, -⟩
  · exact empty
  · exact absurd (.inr rfl) apart

theorem LaidAfter.nil_inv {prev : String} {cs : List Char} (laid : LaidAfter prev [] cs) : cs = [] := by
  cases laid
  rfl

theorem LaidAfter.append {prev : String} {xs ys : List String} {cs : List Char}
    (laid : LaidAfter prev (xs ++ ys) cs) :
    ∃ cs₁ cs₂, cs = cs₁ ++ cs₂ ∧ LaidAfter prev xs cs₁ ∧
      LaidAfter ((prev :: xs).getLast (List.cons_ne_nil _ _)) ys cs₂ := by
  induction xs generalizing prev cs with
  | nil => exact ⟨[], cs, rfl, .nil prev, laid⟩
  | cons x xs ih =>
    cases laid with
    | cons gap rest =>
      obtain ⟨cs₁, cs₂, rfl, first, second⟩ := ih rest
      exact ⟨_ ++ x.toList ++ cs₁, cs₂, by simp, .cons gap first, by simpa using second⟩

theorem LaidAfter.length_le {prev : String} {ts : List String} {cs : List Char} (laid : LaidAfter prev ts cs)
    (nonempty : ∀ t ∈ ts, t ≠ "") : ts.length ≤ cs.length := by
  induction laid with
  | nil => simp
  | @cons _ t _ sep _ _ _ ih =>
    have filled : t.toList ≠ [] := by simpa using nonempty t (List.mem_cons_self ..)
    have long : 0 < t.toList.length := List.length_pos_iff.mpr filled
    have rest := ih fun x found => nonempty x (List.mem_cons_of_mem _ found)
    simp only [List.length_cons, List.length_append]
    omega

theorem LaidAfter.head {prev : String} {ts : List String} {cs : List Char} (laid : LaidAfter prev ts cs)
    (notOpen : prev ≠ "(") : ∀ ch ∈ cs.head?, isBlank ch = true ∨ ch = ')' := by
  cases laid with
  | nil => simp
  | cons gap rest =>
    rcases gap with ⟨glued, rfl⟩ | ⟨-, rfl | rfl⟩
    · rw [glued.resolve_left notOpen]
      simp
    · simp [isBlank]
    · simp [isBlank]

theorem LaidAfter.head_append {prev : String} {ts : List String} {cs : List Char} (laid : LaidAfter prev ts cs)
    (notOpen : prev ≠ "(") {rest : List Char} (after : cs = [] → ∀ ch ∈ rest.head?, isBlank ch = true ∨ ch = ')') :
    ∀ ch ∈ (cs ++ rest).head?, isBlank ch = true ∨ ch = ')' := by
  cases cs with
  | nil => simpa using after rfl
  | cons c more =>
    intro ch found
    exact laid.head notOpen ch (by simpa using found)

theorem closing_ends {ch : Char} (closing : isBlank ch = true ∨ ch = ')') :
    sanChar ch = false ∧ isDigit ch = false ∧ ch ≠ '.' := by
  rcases closing with blank | rfl
  · simp only [isBlank, decide_eq_true_eq] at blank
    rcases blank with rfl | rfl | rfl | rfl <;> decide
  · decide

theorem resultLength_numeral {digits dots : List Char} (present : digits ≠ [])
    (numeral : ∀ ch ∈ digits, isDigit ch = true) (filled : dots ≠ []) (dotted : ∀ ch ∈ dots, ch = '.')
    (rest : List Char) : resultLength (digits ++ (dots ++ rest)) = none := by
  obtain ⟨d, ds, rfl⟩ := List.exists_cons_of_ne_nil present
  have lead := numeral d (List.mem_cons_self ..)
  cases ds with
  | nil =>
    obtain ⟨e, es, rfl⟩ := List.exists_cons_of_ne_nil filled
    exact resultLength_of_digit _ lead (.inr (dotted e (List.mem_cons_self ..)))
  | cons e es => exact resultLength_of_digit _ lead (.inl (numeral e (by simp)))

/-- Where movetext ends, the cursor after its last token; before any token, the blanks are
skipped. -/
def endOf (ts : List String) (cs rest : List Char) (pos : Nat) : Cursor :=
  if ts = [] then skip ⟨rest, pos⟩ else ⟨rest, pos + cs.length⟩

theorem resume_endOf {prev : String} {items : List PgnItem} {ts : List String} (text : Movetext items ts)
    {cs rest : List Char} {p : Nat} (laid : LaidAfter prev ts cs) :
    (if items.isEmpty ∧ (endOf ts cs rest p).pos = (skip ⟨cs ++ rest, p⟩).pos then ⟨cs ++ rest, p⟩
      else endOf ts cs rest p) = (⟨rest, p + cs.length⟩ : Cursor) := by
  by_cases empty : ts = []
  · subst empty
    obtain rfl := laid.nil_inv
    obtain rfl := text.items_eq_nil.mpr rfl
    simp [endOf]
  · have full : items ≠ [] := fun none => empty (text.items_eq_nil.mp none)
    simp [endOf, empty, full]

theorem skip_endOf {prev : String} {ts : List String} {cs sep stop : List Char} {p : Nat}
    (laid : LaidAfter prev ts cs) (blank : ∀ ch ∈ sep, isBlank ch = true) (quiet : Quiet stop) :
    skip (endOf ts cs (sep ++ stop) p) = ⟨stop, p + cs.length + sep.length⟩ := by
  unfold endOf
  split
  · next empty =>
    subst empty
    obtain rfl := laid.nil_inv
    rw [skip_blanks quiet sep blank, skip_quiet quiet]
    simp
  · exact skip_blanks quiet sep blank _

theorem elements_laidAfter {items : List PgnItem} {ts : List String} (text : Movetext items ts) :
    ∀ {prev : String} {cs rest : List Char} {pos fuel : Nat}, LaidAfter prev ts cs →
      3 * ts.length ≤ fuel → (ts ≠ [] → ∀ ch ∈ rest.head?, isBlank ch = true ∨ ch = ')') →
      Stops rest → Returns (elements fuel (skip ⟨cs ++ rest, pos⟩)) (items, endOf ts cs rest pos) := by
  induction text with
  | nil =>
    intro prev cs rest pos fuel laid _ _ stops
    obtain rfl := laid.nil_inv
    exact elements_stops stops pos
  | @move text items ts word rest' ih =>
    intro prev cs rest pos fuel laid enough after stops
    obtain ⟨ch, more, spelled, lead, inner⟩ := word
    obtain ⟨f, rfl⟩ : ∃ f, fuel = f + 2 := ⟨fuel - 2, by simp at enough; omega⟩
    cases laid with
    | @cons _ _ _ sep cs' gap laid' =>
    have skipped : skip ⟨sep ++ text.toList ++ cs' ++ rest, pos⟩ =
        ⟨ch :: (more ++ (cs' ++ rest)), pos + sep.length⟩ := by
      rw [spelled, List.append_assoc, List.append_assoc, List.cons_append]
      exact skip_blanks (quiet_alnum _ (.inl lead)) sep gap.blank pos
    have afterRest := after (List.cons_ne_nil _ _)
    have closing := laid'.head_append (SanToken.ne_parens ⟨ch, more, spelled, lead, inner⟩).1
      fun _ => afterRest
    have read : sanMoveAt ⟨ch :: (more ++ (cs' ++ rest)), pos + sep.length⟩ =
        some (text, ⟨cs' ++ rest, pos + sep.length + (more.length + 1)⟩) := by
      rw [sanMoveAt_word lead inner fun d found => (closing_ends (closing d found)).1, ← spelled,
        String.ofList_toList]
    have value := elements_cons (element_san (f := f)
      (moveNumberAt_of_head fun d found => by cases found; exact isDigit_of_isAlpha lead) read)
      (ih laid' (by simp at enough; omega) (fun _ => afterRest) stops)
    rw [resume_endOf rest' laid'] at value
    have ends : (⟨rest, pos + (sep ++ text.toList ++ cs').length⟩ : Cursor) =
        ⟨rest, pos + sep.length + (more.length + 1) + cs'.length⟩ := by
      simp [spelled]
      omega
    rw [skipped, endOf, if_neg (List.cons_ne_nil _ _), ends]
    exact value
  | @numbered label text items ts numeral rest' ih =>
    intro prev cs rest pos fuel laid enough after stops
    obtain ⟨digits, dots, spelled, present, numeric, filled, dotted⟩ := numeral
    obtain ⟨f, rfl⟩ : ∃ f, fuel = f + 2 := ⟨fuel - 2, by simp at enough; omega⟩
    cases laid with
    | @cons _ _ _ sep cs' gap laid' =>
    have quiet : Quiet (digits ++ (dots ++ (cs' ++ rest))) := by
      obtain ⟨d, ds, rfl⟩ := List.exists_cons_of_ne_nil present
      exact quiet_alnum _ (.inr (numeric d (List.mem_cons_self ..)))
    have skipped : skip ⟨sep ++ label.toList ++ cs' ++ rest, pos⟩ =
        ⟨digits ++ (dots ++ (cs' ++ rest)), pos + sep.length⟩ := by
      simp only [spelled, List.append_assoc]
      exact skip_blanks quiet sep gap.blank pos
    have afterRest := after (List.cons_ne_nil _ _)
    have closing := laid'.head_append
      (NumberToken.ne_parens ⟨digits, dots, spelled, present, numeric, filled, dotted⟩).1
      fun _ => afterRest
    have numbered := @moveNumberAt_numeral (pos + sep.length) _ _ _ numeric present dotted
      (fun d found => ⟨(closing_ends (closing d found)).2.1, (closing_ends (closing d found)).2.2⟩)
      (resultLength_numeral present numeric filled dotted _)
    have value := elements_cons (element_number (f := f) numbered)
      (ih laid' (by simp at enough ⊢; omega) (fun _ => afterRest) stops)
    rw [resume_endOf rest' laid'] at value
    have ends : (⟨rest, pos + (sep ++ label.toList ++ cs').length⟩ : Cursor) =
        ⟨rest, pos + sep.length + (digits.length + dots.length) + cs'.length⟩ := by
      simp [spelled]
      omega
    rw [skipped, endOf, if_neg (List.cons_ne_nil _ _), ends]
    exact value
  | @variation inner items ts₁ ts₂ inside rest' ihInside ihRest =>
    intro prev cs rest pos fuel laid enough after stops
    obtain ⟨f, rfl⟩ : ∃ f, fuel = f + 3 := ⟨fuel - 3, by simp at enough; omega⟩
    have opening : "(".toList = ['('] := by simp
    have closingList : ")".toList = [')'] := by simp
    cases laid with
    | @cons _ _ _ sep cs' gap laid' =>
    obtain ⟨csA, csB, rfl, laidA, laidB⟩ := laid'.append
    cases laidB with
    | @cons _ _ _ sep' cs₂ gap' laid₂ =>
    obtain rfl := gap'.close
    have skipped : skip ⟨sep ++ "(".toList ++ (csA ++ ([] ++ ")".toList ++ cs₂)) ++ rest, pos⟩ =
        ⟨'(' :: (csA ++ ')' :: (cs₂ ++ rest)), pos + sep.length⟩ := by
      simp only [opening, closingList, List.append_assoc, List.nil_append, List.cons_append]
      exact skip_blanks (quiet_cons _ (by decide) (by decide) (by decide) (by decide)) sep gap.blank pos
    have afterRest := after (List.cons_ne_nil _ _)
    have within := @ihInside _ _ (')' :: (cs₂ ++ rest)) (pos + sep.length + 1) f laidA
      (by simp at enough; omega) (fun _ _ found => by cases found; exact .inr rfl) (stops_close _)
    have closed : charAt ')' (skip (endOf ts₁ csA (')' :: (cs₂ ++ rest)) (pos + sep.length + 1))) =
        some ⟨cs₂ ++ rest, pos + sep.length + 1 + csA.length + 1⟩ := by
      rw [← List.nil_append (')' :: (cs₂ ++ rest)),
        skip_endOf laidA (by simp) (quiet_cons _ (by decide) (by decide) (by decide) (by decide)),
        charAt_cons]
      simp
    have opened := variation_opened (@charAt_cons (pos + sep.length) '(' (csA ++ ')' :: (cs₂ ++ rest)))
      within closed
    have read := element_variation (f := f + 1) (moveNumberAt_of_head fun _ found => by cases found; decide)
      (sanMoveAt_of_head fun _ found => by cases found; decide) (nagAt_of_head fun _ found => by
        cases found; decide) opened
    have value := elements_cons read (ihRest laid₂ (by simp at enough; omega) (fun _ => afterRest) stops)
    rw [resume_endOf rest' laid₂] at value
    have ends : (⟨rest, pos + (sep ++ "(".toList ++ (csA ++ ([] ++ ")".toList ++ cs₂))).length⟩ : Cursor) =
        ⟨rest, pos + sep.length + 1 + csA.length + 1 + cs₂.length⟩ := by
      simp [opening, closingList]
      omega
    rw [skipped, endOf, if_neg (List.cons_ne_nil _ _), ends]
    exact value

end Pgn

end Chess
