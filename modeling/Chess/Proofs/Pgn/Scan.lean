import Chess.Pgn.Game
import Chess.Pgn.Grammar

namespace Chess

namespace Pgn

/-! Reading text the grammar accepts. The failures a scan records never change what it gives,
so a scan is described by the value it `Returns` from any record; a rule's value then follows
from the values of its parts. Blanks are skipped up to the first character that starts
something else, and each reader takes exactly its token when the character after it cannot
continue the token. -/

section Calculus

def Returns {α : Type} (x : Scan α) (v : α) : Prop := ∀ a, (x.run a).1 = v

theorem returns_pure {α : Type} (v : α) : Returns (pure v : Scan α) v := fun _ => rfl

theorem Returns.bind {α β : Type} {x : Scan α} {f : α → Scan β} {v : α} {w : β}
    (first : Returns x v) (rest : Returns (f v) w) : Returns (x >>= f) w := by
  intro a
  show ((f (x.run a).1).run (x.run a).2).1 = w
  rw [first a]
  exact rest _

theorem returns_bind_any {α β : Type} {x : Scan α} {f : α → Scan β} {w : β}
    (rest : ∀ v, Returns (f v) w) : Returns (x >>= f) w := fun _ => rest _ _

theorem Returns.tracked {α : Type} {body : Scan (Option (α × Cursor))} {v : Option (α × Cursor)}
    (returns : Returns body v) (r : PgnRule) (c : Cursor) : Returns (tracked r c body) v := by
  refine returns_bind_any fun _ => returns.bind ?_
  cases v with
  | none => exact returns_bind_any fun _ => returns_pure _
  | some _ => exact returns_pure _

end Calculus

section Rules

/-! What each rule of the movetext gives, from what its parts give. -/

variable {c c' c1 c2 c3 : Cursor} {f : Nat}

theorem element_number (numbered : moveNumberAt c = some ((), c')) :
    Returns (element (f + 1) c) (some (none, c')) := by
  rw [element]
  exact (Returns.tracked (returns_pure _) _ _).bind (by rw [numbered]; exact returns_pure _)

theorem element_san {text : String} (unnumbered : moveNumberAt c = none)
    (read : sanMoveAt c = some (text, c')) :
    Returns (element (f + 1) c) (some (some (.move text), c')) := by
  rw [element]
  refine (Returns.tracked (returns_pure _) _ _).bind ?_
  rw [unnumbered]
  exact (Returns.tracked (returns_pure _) _ _).bind (by rw [read]; exact returns_pure _)

theorem element_variation {v : Option (List PgnItem × Cursor)} (unnumbered : moveNumberAt c = none)
    (unmoved : sanMoveAt c = none) (unmarked : nagAt c = none) (inner : Returns (variation f c) v) :
    Returns (element (f + 1) c) (v.map fun x => (some (.variation x.1), x.2)) := by
  rw [element]
  refine (Returns.tracked (returns_pure _) _ _).bind ?_
  rw [unnumbered]
  refine (Returns.tracked (returns_pure _) _ _).bind ?_
  rw [unmoved]
  refine (Returns.tracked (returns_pure _) _ _).bind ?_
  rw [unmarked]
  refine inner.bind ?_
  cases v with
  | none => exact returns_pure _
  | some _ => exact returns_pure _

theorem variation_opened {items : List PgnItem} (opened : charAt '(' c = some c1)
    (inner : Returns (elements f (skip c1)) (items, c2)) (closed : charAt ')' (skip c2) = some c3) :
    Returns (variation (f + 1) c) (some (items, c3)) := by
  rw [variation]
  refine Returns.tracked ?_ _ _
  rw [opened]
  refine inner.bind ?_
  dsimp only
  rw [closed]
  exact returns_pure _

theorem variation_unopened (unopened : charAt '(' c = none) : Returns (variation f c) none := by
  cases f with
  | zero => rw [variation]; exact returns_pure _
  | succ f =>
    rw [variation]
    refine Returns.tracked ?_ _ _
    rw [unopened]
    exact returns_pure _

theorem elements_cons {item : Option PgnItem} {items : List PgnItem}
    (found : Returns (element f c) (some (item, c'))) (more : Returns (elements f (skip c')) (items, c2)) :
    Returns (elements (f + 1) c)
      (item.toList ++ items, if items.isEmpty ∧ c2.pos = (skip c').pos then c' else c2) := by
  rw [elements]
  exact found.bind (more.bind (returns_pure _))

theorem elements_stop (stopped : Returns (element f c) none) : Returns (elements (f + 1) c) ([], c) := by
  rw [elements]
  exact stopped.bind (returns_pure _)

end Rules

def Quiet (cs : List Char) : Prop := (∀ ch ∈ cs.head?, isBlank ch = false) ∧ commentLength cs = none

theorem quiet_nil : Quiet [] := ⟨by simp, rfl⟩

theorem skip_go_quiet {cs : List Char} (quiet : Quiet cs) (fuel pos : Nat) :
    skip.go fuel ⟨cs, pos⟩ = ⟨cs, pos⟩ := by
  cases fuel with
  | zero => rfl
  | succ fuel =>
    cases cs with
    | nil => rfl
    | cons ch rest =>
      have notBlank : isBlank ch = false := quiet.1 ch rfl
      simp [skip.go, notBlank, quiet.2]

theorem skip_go_blanks {rest : List Char} (quiet : Quiet rest) (sep : List Char)
    (blank : ∀ ch ∈ sep, isBlank ch = true) (fuel pos : Nat) (enough : sep.length ≤ fuel) :
    skip.go fuel ⟨sep ++ rest, pos⟩ = ⟨rest, pos + sep.length⟩ := by
  induction sep generalizing fuel pos with
  | nil => simpa using skip_go_quiet quiet fuel pos
  | cons ch sep ih =>
    obtain ⟨fuel, rfl⟩ : ∃ k, fuel = k + 1 := ⟨fuel - 1, by simp at enough; omega⟩
    have isBlank : isBlank ch = true := blank ch (List.mem_cons_self ..)
    simp only [List.cons_append, skip.go, isBlank, if_true, Cursor.advance, List.drop_succ_cons,
      List.drop_zero]
    rw [ih (fun x member => blank x (List.mem_cons_of_mem _ member)) fuel (pos + 1)
      (by simp at enough; omega)]
    simp only [List.length_cons, Cursor.mk.injEq, true_and]
    omega

theorem skip_blanks {rest : List Char} (quiet : Quiet rest) (sep : List Char)
    (blank : ∀ ch ∈ sep, isBlank ch = true) (pos : Nat) :
    skip ⟨sep ++ rest, pos⟩ = ⟨rest, pos + sep.length⟩ :=
  skip_go_blanks quiet sep blank _ pos (by simp; omega)

theorem skip_quiet {cs : List Char} (quiet : Quiet cs) (pos : Nat) : skip ⟨cs, pos⟩ = ⟨cs, pos⟩ :=
  skip_go_quiet quiet _ pos


theorem skip_blank_cons {ch : Char} (blank : isBlank ch = true) (cs : List Char) (q : Nat) :
    skip ⟨ch :: cs, q⟩ = skip ⟨cs, q + 1⟩ := by
  simp [skip, skip.go, blank, Cursor.advance]

section Characters

theorem isDigit_iff {ch : Char} : isDigit ch = true ↔ 48 ≤ ch.toNat ∧ ch.toNat ≤ 57 := by
  simp [isDigit, Char.le_def, UInt32.le_iff_toNat_le, Char.toNat_val]

theorem isAlpha_iff {ch : Char} :
    isAlpha ch = true ↔ (97 ≤ ch.toNat ∧ ch.toNat ≤ 122) ∨ (65 ≤ ch.toNat ∧ ch.toNat ≤ 90) := by
  simp [isAlpha, Char.le_def, UInt32.le_iff_toNat_le, Char.toNat_val]

theorem isBlank_iff {ch : Char} :
    isBlank ch = true ↔ ch.toNat = 32 ∨ ch.toNat = 9 ∨ ch.toNat = 13 ∨ ch.toNat = 10 := by
  simp [isBlank, ← Char.toNat_inj]

theorem ne_iff_toNat {ch d : Char} : ch ≠ d ↔ ch.toNat ≠ d.toNat := by
  rw [ne_eq, ← Char.toNat_inj]

theorem isAlnum_plain {ch : Char} (alnum : isAlpha ch = true ∨ isDigit ch = true) :
    isBlank ch = false ∧ ch ≠ '{' ∧ ch ≠ ';' ∧ ch ≠ '%' ∧ ch ≠ '(' ∧ ch ≠ ')' ∧ ch ≠ '[' := by
  rw [isAlpha_iff, isDigit_iff] at alnum
  have notBlank : ¬ isBlank ch = true := by rw [isBlank_iff]; omega
  simp only [Bool.not_eq_true] at notBlank
  simp only [notBlank, ne_iff_toNat, Char.reduceToNat, true_and]
  omega

theorem isDigit_of_isAlpha {ch : Char} (alpha : isAlpha ch = true) : isDigit ch = false := by
  rw [isAlpha_iff] at alpha
  have : ¬ isDigit ch = true := by rw [isDigit_iff]; omega
  simpa using this

end Characters

theorem quiet_cons {ch : Char} (rest : List Char) (notBlank : isBlank ch = false) (notBrace : ch ≠ '{')
    (notSemicolon : ch ≠ ';') (notPercent : ch ≠ '%') : Quiet (ch :: rest) := by
  refine ⟨by simpa using notBlank, ?_⟩
  unfold commentLength
  split <;> simp_all

theorem quiet_alnum {ch : Char} (rest : List Char) (alnum : isAlpha ch = true ∨ isDigit ch = true) :
    Quiet (ch :: rest) :=
  have plain := isAlnum_plain alnum
  quiet_cons rest plain.1 plain.2.1 plain.2.2.1 plain.2.2.2.1

theorem takeWhile_append_stop {p : Char → Bool} {xs rest : List Char} (run : ∀ x ∈ xs, p x = true)
    (stop : ∀ x ∈ rest.head?, p x = false) : (xs ++ rest).takeWhile p = xs := by
  rw [List.takeWhile_append_of_pos run]
  cases rest with
  | nil => simp
  | cons x more => simp [stop x rfl]

section Readers

variable {pos : Nat}

theorem moveNumberAt_numeral {digits dots rest : List Char} (numeral : ∀ ch ∈ digits, isDigit ch = true)
    (present : digits ≠ []) (dotted : ∀ ch ∈ dots, ch = '.')
    (after : ∀ ch ∈ rest.head?, isDigit ch = false ∧ ch ≠ '.')
    (unresulted : resultLength (digits ++ (dots ++ rest)) = none) :
    moveNumberAt ⟨digits ++ (dots ++ rest), pos⟩ =
      some ((), ⟨rest, pos + (digits.length + dots.length)⟩) := by
  have stop : ∀ x ∈ (dots ++ rest).head?, isDigit x = false := by
    cases dots with
    | nil => exact fun x found => (after x (by simpa using found)).1
    | cons d more =>
      intro x found
      simp only [List.cons_append, List.head?_cons, Option.mem_def, Option.some.injEq] at found
      rw [← found, dotted d (List.mem_cons_self ..)]
      rfl
  have taken : (digits ++ (dots ++ rest)).takeWhile isDigit = digits := takeWhile_append_stop numeral stop
  have dots_taken : (dots ++ rest).takeWhile (· = '.') = dots :=
    takeWhile_append_stop (by simpa using dotted) (fun x found => by simpa using (after x found).2)
  have nonzero : digits.length ≠ 0 := by simpa using present
  simp only [moveNumberAt, unresulted, Option.isSome_none, taken, nonzero, List.drop_left, dots_taken]
  simp [Cursor.advance, List.drop_append]

theorem moveNumberAt_of_head {c : Cursor} (head : ∀ ch ∈ c.rest.head?, isDigit ch = false) :
    moveNumberAt c = none := by
  have taken : c.rest.takeWhile isDigit = [] := by
    simpa using @takeWhile_append_stop isDigit [] c.rest (by simp) head
  simp [moveNumberAt, taken]

theorem moveNumberAt_of_result {c : Cursor} (result : (resultLength c.rest).isSome) :
    moveNumberAt c = none := by
  simp [moveNumberAt, result]

def sanChar (d : Char) : Bool := isAlnum d ∨ "=+#-!?".toList.contains d

theorem sanMoveAt_word {ch : Char} {more rest : List Char} (lead : isAlpha ch = true)
    (inner : ∀ d ∈ more, sanChar d = true) (after : ∀ d ∈ rest.head?, sanChar d = false) :
    sanMoveAt ⟨ch :: (more ++ rest), pos⟩ =
      some (String.ofList (ch :: more), ⟨rest, pos + (more.length + 1)⟩) := by
  have taken : (more ++ rest).takeWhile (fun d => isAlnum d ∨ "=+#-!?".toList.contains d) = more :=
    takeWhile_append_stop inner after
  simp only [sanMoveAt, lead, if_true, taken]
  simp [Cursor.advance]

theorem sanMoveAt_of_head {c : Cursor} (head : ∀ ch ∈ c.rest.head?, isAlpha ch = false) :
    sanMoveAt c = none := by
  unfold sanMoveAt
  split
  · next ch rest found => simp [head ch (by simp [found])]
  · rfl

theorem nagAt_of_head {c : Cursor} (head : ∀ ch ∈ c.rest.head?, ch ≠ '$') : nagAt c = none := by
  unfold nagAt
  split
  · next rest found => exact absurd rfl (head '$' (by simp [found]))
  · rfl

@[simp] theorem charAt_cons (ch : Char) (rest : List Char) :
    charAt ch ⟨ch :: rest, pos⟩ = some ⟨rest, pos + 1⟩ := by
  simp [charAt, Cursor.advance]

theorem charAt_of_head {ch : Char} {c : Cursor} (head : ∀ d ∈ c.rest.head?, d ≠ ch) :
    charAt ch c = none := by
  unfold charAt
  split
  · next d rest found => simp [head d (by simp [found])]
  · rfl

theorem resultLength_resultToken (r : Option GameResult) (rest : List Char) :
    resultLength ((resultToken r).toList ++ rest) = some (resultToken r).toList.length := by
  cases r with
  | none => simp [resultToken, resultLength]
  | some r => cases r <;> simp [resultToken, GameResult.score, resultLength]

theorem resultAt_resultToken (r : Option GameResult) (rest : List Char) :
    resultAt ⟨(resultToken r).toList ++ rest, pos⟩ =
      some (resultToken r, ⟨rest, pos + (resultToken r).toList.length⟩) := by
  simp [resultAt, resultLength_resultToken, Cursor.advance]

end Readers

section Stops

variable {f : Nat}

theorem element_stop {c : Cursor} (unnumbered : moveNumberAt c = none)
    (head : ∀ ch ∈ c.rest.head?, isAlpha ch = false ∧ ch ≠ '$' ∧ ch ≠ '(') :
    Returns (element f c) none := by
  cases f with
  | zero =>
    rw [element]
    exact returns_pure _
  | succ f =>
    exact element_variation (v := none) unnumbered (sanMoveAt_of_head fun ch found => (head ch found).1)
      (nagAt_of_head fun ch found => (head ch found).2.1)
      (variation_unopened (charAt_of_head fun ch found => (head ch found).2.2))

def Stops (rest : List Char) : Prop :=
  ∃ sep stop, rest = sep ++ stop ∧ (∀ ch ∈ sep, isBlank ch = true) ∧ Quiet stop ∧
    ((resultLength stop).isSome ∨ ∀ ch ∈ stop.head?, isDigit ch = false) ∧
    ∀ ch ∈ stop.head?, isAlpha ch = false ∧ ch ≠ '$' ∧ ch ≠ '('

theorem elements_stops {rest : List Char} (stops : Stops rest) (pos : Nat) :
    Returns (elements f (skip ⟨rest, pos⟩)) ([], skip ⟨rest, pos⟩) := by
  obtain ⟨sep, stop, rfl, blank, quiet, unnumbered, head⟩ := stops
  rw [skip_blanks quiet sep blank]
  cases f with
  | zero =>
    rw [elements]
    exact returns_pure _
  | succ f =>
    refine elements_stop (element_stop ?_ head)
    rcases unnumbered with result | digitless
    · exact moveNumberAt_of_result result
    · exact moveNumberAt_of_head digitless

theorem stops_nil : Stops [] := ⟨[], [], rfl, by simp, quiet_nil, .inr (by simp), by simp⟩

theorem stops_close (rest : List Char) : Stops (')' :: rest) :=
  ⟨[], ')' :: rest, rfl, by simp, quiet_cons rest (by decide) (by decide) (by decide) (by decide),
    .inr fun _ found => by cases found; decide, fun _ found => by cases found; decide⟩

end Stops

end Pgn

end Chess
