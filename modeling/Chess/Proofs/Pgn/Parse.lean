import Chess.Proofs.Pgn.Escape
import Chess.Proofs.Pgn.Movetext

namespace Chess

namespace Pgn

/-! A written game read back. Its tag lines read as tag pairs with their names and their values
quoted as written; after the blank line, the layout of its movetext reads as the items the
tokens write, and the result closes the game at the end of the text. So a written game parses
as exactly one game, whatever its tags and its tree. -/

section Tags

def identChar (ch : Char) : Bool := isAlnum ch ∨ ch = '_'

def Identifier (name : String) : Prop := name.toList ≠ [] ∧ ∀ ch ∈ name.toList, identChar ch = true

theorem identifierAt_identifier {c c' : Cursor} {name : String} (read : identifierAt c = some (name, c')) :
    Identifier name := by
  simp only [identifierAt] at read
  split at read
  · cases read
  · next taken =>
    simp only [Option.some.injEq, Prod.mk.injEq] at read
    obtain ⟨rfl, -⟩ := read
    refine ⟨by simpa using taken, fun ch member => ?_⟩
    rw [String.toList_ofList] at member
    exact List.all_eq_true.mp List.all_takeWhile ch member

def quoted (value : String) : String := String.ofList ('"' :: (escape value).toList ++ ['"'])

theorem toList_tagLine (name value : String) :
    (tagLine (name, value)).toList =
      '[' :: (name.toList ++ ' ' :: '"' :: ((escape value).toList ++ ['"', ']', '\n'])) := by
  simp [tagLine, String.toList_append]

theorem identifierAt_name {name : String} (named : Identifier name) (rest : List Char) (pos : Nat) :
    identifierAt ⟨name.toList ++ ' ' :: rest, pos⟩ = some (name, ⟨' ' :: rest, pos + name.toList.length⟩) := by
  have taken : (name.toList ++ ' ' :: rest).takeWhile (fun ch => isAlnum ch ∨ ch = '_') = name.toList :=
    takeWhile_append_stop named.2 (fun ch found => by cases found; decide)
  have filled : name.toList.isEmpty = false := by simpa using named.1
  simp only [identifierAt, taken, filled, Bool.false_eq_true, if_false, String.ofList_toList]
  simp [Cursor.advance]

theorem quiet_ident {ch : Char} (rest : List Char) (ident : identChar ch = true) : Quiet (ch :: rest) := by
  simp only [identChar, isAlnum, decide_eq_true_eq] at ident
  rcases ident with alnum | rfl
  · exact quiet_alnum rest alnum
  · exact quiet_cons rest (by decide) (by decide) (by decide) (by decide)

theorem stringAt_escape (value : String) (rest : List Char) (pos : Nat) :
    stringAt ⟨'"' :: ((escape value).toList ++ '"' :: rest), pos⟩ =
      some (quoted value, ⟨rest, pos + ((escape value).toList.length + 2)⟩) := by
  have body := stringBody_escape value.toList rest 0
  rw [← toList_escape, Nat.zero_add] at body
  simp [stringAt, body, quoted, Cursor.advance, List.take_append, List.take_of_length_le]

theorem tagPair_tagLine {name : String} (named : Identifier name) (value : String) (rest : List Char)
    (pos : Nat) :
    Returns (tagPair ⟨(tagLine (name, value)).toList ++ rest, pos⟩)
      (some ((name, quoted value),
        ⟨'\n' :: rest, pos + (name.toList.length + (escape value).toList.length + 5)⟩)) := by
  obtain ⟨ch, more, spelled⟩ := List.exists_cons_of_ne_nil named.1
  have quiet : Quiet (name.toList ++ ' ' :: '"' :: ((escape value).toList ++ '"' :: ']' :: '\n' :: rest)) := by
    rw [spelled]
    exact quiet_ident _ (named.2 ch (by simp [spelled]))
  have opened : charAt '[' ⟨(tagLine (name, value)).toList ++ rest, pos⟩ =
      some ⟨name.toList ++ ' ' :: '"' :: ((escape value).toList ++ '"' :: ']' :: '\n' :: rest), pos + 1⟩ := by
    simp [toList_tagLine]
  have spaced : skip ⟨' ' :: '"' :: ((escape value).toList ++ '"' :: ']' :: '\n' :: rest),
      pos + 1 + name.toList.length⟩ =
      ⟨'"' :: ((escape value).toList ++ '"' :: ']' :: '\n' :: rest), pos + 1 + name.toList.length + 1⟩ :=
    skip_blanks (quiet_cons _ (by decide) (by decide) (by decide) (by decide)) [' ']
      (by simp [isBlank]) _
  have closing : skip ⟨']' :: '\n' :: rest, pos + 1 + name.toList.length + 1 +
      ((escape value).toList.length + 2)⟩ = ⟨']' :: '\n' :: rest, pos + 1 + name.toList.length + 1 +
      ((escape value).toList.length + 2)⟩ :=
    skip_quiet (quiet_cons _ (by decide) (by decide) (by decide) (by decide)) _
  unfold tagPair
  refine Returns.tracked ?_ _ _
  rw [opened]
  refine (Returns.tracked (returns_pure _) _ _).bind ?_
  rw [skip_quiet quiet, identifierAt_name named]
  refine (Returns.tracked (returns_pure _) _ _).bind ?_
  rw [spaced, stringAt_escape]
  dsimp only
  rw [closing, charAt_cons]
  have ends : pos + 1 + name.toList.length + 1 + ((escape value).toList.length + 2) + 1 =
      pos + (name.toList.length + (escape value).toList.length + 5) := by omega
  rw [ends]
  exact returns_pure _

theorem tagPair_unopened {c : Cursor} (unopened : charAt '[' c = none) : Returns (tagPair c) none := by
  unfold tagPair
  refine Returns.tracked ?_ _ _
  rw [unopened]
  exact returns_pure _

theorem tagPairs_stop {c : Cursor} (unopened : charAt '[' c = none) (fuel : Nat) :
    Returns (tagPairs fuel c) ([], c) := by
  cases fuel with
  | zero =>
    rw [tagPairs]
    exact returns_pure _
  | succ f =>
    rw [tagPairs]
    exact (tagPair_unopened unopened).bind (returns_pure _)

theorem tagPairs_cons {tag : String × String} {c c' E : Cursor} {more : List (String × String)} {f : Nat}
    (found : Returns (tagPair c) (some (tag, c'))) (after : Returns (tagPairs f (skip c')) (more, E)) :
    Returns (tagPairs (f + 1) c) (tag :: more, if more = [] then c' else E) := by
  rw [tagPairs]
  refine found.bind (after.bind ?_)
  cases more with
  | nil => exact returns_pure _
  | cons _ _ => exact returns_pure _

def Untagged (rest : List Char) : Prop :=
  ∃ sep stop, rest = sep ++ stop ∧ (∀ ch ∈ sep, isBlank ch = true) ∧ Quiet stop ∧
    ∀ ch ∈ stop.head?, ch ≠ '['

theorem length_tagLine (tag : String × String) :
    (tagLine tag).toList.length = tag.1.toList.length + (escape tag.2).toList.length + 6 := by
  obtain ⟨name, value⟩ := tag
  simp [toList_tagLine]
  omega

theorem tagPairs_tagLines (tags : List (String × String)) (named : ∀ tag ∈ tags, Identifier tag.1)
    {rest : List Char} (untagged : Untagged rest) (pos fuel : Nat) (enough : tags.length ≤ fuel) :
    ∃ E, Returns (tagPairs fuel (skip ⟨(tags.flatMap fun tag => (tagLine tag).toList) ++ rest, pos⟩))
        (tags.map fun tag => (tag.1, quoted tag.2), E) ∧
      skip E = skip ⟨rest, pos + (tags.flatMap fun tag => (tagLine tag).toList).length⟩ := by
  induction tags generalizing pos fuel with
  | nil =>
    obtain ⟨sep, stop, rfl, blank, quiet, head⟩ := untagged
    refine ⟨skip ⟨sep ++ stop, pos⟩, ?_, ?_⟩
    · rw [List.flatMap_nil, List.nil_append, skip_blanks quiet sep blank]
      exact tagPairs_stop (charAt_of_head head) fuel
    · simp only [List.flatMap_nil, List.length_nil, Nat.add_zero]
      rw [skip_blanks quiet sep blank, skip_quiet quiet]
  | cons tag later ih =>
    obtain ⟨name, value⟩ := tag
    obtain ⟨f, rfl⟩ : ∃ f, fuel = f + 1 := ⟨fuel - 1, by simp at enough; omega⟩
    have first := tagPair_tagLine (named _ (List.mem_cons_self ..)) value
      ((later.flatMap fun tag => (tagLine tag).toList) ++ rest) pos
    obtain ⟨E, after, ends⟩ := ih (fun tag found => named tag (List.mem_cons_of_mem _ found))
      (pos + (tagLine (name, value)).toList.length) f (by simp at enough; omega)
    have line : (tagLine (name, value)).toList.length =
        name.toList.length + (escape value).toList.length + 6 := length_tagLine (name, value)
    have resumed : skip ⟨'\n' :: ((later.flatMap fun tag => (tagLine tag).toList) ++ rest),
        pos + (name.toList.length + (escape value).toList.length + 5)⟩ =
        skip ⟨(later.flatMap fun tag => (tagLine tag).toList) ++ rest,
          pos + (tagLine (name, value)).toList.length⟩ := by
      rw [skip_blank_cons (by decide), line]
      congr 2
    rw [← resumed] at after
    have quiet : Quiet ((tagLine (name, value)).toList ++
        ((later.flatMap fun tag => (tagLine tag).toList) ++ rest)) := by
      rw [toList_tagLine]
      exact quiet_cons _ (by decide) (by decide) (by decide) (by decide)
    refine ⟨if later.map (fun tag => (tag.1, quoted tag.2)) = [] then
      ⟨'\n' :: ((later.flatMap fun tag => (tagLine tag).toList) ++ rest),
        pos + (name.toList.length + (escape value).toList.length + 5)⟩ else E, ?_, ?_⟩
    · rw [List.flatMap_cons, List.append_assoc, skip_quiet quiet]
      exact tagPairs_cons first after
    · by_cases empty : later = []
      · subst empty
        simp only [List.map_nil, if_true]
        rw [skip_blank_cons (by decide)]
        simp [line]
        congr 2
      · simp only [List.map_eq_nil_iff, empty, if_false, ends]
        simp [line]
        congr 2
        omega

end Tags

section Game

def Lead (t : String) : Prop := ∃ ch more, t.toList = ch :: more ∧ (∀ rest, Quiet (ch :: rest)) ∧ ch ≠ '['

theorem lead_of_alnum {t : String} {ch : Char} {more : List Char} (spelled : t.toList = ch :: more)
    (alnum : isAlpha ch = true ∨ isDigit ch = true) : Lead t :=
  ⟨ch, more, spelled, fun rest => quiet_alnum rest alnum, (isAlnum_plain alnum).2.2.2.2.2.2⟩

theorem lead_of_char {t : String} {ch : Char} (spelled : t.toList = [ch]) (notBlank : isBlank ch = false)
    (notBrace : ch ≠ '{') (notSemicolon : ch ≠ ';') (notPercent : ch ≠ '%') (notBracket : ch ≠ '[') :
    Lead t :=
  ⟨ch, [], spelled, fun rest => quiet_cons rest notBlank notBrace notSemicolon notPercent, notBracket⟩

theorem Movetext.lead {items : List PgnItem} {ts : List String} (text : Movetext items ts) :
    ∀ t ∈ ts, Lead t := by
  induction text with
  | nil => simp
  | move word _ ih =>
    obtain ⟨ch, more, spelled, alpha, -⟩ := word
    exact List.forall_mem_cons.mpr ⟨lead_of_alnum spelled (.inl alpha), ih⟩
  | numbered numeral _ ih =>
    obtain ⟨digits, dots, spelled, present, numeric, -⟩ := numeral
    obtain ⟨d, ds, rfl⟩ := List.exists_cons_of_ne_nil present
    exact List.forall_mem_cons.mpr
      ⟨lead_of_alnum spelled (.inr (numeric d (List.mem_cons_self ..))), ih⟩
  | variation _ _ ihInside ihRest =>
    intro t found
    simp only [List.mem_cons, List.mem_append] at found
    rcases found with rfl | inside | rfl | rest
    · exact @lead_of_char _ '(' (by simp) (by decide) (by decide) (by decide) (by decide) (by decide)
    · exact ihInside t inside
    · exact @lead_of_char _ ')' (by simp) (by decide) (by decide) (by decide) (by decide) (by decide)
    · exact ihRest t rest

theorem resultToken_lead (r : Option GameResult) : Lead (resultToken r) := by
  cases r with
  | none =>
    exact @lead_of_char _ '*' (by simp [resultToken]) (by decide) (by decide) (by decide)
      (by decide) (by decide)
  | some r =>
    cases r with
    | whiteWins =>
      exact @lead_of_alnum _ '1' ['-', '0'] (by simp [resultToken, GameResult.score])
        (.inr (by decide))
    | blackWins =>
      exact @lead_of_alnum _ '0' ['-', '1'] (by simp [resultToken, GameResult.score])
        (.inr (by decide))
    | draw =>
      exact @lead_of_alnum _ '1' "/2-1/2".toList (by simp [resultToken, GameResult.score])
        (.inr (by decide))

theorem resultToken_ne_close (r : Option GameResult) : resultToken r ≠ ")" := by
  cases r with
  | none => decide
  | some r => cases r <;> decide

theorem resultToken_ne_empty (r : Option GameResult) : resultToken r ≠ "" := by
  obtain ⟨ch, more, spelled, -⟩ := resultToken_lead r
  rintro same
  simp [same] at spelled

theorem stops_resultToken (r : Option GameResult) {sep : List Char} (blank : ∀ ch ∈ sep, isBlank ch = true)
    (more : List Char) : Stops (sep ++ ((resultToken r).toList ++ more)) := by
  obtain ⟨ch, rest, spelled, quiet, -⟩ := resultToken_lead r
  refine ⟨sep, _, rfl, blank, by rw [spelled]; exact quiet _, .inl (by simp [resultLength_resultToken]), ?_⟩
  rw [spelled]
  intro d found
  cases found
  cases r with
  | none =>
    simp [resultToken] at spelled
    obtain ⟨rfl, -⟩ := spelled
    decide
  | some r =>
    cases r <;> simp [resultToken, GameResult.score] at spelled <;> obtain ⟨rfl, -⟩ := spelled <;> decide

theorem elements_layout {items : List PgnItem} {mts : List String} (text : Movetext items mts)
    (r : Option GameResult) (more : List Char) (pos fuel : Nat) (enough : 3 * mts.length ≤ fuel) :
    ∃ E q, Returns (elements fuel (skip ⟨(layout (mts ++ [resultToken r])).toList ++ more, pos⟩))
        (items, E) ∧ skip E = ⟨(resultToken r).toList ++ '\n' :: more, q⟩ := by
  have nonempty : ∀ t ∈ mts ++ [resultToken r], t ≠ "" := by
    simp only [List.mem_append, List.mem_singleton]
    rintro t (member | rfl)
    · exact text.ne_empty t member
    · exact resultToken_ne_empty r
  obtain ⟨t, ts, split⟩ := List.exists_cons_of_ne_nil (List.append_ne_nil_of_right_ne_nil mts
    (List.cons_ne_nil (resultToken r) []))
  obtain ⟨cs, laid, chars⟩ := layout_toList t ts (split ▸ nonempty)
  have laidAll : LaidAfter "(" (mts ++ [resultToken r]) (t.toList ++ cs) := by
    rw [split]
    simpa using LaidAfter.cons (.inl ⟨.inl rfl, rfl⟩) laid
  obtain ⟨csM, csR, whole, laidM, laidR⟩ := laidAll.append
  cases laidR with
  | @cons _ _ _ sep csE gap laidE =>
  obtain rfl := laidE.nil_inv
  have shape : (layout (mts ++ [resultToken r])).toList ++ more =
      csM ++ (sep ++ ((resultToken r).toList ++ '\n' :: more)) := by
    rw [split, chars, whole]
    simp
  obtain ⟨ch, rest, spelled, quiet, -⟩ := resultToken_lead r
  have after : mts ≠ [] → ∀ ch ∈ (sep ++ ((resultToken r).toList ++ '\n' :: more)).head?,
      isBlank ch = true ∨ ch = ')' := by
    intro filled
    have last : ("(" :: mts).getLast (List.cons_ne_nil _ _) ≠ "(" := by
      rw [List.getLast_cons filled]
      exact text.last_ne_open _ (List.getLast_mem_getLast? filled)
    rcases gap with ⟨glued, -⟩ | ⟨-, rfl | rfl⟩
    · exact absurd glued (by simp [last, resultToken_ne_close])
    · intro d found
      cases found
      exact .inl (by decide)
    · intro d found
      cases found
      exact .inl (by decide)
  refine ⟨endOf mts csM (sep ++ ((resultToken r).toList ++ '\n' :: more)) pos, _, ?_,
    skip_endOf laidM gap.blank (spelled ▸ quiet _)⟩
  rw [shape]
  exact elements_laidAfter text laidM enough after (stops_resultToken r gap.blank _)

theorem game_parts {fuel : Nat} {c c1 c2 c3 : Cursor} {tags : List (String × String)}
    {items : List PgnItem} {result : String} (tagged : Returns (tagPairs fuel c) (tags, c1))
    (moved : Returns (elements fuel (skip c1)) (items, c2)) (ended : resultAt (skip c2) = some (result, c3)) :
    Returns (game fuel c) (some ({ tags, items, result }, c3)) := by
  unfold game
  refine Returns.tracked (tagged.bind (moved.bind ((Returns.tracked (returns_pure _) _ _).bind ?_))) _ _
  rw [ended]
  exact returns_pure _

theorem game_end (fuel pos : Nat) : Returns (game fuel ⟨[], pos⟩) none := by
  have ended : skip ⟨[], pos⟩ = ⟨[], pos⟩ := skip_quiet quiet_nil pos
  unfold game
  refine Returns.tracked ((tagPairs_stop (charAt_of_head (by simp)) fuel).bind ?_) _ _
  refine (elements_stops stops_nil pos).bind ((Returns.tracked (returns_pure _) _ _).bind ?_)
  rw [ended, ended]
  exact returns_pure _

theorem games_stop {fuel : Nat} {c : Cursor} (none_ : Returns (game fuel c) none) (n : Nat) :
    Returns (games fuel n c) ([], c) := by
  cases n with
  | zero =>
    rw [games]
    exact returns_pure _
  | succ n =>
    rw [games]
    exact none_.bind (returns_pure _)

theorem games_one {fuel n : Nat} {c c' : Cursor} {g : PgnText} (found : Returns (game fuel c) (some (g, c')))
    (last : Returns (game fuel (skip c')) none) : Returns (games fuel (n + 1) c) ([g], c') := by
  rw [games]
  exact found.bind ((games_stop last n).bind (returns_pure _))

theorem file_games {fuel : Nat} {c c1 : Cursor} {gs : List PgnText}
    (read : Returns (games fuel fuel (skip c)) (gs, c1)) (ended : (skip c1).rest = []) :
    Returns (file fuel c) (some (gs, skip c1)) := by
  unfold file
  refine Returns.tracked (read.bind ((Returns.tracked (returns_pure _) _ _).bind ?_)) _ _
  simp only [ended, List.isEmpty_nil, if_true]
  exact returns_pure _

theorem parse_of_returns {text : String} {gs : List PgnText} {c : Cursor}
    (read : Returns (file (3 * text.toList.length + 4) ⟨text.toList, 0⟩) (some (gs, c))) :
    parse text = .ok gs := by
  have value := read {}
  unfold parse
  simp only []
  generalize (file (3 * text.toList.length + 4) ⟨text.toList, 0⟩).run {} = out at value ⊢
  obtain ⟨o, a⟩ := out
  cases value
  rfl

theorem layout_lead {tokens : List String} (lead : ∀ t ∈ tokens, Lead t) (nonempty : ∀ t ∈ tokens, t ≠ "")
    (filled : tokens ≠ []) (rest : List Char) :
    Quiet ((layout tokens).toList ++ rest) ∧ ∀ ch ∈ ((layout tokens).toList ++ rest).head?, ch ≠ '[' := by
  obtain ⟨t, ts, rfl⟩ := List.exists_cons_of_ne_nil filled
  obtain ⟨cs, -, chars⟩ := layout_toList t ts nonempty
  obtain ⟨ch, more, spelled, quiet, notBracket⟩ := lead t (List.mem_cons_self ..)
  rw [chars, spelled]
  refine ⟨by simpa using quiet _, ?_⟩
  intro d found
  simp only [List.cons_append, List.head?_cons, Option.mem_def, Option.some.injEq] at found
  exact found ▸ notBracket

theorem length_le_layout {tokens : List String} (nonempty : ∀ t ∈ tokens, t ≠ "") :
    tokens.length ≤ (layout tokens).toList.length := by
  cases tokens with
  | nil => simp
  | cons t ts =>
    obtain ⟨cs, laid, chars⟩ := layout_toList t ts nonempty
    have rest := laid.length_le fun x found => nonempty x (List.mem_cons_of_mem _ found)
    rw [chars]
    simp
    omega

end Game

section Written

theorem Movetext.ne_empty_result {items : List PgnItem} {mts : List String} (text : Movetext items mts)
    (r : Option GameResult) : ∀ t ∈ mts ++ [resultToken r], t ≠ "" := by
  simp only [List.mem_append, List.mem_singleton]
  rintro t (member | rfl)
  · exact text.ne_empty t member
  · exact resultToken_ne_empty r

theorem length_le_tagLines (tags : List (String × String)) :
    tags.length ≤ (tags.flatMap fun tag => (tagLine tag).toList).length := by
  induction tags with
  | nil => simp
  | cons tag later ih =>
    rw [List.flatMap_cons, List.length_append, length_tagLine, List.length_cons]
    omega

theorem file_game {tags : List (String × String)} (named : ∀ tag ∈ tags, Identifier tag.1)
    {blank : List Char} (blanks : ∀ ch ∈ blank, isBlank ch = true) {items : List PgnItem}
    {mts : List String} (text : Movetext items mts) (r : Option GameResult) {fuel : Nat}
    (tagFuel : tags.length ≤ fuel) (tokenFuel : 3 * mts.length ≤ fuel) (gameFuel : 0 < fuel) :
    ∃ c, Returns (file fuel ⟨(tags.flatMap fun tag => (tagLine tag).toList) ++
        (blank ++ (layout (mts ++ [resultToken r])).toList), 0⟩)
      (some ([⟨tags.map (fun tag => (tag.1, quoted tag.2)), items, resultToken r⟩], c)) := by
  have nonempty := text.ne_empty_result r
  have leads : ∀ t ∈ mts ++ [resultToken r], Lead t := by
    simp only [List.mem_append, List.mem_singleton]
    rintro t (member | rfl)
    · exact text.lead t member
    · exact resultToken_lead r
  obtain ⟨quiet, unbracketed⟩ := layout_lead leads nonempty (by simp) []
  rw [List.append_nil] at quiet unbracketed
  obtain ⟨E₁, tagged, skipped₁⟩ := tagPairs_tagLines tags named
    ⟨_, _, rfl, blanks, quiet, unbracketed⟩ 0 fuel tagFuel
  obtain ⟨E₂, q, moved, skipped₂⟩ := elements_layout text r [] (0 +
    (tags.flatMap fun tag => (tagLine tag).toList).length + blank.length) fuel tokenFuel
  rw [List.append_nil, skip_quiet quiet, ← skip_blanks quiet _ blanks, ← skipped₁] at moved
  have found := game_parts tagged moved (by rw [skipped₂]; exact resultAt_resultToken r ['\n'])
  have last : skip ⟨['\n'], q + (resultToken r).toList.length⟩ =
      ⟨[], q + (resultToken r).toList.length + 1⟩ := by
    rw [skip_blank_cons (by decide), skip_quiet quiet_nil]
  obtain ⟨n, rfl⟩ : ∃ n, fuel = n + 1 := ⟨fuel - 1, by omega⟩
  exact ⟨_, file_games (games_one found (by rw [last]; exact game_end _ _)) (by rw [last])⟩

theorem toList_write (g : PgnGame) :
    g.write.toList = (g.tags.toList.flatMap fun tag => (tagLine tag).toList) ++
      ((if g.tags.isEmpty then [] else ['\n']) ++
        (layout (g.history.movetextTokens ++ [resultToken g.result])).toList) := by
  by_cases empty : g.tags.isEmpty <;>
    simp [PgnGame.write, empty, String.toList_append, String.toList_join, List.flatMap_map]

theorem parse_write {g : PgnGame} {items : List PgnItem} (named : ∀ tag ∈ g.tags.toList, Identifier tag.1)
    (text : Movetext items g.history.movetextTokens) :
    parse g.write =
      .ok [⟨g.tags.toList.map (fun tag => (tag.1, quoted tag.2)), items, resultToken g.result⟩] := by
  have blanks : ∀ ch ∈ (if g.tags.isEmpty then [] else ['\n']), isBlank ch = true := by
    by_cases empty : g.tags.isEmpty <;> simp [empty, isBlank]
  have tagCount := length_le_tagLines g.tags.toList
  have tokenCount := length_le_layout (text.ne_empty_result g.result)
  have total := toList_write g
  simp only [List.length_append] at tokenCount
  obtain ⟨c, read⟩ := @file_game _ named _ blanks _ _ text g.result (3 * g.write.toList.length + 4)
    (by rw [total]; simp only [List.length_append]; omega)
    (by rw [total]; simp only [List.length_append]; omega) (by omega)
  rw [← total] at read
  exact parse_of_returns read

end Written

end Pgn

end Chess
