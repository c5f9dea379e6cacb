import Chess.Pgn.Game
import Chess.Pgn.Grammar

namespace Chess

namespace Pgn

/-! Tag values in PGN text. A value is written between quotes with each `\` and `"` escaped by
a backslash; read back, the quoted text loses its quotes, then `\"` becomes `"` and `\\`
becomes `\`. The two readings in that order undo the escaping exactly, and the quoted text
runs, escapes included, up to the first quote that no backslash escapes. -/

def escapeChar (c : Char) : List Char :=
  if c = '\\' then ['\\', '\\'] else if c = '"' then ['\\', '"'] else [c]

@[simp] theorem escapeChar_backslash : escapeChar '\\' = ['\\', '\\'] := by simp [escapeChar]

@[simp] theorem escapeChar_quote : escapeChar '"' = ['\\', '"'] := by simp [escapeChar]

theorem escapeChar_of_ne {c : Char} (notBackslash : c ≠ '\\') (notQuote : c ≠ '"') :
    escapeChar c = [c] := by
  simp [escapeChar, notBackslash, notQuote]

theorem toList_escape (value : String) : (escape value).toList = value.toList.flatMap escapeChar := by
  simp only [escape, String.toList_join, List.flatMap_map]
  congr 1
  funext c
  unfold escapeChar
  by_cases backslash : c = '\\'
  · simp [backslash]
  · by_cases quote : c = '"' <;> simp [backslash, quote]

/-- The text escaped with its backslashes doubled and its quotes still bare: what the first
reading leaves of an escaped text. -/
def doubleBackslash (c : Char) : List Char := if c = '\\' then ['\\', '\\'] else [c]

@[simp] theorem doubleBackslash_backslash : doubleBackslash '\\' = ['\\', '\\'] := by
  simp [doubleBackslash]

theorem doubleBackslash_of_ne {c : Char} (notBackslash : c ≠ '\\') : doubleBackslash c = [c] := by
  simp [doubleBackslash, notBackslash]

section ReplacePair

variable {a b : Char} {rep : List Char}

@[simp] theorem replacePair_nil : replacePair a b rep [] = [] := rfl

theorem replacePair_cons_of_ne {x : Char} (other : x ≠ a) (cs : List Char) :
    replacePair a b rep (x :: cs) = x :: replacePair a b rep cs := by
  cases cs with
  | nil => rfl
  | cons y rest => simp [replacePair, other]

theorem replacePair_cons_of_head_ne {x : Char} {cs : List Char} (other : cs.head? ≠ some b) :
    replacePair a b rep (x :: cs) = x :: replacePair a b rep cs := by
  cases cs with
  | nil => rfl
  | cons y rest =>
    have differ : y ≠ b := fun same => other (by simp [same])
    simp [replacePair, differ]

theorem replacePair_match (rest : List Char) :
    replacePair a b rep (a :: b :: rest) = rep ++ replacePair a b rep rest := by
  simp [replacePair]

end ReplacePair

theorem head?_escape_ne_quote (cs : List Char) : (cs.flatMap escapeChar).head? ≠ some '"' := by
  cases cs with
  | nil => simp
  | cons c rest =>
    by_cases backslash : c = '\\'
    · simp [backslash]
    · by_cases quote : c = '"'
      · simp [quote]
      · simp [escapeChar_of_ne backslash quote, quote]

theorem replacePair_quote_escape (cs : List Char) :
    replacePair '\\' '"' ['"'] (cs.flatMap escapeChar) = cs.flatMap doubleBackslash := by
  induction cs with
  | nil => rfl
  | cons c rest ih =>
    by_cases backslash : c = '\\'
    · subst backslash
      simp only [List.flatMap_cons, escapeChar_backslash, doubleBackslash_backslash, List.cons_append,
        List.nil_append]
      rw [replacePair_cons_of_head_ne (by simp), replacePair_cons_of_head_ne
        (head?_escape_ne_quote rest), ih]
    · by_cases quote : c = '"'
      · subst quote
        simp only [List.flatMap_cons, escapeChar_quote, doubleBackslash_of_ne backslash,
          List.cons_append, List.nil_append, replacePair_match, ih]
      · simp only [List.flatMap_cons, escapeChar_of_ne backslash quote, doubleBackslash_of_ne backslash,
          List.cons_append, List.nil_append]
        rw [replacePair_cons_of_ne backslash, ih]

theorem replacePair_backslash_double (cs : List Char) :
    replacePair '\\' '\\' ['\\'] (cs.flatMap doubleBackslash) = cs := by
  induction cs with
  | nil => rfl
  | cons c rest ih =>
    by_cases backslash : c = '\\'
    · subst backslash
      simp only [List.flatMap_cons, doubleBackslash_backslash, List.cons_append, List.nil_append,
        replacePair_match, ih]
    · simp only [List.flatMap_cons, doubleBackslash_of_ne backslash, List.cons_append,
        List.nil_append]
      rw [replacePair_cons_of_ne backslash, ih]

theorem unescape_quoted_escape (value : String) :
    unescape (String.ofList ('"' :: (escape value).toList ++ ['"'])) = value := by
  simp only [unescape, String.toList_ofList, List.cons_append, List.drop_succ_cons, List.drop_zero,
    List.dropLast_concat, toList_escape, replacePair_quote_escape, replacePair_backslash_double,
    String.ofList_toList]

theorem stringBody_escape (cs more : List Char) (n : Nat) :
    stringBody (cs.flatMap escapeChar ++ '"' :: more) n = some (n + (cs.flatMap escapeChar).length) := by
  induction cs generalizing n with
  | nil => simp [stringBody]
  | cons c rest ih =>
    by_cases backslash : c = '\\'
    · subst backslash
      simp only [List.flatMap_cons, escapeChar_backslash, List.cons_append, List.nil_append,
        stringBody, ih, List.length_cons, Option.some.injEq]
      omega
    · by_cases quote : c = '"'
      · subst quote
        simp only [List.flatMap_cons, escapeChar_quote, List.cons_append, List.nil_append,
          stringBody, ih, List.length_cons, Option.some.injEq]
        omega
      · simp only [List.flatMap_cons, escapeChar_of_ne backslash quote, List.cons_append,
          List.nil_append]
        rw [stringBody.eq_4 _ _ _ (fun _ same => absurd same backslash)
          (fun _ same => absurd same backslash) quote, ih]
        simp only [List.length_cons, Option.some.injEq]
        omega

end Pgn

end Chess
