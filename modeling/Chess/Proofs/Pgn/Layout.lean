import Chess.Pgn.Game

namespace Chess

namespace Pgn

/-! The layout of movetext. Laid out, tokens follow one another in order, each after the gap
its neighbours allow: nothing after `(` or before `)`, otherwise one space or, where the line
would grow past 79 columns, one line break; a line break ends the text. -/

/-- The gap between two laid-out tokens: nothing after `(` or before `)`, otherwise one space
or one line break. -/
def Gap (before after : String) (sep : List Char) : Prop :=
  ((before = "(" ∨ after = ")") ∧ sep = []) ∨
    (¬(before = "(" ∨ after = ")") ∧ (sep = [' '] ∨ sep = ['\n']))

/-- The characters `cs` lay the tokens `ts` out after the token `prev`: each token after the
gap it leaves with the one before. -/
inductive LaidAfter : String → List String → List Char → Prop
  | nil (prev : String) : LaidAfter prev [] []
  | cons {prev t : String} {ts : List String} {sep cs : List Char} (gap : Gap prev t sep)
      (rest : LaidAfter t ts cs) : LaidAfter prev (t :: ts) (sep ++ t.toList ++ cs)

theorem layoutStep_cases (out : String) {lineLen : Nat} (begun : 0 < lineLen) (glue : Bool)
    (t : String) :
    ((glue = true ∨ t = ")") ∧
        layoutStep (out, lineLen, glue) t = (out ++ t, lineLen + t.utf8ByteSize, decide (t = "("))) ∨
      (¬(glue = true ∨ t = ")") ∧ lineLen + t.utf8ByteSize + 1 ≤ 79 ∧
        layoutStep (out, lineLen, glue) t =
          (out.push ' ' ++ t, lineLen + 1 + t.utf8ByteSize, decide (t = "("))) ∨
      (¬(glue = true ∨ t = ")") ∧ 79 < lineLen + t.utf8ByteSize + 1 ∧
        layoutStep (out, lineLen, glue) t = (out.push '\n' ++ t, t.utf8ByteSize, decide (t = "("))) := by
  by_cases glued : glue = true ∨ t = ")"
  · have attach : (glue || decide (t = ")")) = true := by
      rcases glued with same | same <;> simp [same]
    exact .inl ⟨glued, by simp [layoutStep, attach]⟩
  · have attach : (glue || decide (t = ")")) = false := by
      simp only [not_or] at glued
      simp [glued.1, glued.2]
    by_cases full : lineLen + t.utf8ByteSize + 1 > 79
    · exact .inr (.inr ⟨glued, full, by simp [layoutStep, attach, begun, full]⟩)
    · refine .inr (.inl ⟨glued, by omega, ?_⟩)
      simp [layoutStep, attach, begun, full]

theorem layoutStep_after {prev t : String} (nonempty : t ≠ "") (out : String) {lineLen : Nat}
    (begun : 0 < lineLen) :
    ∃ sep, Gap prev t sep ∧
      (layoutStep (out, lineLen, decide (prev = "(")) t).1.toList = out.toList ++ sep ++ t.toList ∧
      0 < (layoutStep (out, lineLen, decide (prev = "(")) t).2.1 ∧
      (layoutStep (out, lineLen, decide (prev = "(")) t).2.2 = decide (t = "(") := by
  have sized : 0 < t.utf8ByteSize :=
    Nat.pos_of_ne_zero fun zero => nonempty (String.utf8ByteSize_eq_zero_iff.mp zero)
  rcases layoutStep_cases out begun (decide (prev = "(")) t with
    ⟨glued, step⟩ | ⟨spaced, -, step⟩ | ⟨spaced, -, step⟩
  · refine ⟨[], .inl ⟨by simpa using glued, rfl⟩, by simp [step, String.toList_append], ?_,
      by simp [step]⟩
    rw [step]
    exact Nat.lt_add_right _ begun
  · refine ⟨[' '], .inr ⟨by simpa using spaced, .inl rfl⟩,
      by simp [step, String.toList_append, String.toList_push], ?_, by simp [step]⟩
    rw [step]
    exact Nat.add_pos_left (Nat.succ_pos lineLen) _
  · refine ⟨['\n'], .inr ⟨by simpa using spaced, .inr rfl⟩,
      by simp [step, String.toList_append, String.toList_push], ?_, by simp [step]⟩
    rw [step]
    exact sized

theorem foldl_layoutStep (prev : String) (ts : List String) (nonempty : ∀ t ∈ ts, t ≠ "")
    (out : String) {lineLen : Nat} (begun : 0 < lineLen) :
    ∃ cs, LaidAfter prev ts cs ∧
      (ts.foldl layoutStep (out, lineLen, decide (prev = "("))).1.toList = out.toList ++ cs := by
  induction ts generalizing prev out lineLen with
  | nil => exact ⟨[], .nil prev, by simp⟩
  | cons t rest ih =>
    obtain ⟨sep, gap, text, begun', glue⟩ :=
      layoutStep_after (nonempty t (List.mem_cons_self ..)) out begun
    obtain ⟨cs, laid, text'⟩ := ih t (fun x member => nonempty x (List.mem_cons_of_mem _ member))
      (layoutStep (out, lineLen, decide (prev = "(")) t).1 begun'
    have state : layoutStep (out, lineLen, decide (prev = "(")) t =
        ((layoutStep (out, lineLen, decide (prev = "(")) t).1,
          (layoutStep (out, lineLen, decide (prev = "(")) t).2.1, decide (t = "(")) := by
      rw [← glue]
    refine ⟨sep ++ t.toList ++ cs, .cons gap laid, ?_⟩
    rw [List.foldl_cons, state, text', text]
    simp

theorem layout_toList (t : String) (ts : List String) (nonempty : ∀ x ∈ t :: ts, x ≠ "") :
    ∃ cs, LaidAfter t ts cs ∧ (layout (t :: ts)).toList = t.toList ++ cs ++ ['\n'] := by
  have sized : 0 < t.utf8ByteSize :=
    Nat.pos_of_ne_zero fun zero => nonempty t (List.mem_cons_self ..)
      (String.utf8ByteSize_eq_zero_iff.mp zero)
  have first : layoutStep ("", 0, false) t = (t, t.utf8ByteSize, decide (t = "(")) := by
    simp [layoutStep]
  obtain ⟨cs, laid, text⟩ := foldl_layoutStep t ts
    (fun x member => nonempty x (List.mem_cons_of_mem _ member)) t sized
  refine ⟨cs, laid, ?_⟩
  rw [layout, List.foldl_cons, first, String.toList_append, text]
  simp

end Pgn

end Chess
