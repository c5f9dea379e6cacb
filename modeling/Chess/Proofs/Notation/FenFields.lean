import Chess.Notation.Fen
import Chess.Proofs.Except
import Mathlib

namespace Chess

/-! The fields of a FEN text after the placement, one at a time. Each reader takes back what
writing gives, whatever follows it, and a field in the form writing gives is the written form
of what its reader takes from it. Clocks are written in decimal without leading zeros,
castling rights as `KQkq` letters or `-`, the en-passant square by file letter and rank digit. -/

theorem File.ofChar?_letter (f : File) : File.ofChar? f.letter = some f := by
  obtain ⟨i⟩ := f
  fin_cases i <;> rfl

theorem File.letter_of_ofChar? {c : Char} {f : File} (read : File.ofChar? c = some f) :
    f.letter = c := by
  unfold File.ofChar? at read
  split at read
  · rename_i bounds
    cases read
    simp only [File.letter]
    rw [show 'a'.toNat + (c.toNat - 'a'.toNat) = c.toNat by omega, Char.ofNat_toNat]
  · cases read

theorem Rank.ofChar?_digit (r : Rank) : Rank.ofChar? r.digit = some r := by
  obtain ⟨i⟩ := r
  fin_cases i <;> rfl

theorem Rank.digit_of_ofChar? {c : Char} {r : Rank} (read : Rank.ofChar? c = some r) :
    r.digit = c := by
  unfold Rank.ofChar? at read
  split at read
  · rename_i bounds
    cases read
    simp only [Rank.digit]
    rw [show '1'.toNat + (c.toNat - '1'.toNat) = c.toNat by omega, Char.ofNat_toNat]
  · cases read

namespace Fen

/-! ### Decimal numerals -/

def Numeral (ds : List Char) : Prop :=
  ds ≠ [] ∧ (∀ d ∈ ds, d.isDigit = true) ∧ (ds.head? = some '0' → ds = ['0'])

theorem toNat_bounds_of_isDigit {d : Char} (digit : d.isDigit = true) :
    48 ≤ d.toNat ∧ d.toNat ≤ 57 := by
  simp only [Char.isDigit, Bool.and_eq_true, decide_eq_true_eq] at digit
  exact digit

theorem digitChar_sub_zero {d : Char} (digit : d.isDigit = true) :
    Nat.digitChar (d.toNat - '0'.toNat) = d := by
  have bounds := toNat_bounds_of_isDigit digit
  obtain ⟨k, small, rfl⟩ : ∃ k < 10, d = Char.ofNat (48 + k) :=
    ⟨d.toNat - 48, by omega, by rw [show 48 + (d.toNat - 48) = d.toNat by omega, Char.ofNat_toNat]⟩
  interval_cases k <;> rfl

theorem toNat_digitChar_sub_zero {k : Nat} (small : k < 10) :
    (Nat.digitChar k).toNat - '0'.toNat = k := by
  interval_cases k <;> rfl

theorem isDigit_of_mem_toDigits {n : Nat} {d : Char} (member : d ∈ Nat.toDigits 10 n) :
    d.isDigit = true := by
  induction n using Nat.strong_induction_on with
  | _ n ih =>
    rw [Nat.toDigits_eq_if (by decide)] at member
    split at member
    · rename_i small
      rw [List.mem_singleton.mp member, Nat.isDigit_digitChar, decide_eq_true small]
    · rw [List.mem_append, List.mem_singleton] at member
      rcases member with inner | last
      · exact ih (n / 10) (by omega) inner
      · rw [last, Nat.isDigit_digitChar, decide_eq_true (Nat.mod_lt n (by decide))]

theorem eq_zero_of_head?_toDigits {n : Nat} (head : (Nat.toDigits 10 n).head? = some '0') :
    n = 0 := by
  induction n using Nat.strong_induction_on with
  | _ n ih =>
    rw [Nat.toDigits_eq_if (by decide)] at head
    split at head
    · rename_i small
      simp only [List.head?_cons, Option.some.injEq] at head
      interval_cases n <;> simp_all [Nat.digitChar]
    · rename_i large
      rw [List.head?_append_of_ne_nil _ Nat.toDigits_ne_nil] at head
      have zero := ih (n / 10) (by omega) head
      omega

theorem numeral_toDigits (n : Nat) : Numeral (Nat.toDigits 10 n) := by
  refine ⟨Nat.toDigits_ne_nil, fun _ member => isDigit_of_mem_toDigits member, fun head => ?_⟩
  rw [eq_zero_of_head?_toDigits head]
  rfl

theorem ofDigitChars_append_singleton (ds : List Char) (d : Char) :
    Nat.ofDigitChars 10 (ds ++ [d]) 0 = 10 * Nat.ofDigitChars 10 ds 0 + (d.toNat - '0'.toNat) := by
  rw [Nat.ofDigitChars_append, Nat.ofDigitChars_cons, Nat.ofDigitChars_nil]

theorem head?_ne_zero_of_numeral {pre : List Char} {d : Char} (nonempty : pre ≠ [])
    (leading : (pre ++ [d]).head? = some '0' → pre ++ [d] = ['0']) : pre.head? ≠ some '0' := by
  intro head
  have front : (pre ++ [d]).head? = pre.head? := List.head?_append_of_ne_nil _ nonempty
  rw [← front] at head
  rcases List.append_eq_singleton_iff.mp (leading head) with ⟨empty, -⟩ | ⟨-, empty⟩
  · exact nonempty empty
  · cases empty

theorem toDigits_ofDigitChars {ds : List Char} (numeral : Numeral ds) :
    Nat.toDigits 10 (Nat.ofDigitChars 10 ds 0) = ds := by
  obtain ⟨nonempty, digits, leading⟩ := numeral
  induction ds using List.reverseRecOn with
  | nil => exact absurd rfl nonempty
  | append_singleton pre d ih =>
    have last := digits d (by simp)
    have small : d.toNat - '0'.toNat < 10 := by
      have bounds := toNat_bounds_of_isDigit last
      have zero : '0'.toNat = 48 := rfl
      omega
    rw [ofDigitChars_append_singleton, Nat.toDigits_eq_if (by decide)]
    by_cases empty : pre = []
    · subst empty
      rw [Nat.ofDigitChars_nil, Nat.mul_zero, Nat.zero_add, if_pos small, digitChar_sub_zero last]
      rfl
    have headNonzero := head?_ne_zero_of_numeral empty leading
    have front : Nat.toDigits 10 (Nat.ofDigitChars 10 pre 0) = pre :=
      ih empty (fun _ member => digits _ (List.mem_append_left _ member))
        fun head => absurd head headNonzero
    have positive : Nat.ofDigitChars 10 pre 0 ≠ 0 := by
      intro zero
      rw [zero] at front
      exact headNonzero (by rw [← front]; rfl)
    rw [if_neg (by omega), show (10 * Nat.ofDigitChars 10 pre 0 + (d.toNat - '0'.toNat)) / 10 =
      Nat.ofDigitChars 10 pre 0 by omega, front, show (10 * Nat.ofDigitChars 10 pre 0 +
      (d.toNat - '0'.toNat)) % 10 = d.toNat - '0'.toNat by omega, digitChar_sub_zero last]

/-! ### Clocks -/

theorem clockValue?_eq (ds : List Char) : clockValue? ds =
    if Nat.ofDigitChars 10 ds 0 < 4294967296 then some (Nat.ofDigitChars 10 ds 0).toUInt32
    else none := by
  have fold : (fun n d => n * 10 + (Char.toNat d - Char.toNat '0')) =
      fun n d => 10 * n + (Char.toNat d - Char.toNat '0') := by
    funext n d
    rw [Nat.mul_comm]
  unfold clockValue? Nat.ofDigitChars
  rw [fold]

theorem clockValue?_toDigits (v : UInt32) : clockValue? (Nat.toDigits 10 v.toNat) = some v := by
  rw [clockValue?_eq, Nat.ofDigitChars_ten_toDigits, if_pos v.toNat_lt, Nat.toUInt32_eq,
    UInt32.ofNat_toNat]

theorem toDigits_of_clockValue? {ds : List Char} {v : UInt32} (numeral : Numeral ds)
    (value : clockValue? ds = some v) : Nat.toDigits 10 v.toNat = ds := by
  rw [clockValue?_eq] at value
  split at value
  · rename_i small
    cases value
    rw [Nat.toUInt32_eq, UInt32.toNat_ofNat', Nat.mod_eq_of_lt small, toDigits_ofDigitChars numeral]
  · cases value

/-! ### Reading one character -/

@[simp] theorem peek_run (c : Char) (cs : List Char) : peek.run (c :: cs) = .ok (c, c :: cs) := rfl

@[simp] theorem advance_run (c : Char) (cs : List Char) : advance.run (c :: cs) = .ok ((), cs) :=
  rfl

@[simp] theorem expect_run (c : Char) (cs : List Char) : (expect c).run (c :: cs) = .ok ((), cs) := by
  simp [expect]

theorem eq_cons_of_expect_run {c : Char} {cs r : List Char} {u : Unit}
    (run : (expect c).run cs = .ok (u, r)) : cs = c :: r := by
  match cs with
  | [] => cases run
  | d :: rest =>
    by_cases same : d = c
    · subst same
      rw [expect_run] at run
      cases run
      rfl
    · simp [expect, same] at run

theorem eq_of_append_cons {P : Char → Prop} {a b : Char} (stopA : ¬P a) (stopB : ¬P b) :
    ∀ {p q r s : List Char}, (∀ x ∈ p, P x) → (∀ x ∈ q, P x) → p ++ a :: r = q ++ b :: s →
      p = q ∧ r = s
  | [], [], _, _, _, _, same => by
    simp only [List.nil_append, List.cons.injEq] at same
    exact ⟨rfl, same.2⟩
  | [], x :: q, _, _, _, inQ, same => by
    simp only [List.nil_append, List.cons_append, List.cons.injEq] at same
    exact absurd (same.1 ▸ inQ x List.mem_cons_self) stopA
  | x :: p, [], _, _, inP, _, same => by
    simp only [List.nil_append, List.cons_append, List.cons.injEq] at same
    exact absurd (same.1 ▸ inP x List.mem_cons_self) stopB
  | x :: p, y :: q, _, _, inP, inQ, same => by
    simp only [List.cons_append, List.cons.injEq] at same
    obtain ⟨front, rest⟩ := eq_of_append_cons stopA stopB
      (fun z member => inP z (List.mem_cons_of_mem x member))
      (fun z member => inQ z (List.mem_cons_of_mem y member)) same.2
    exact ⟨by rw [same.1, front], rest⟩

/-! ### The half-move clock -/

def digitStep (digits : Array Char) : Reader (ForInStep (Array Char)) := do
  let c ← peek
  if !c.isDigit then pure (.done digits)
  else
    advance
    pure (.yield (digits.push c))

theorem readHalfmove_eq : readHalfmove = (do
    let cs ← get
    let digits ← forIn (List.range (cs.length + 1)) #[] fun _ digits => digitStep digits
    if digits.isEmpty then throw FenError.emptyHalfmove
    match clockValue? digits.toList with
    | some n => pure n
    | none => throw FenError.invalidHalfmove) := rfl

theorem digitStep_run_digit (acc : Array Char) {d : Char} (digit : d.isDigit = true)
    (cs : List Char) : (digitStep acc).run (d :: cs) = .ok (.yield (acc.push d), cs) := by
  simp [digitStep, digit]

theorem digitStep_run_stop (acc : Array Char) {c : Char} (stop : c.isDigit = false)
    (cs : List Char) : (digitStep acc).run (c :: cs) = .ok (.done acc, c :: cs) := by
  simp [digitStep, stop]

theorem forIn_digitStep_run {c : Char} (stop : c.isDigit = false) (more : List Char) :
    ∀ (ds : List Char), (∀ d ∈ ds, d.isDigit = true) → ∀ (l : List Nat) (acc : Array Char),
      ds.length < l.length →
      (forIn l acc fun _ digits => digitStep digits).run (ds ++ c :: more) =
        .ok ((acc.toList ++ ds).toArray, c :: more)
  | [], _, i :: l, acc, _ => by
    simp [List.forIn_cons, digitStep_run_stop acc stop]
  | d :: ds, digits, i :: l, acc, room => by
    have digit := digits d List.mem_cons_self
    have rest := forIn_digitStep_run stop more ds
      (fun x member => digits x (List.mem_cons_of_mem d member))
      l (acc.push d) (by simp at room; omega)
    simp only [List.forIn_cons, StateT.run_bind, List.cons_append, digitStep_run_digit acc digit,
      Except.ok_bind]
    rw [rest]
    simp

theorem forIn_digitStep_run_inv :
    ∀ (l : List Nat) (acc : Array Char) (cs : List Char) {digits : Array Char} {r : List Char},
      (forIn l acc fun _ digits => digitStep digits).run cs = .ok (digits, r) →
      ∃ ds, cs = ds ++ r ∧ digits.toList = acc.toList ++ ds ∧ (∀ d ∈ ds, d.isDigit = true) ∧
        (ds.length = l.length ∨ ∃ c rest, r = c :: rest ∧ c.isDigit = false)
  | [], acc, cs, _, _, run => by
    simp only [List.forIn_nil] at run
    cases run
    exact ⟨[], by simp, by simp, by simp, Or.inl rfl⟩
  | i :: l, acc, [], _, _, run => by
    simp [List.forIn_cons, digitStep, peek] at run
  | i :: l, acc, c :: cs, _, _, run => by
    cases digit : c.isDigit
    · simp only [List.forIn_cons, StateT.run_bind, digitStep_run_stop acc digit,
        Except.ok_bind] at run
      cases run
      exact ⟨[], by simp, by simp, by simp, Or.inr ⟨c, cs, rfl, digit⟩⟩
    · simp only [List.forIn_cons, StateT.run_bind, digitStep_run_digit acc digit,
        Except.ok_bind] at run
      obtain ⟨ds, rfl, taken, digits, stopped⟩ := forIn_digitStep_run_inv l (acc.push c) cs run
      refine ⟨c :: ds, rfl, by simp [taken], ?_, ?_⟩
      · intro d member
        rcases List.mem_cons.mp member with rfl | inner
        · exact digit
        · exact digits d inner
      · rcases stopped with same | stopped
        · exact Or.inl (by simp [same])
        · exact Or.inr stopped

theorem readHalfmove_run (v : UInt32) {c : Char} (stop : c.isDigit = false) (more : List Char) :
    readHalfmove.run (Nat.toDigits 10 v.toNat ++ c :: more) = .ok (v, c :: more) := by
  have loop := forIn_digitStep_run stop more (Nat.toDigits 10 v.toNat)
    (fun _ member => isDigit_of_mem_toDigits member)
    (List.range ((Nat.toDigits 10 v.toNat ++ c :: more).length + 1)) #[] (by simp)
  rw [readHalfmove_eq]
  simp only [StateT.run_bind, StateT.run_get, pure_bind]
  rw [loop]
  simp [Nat.toDigits_ne_nil, clockValue?_toDigits]

theorem readHalfmove_run_inv {cs r : List Char} {v : UInt32} (run : readHalfmove.run cs = .ok (v, r)) :
    ∃ ds c rest, cs = ds ++ r ∧ r = c :: rest ∧ c.isDigit = false ∧ (∀ d ∈ ds, d.isDigit = true) ∧
      clockValue? ds = some v := by
  rw [readHalfmove_eq] at run
  simp only [StateT.run_bind, StateT.run_get, pure_bind] at run
  obtain ⟨⟨digits, r'⟩, loop, finish⟩ := Except.bind_eq_ok.mp run
  obtain ⟨ds, rfl, taken, isDigits, stopped⟩ := forIn_digitStep_run_inv _ #[] cs loop
  simp only [List.nil_append] at taken
  obtain ⟨c, rest, rfl, stop⟩ : ∃ c rest, r' = c :: rest ∧ c.isDigit = false := by
    rcases stopped with exhausted | stopped
    · simp at exhausted
      omega
    · exact stopped
  rw [taken] at finish
  by_cases empty : digits = #[]
  · simp [empty] at finish
  cases value : clockValue? ds with
  | none => simp [empty, value] at finish
  | some n =>
    simp only [value] at finish
    have nonempty : ¬digits.isEmpty = true := by simpa [Array.isEmpty_iff] using empty
    rw [if_neg nonempty, StateT.run_pure, Except.pure_eq_ok] at finish
    cases finish
    exact ⟨ds, c, rest, rfl, rfl, stop, isDigits, value⟩

/-! ### The full-move number -/

theorem readFullmove_run (v : UInt32) : readFullmove.run (Nat.toDigits 10 v.toNat) = .ok (v, []) := by
  have whole : (Nat.toDigits 10 v.toNat).takeWhile Char.isDigit = Nat.toDigits 10 v.toNat :=
    List.takeWhile_eq_self_iff.mpr fun _ member => isDigit_of_mem_toDigits member
  simp only [readFullmove, StateT.run_bind, StateT.run_get, pure_bind, whole]
  simp [Nat.toDigits_ne_nil, clockValue?_toDigits, List.drop_eq_nil_of_le (Nat.le_succ _)]

theorem clockValue?_of_readFullmove_run {ds r : List Char} {v : UInt32}
    (digits : ∀ d ∈ ds, d.isDigit = true) (run : readFullmove.run ds = .ok (v, r)) :
    clockValue? ds = some v := by
  have whole : ds.takeWhile Char.isDigit = ds := List.takeWhile_eq_self_iff.mpr digits
  simp only [readFullmove, StateT.run_bind, StateT.run_get, pure_bind, whole] at run
  by_cases empty : ds = []
  · simp [empty] at run
  cases value : clockValue? ds with
  | none => simp [empty, value] at run
  | some n =>
    simp [empty, value] at run
    rw [run.1]

/-! ### Castling rights -/

theorem readCastling_run (st : Setup) (rights : CastleRights) (more : List Char) :
    (readCastling st).run (rights.letters.toList ++ ' ' :: more) = .ok (rights, ' ' :: more) := by
  obtain ⟨_ | _, _ | _, _ | _, _ | _⟩ := rights <;> rfl

def CastlingField (cs : List Char) : Prop :=
  cs = ['-'] ∨ cs ≠ [] ∧ cs.Sublist ['K', 'Q', 'k', 'q']

theorem exists_letters_of_castlingField {cs : List Char} (field : CastlingField cs) :
    ∃ rights : CastleRights, rights.letters.toList = cs := by
  rcases field with rfl | ⟨nonempty, sub⟩
  · exact ⟨{}, rfl⟩
  have member := List.mem_sublists.mpr sub
  simp [List.sublists] at member
  refine ⟨⟨decide ('K' ∈ cs), decide ('Q' ∈ cs), decide ('k' ∈ cs), decide ('q' ∈ cs)⟩, ?_⟩
  rcases member with rfl | rfl | rfl | rfl | rfl | rfl | rfl | rfl | rfl | rfl | rfl | rfl | rfl |
    rfl | rfl | rfl
  all_goals first | exact absurd rfl nonempty | rfl

/-! ### The en-passant square -/

/-- The en-passant field as writing gives it: `-`, or the square passed over, on the rank
the side to move would capture onto. -/
def enPassantText (side : Color) : Option File → List Char
  | none => ['-']
  | some f => [f.letter, (Rank.enPassantTarget side).digit]

theorem space_not_mem_enPassantText (side : Color) (ep : Option File) :
    ' ' ∉ enPassantText side ep := by
  rcases ep with _ | ⟨⟨i⟩⟩
  · simp [enPassantText]
  · cases side <;> fin_cases i <;> decide

theorem readEnPassant_run (side : Color) (ep : Option File) (more : List Char) :
    (readEnPassant side).run (enPassantText side ep ++ ' ' :: more) = .ok (ep, ' ' :: more) := by
  rcases ep with _ | ⟨⟨i⟩⟩
  · rfl
  · cases side <;> fin_cases i <;> rfl

theorem readEnPassant_run_inv {side : Color} {cs r : List Char} {ep : Option File}
    (run : (readEnPassant side).run cs = .ok (ep, r)) : cs = enPassantText side ep ++ r := by
  match cs with
  | [] => simp [readEnPassant, peek] at run
  | c :: rest =>
    by_cases dash : c = '-'
    · subst dash
      simp [readEnPassant] at run
      obtain ⟨rfl, rfl⟩ := run
      rfl
    cases fileRead : File.ofChar? c with
    | none => simp [readEnPassant, dash, fileRead] at run
    | some file =>
      match rest with
      | [] => simp [readEnPassant, dash, fileRead, peek] at run
      | d :: rest =>
        cases rankRead : Rank.ofChar? d with
        | none => simp [readEnPassant, dash, fileRead, rankRead] at run
        | some rank =>
          by_cases target : rank = Rank.enPassantTarget side
          · subst target
            simp [readEnPassant, dash, fileRead, rankRead] at run
            obtain ⟨rfl, rfl⟩ := run
            simp [enPassantText, File.letter_of_ofChar? fileRead, Rank.digit_of_ofChar? rankRead]
          · simp [readEnPassant, dash, fileRead, rankRead, target] at run

end Fen

end Chess
