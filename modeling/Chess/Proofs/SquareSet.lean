import Mathlib
import Chess.SquareSet

namespace Chess

/-! Square sets through membership. Every operation on the packed word is described by what
it does to `contains`. Listing a set walks its word as a bit iterator does, and the walk hands
out exactly the set bits, in increasing order, one per step: later proofs reason about members
and never about bits. -/

namespace SquareSet

private theorem and_one_bne_zero (x : UInt64) : (x &&& 1 != 0) = x.toBitVec.getLsbD 0 := by
  have word : (x &&& 1).toBitVec = BitVec.setWidth 64 (BitVec.ofBool (x.toBitVec.getLsbD 0)) := by
    simp [BitVec.and_one_eq_setWidth_ofBool_getLsbD]
  cases bit : x.toBitVec.getLsbD 0 with
  | false =>
      rw [bit] at word
      have cleared : x &&& 1 = 0 := UInt64.toBitVec_inj.mp (by rw [word]; decide)
      simp [cleared]
  | true =>
      rw [bit] at word
      have set : x &&& 1 ≠ 0 := fun cleared => by
        have := congrArg UInt64.toBitVec cleared
        rw [word] at this
        exact absurd this (by decide)
      simp [set]

private theorem toNat_index_mod (s : Square) :
    (s.index.val.toUInt64.toBitVec % 64).toNat = s.index.val := by
  have bound := s.index.isLt
  simp [Nat.toUInt64]

theorem contains_eq_getLsbD (t : SquareSet) (s : Square) :
    t.contains s = t.bits.toBitVec.getLsbD s.index.val := by
  simp only [contains, and_one_bne_zero, UInt64.toBitVec_shiftRight, BitVec.ushiftRight_eq',
    BitVec.getLsbD_ushiftRight, toNat_index_mod, Nat.add_zero]

theorem ext {t u : SquareSet} (same : ∀ s, t.contains s = u.contains s) : t = u := by
  obtain ⟨bits⟩ := t
  obtain ⟨other⟩ := u
  congr
  apply UInt64.toBitVec_inj.mp
  apply BitVec.eq_of_getLsbD_eq
  intro i bound
  have := same ⟨⟨i, bound⟩⟩
  simpa [contains_eq_getLsbD] using this

@[simp] theorem contains_empty (s : Square) : empty.contains s = false := by
  simp [contains_eq_getLsbD, empty]

@[simp] theorem contains_single (t s : Square) : (single t).contains s = decide (s = t) := by
  rw [contains_eq_getLsbD]
  simp only [single, UInt64.toBitVec_shiftLeft, BitVec.shiftLeft_eq', toNat_index_mod]
  obtain ⟨⟨i, hi⟩⟩ := s
  obtain ⟨⟨j, hj⟩⟩ := t
  simp only [BitVec.getLsbD_shiftLeft, UInt64.toBitVec_one, BitVec.getLsbD_one]
  by_cases same : i = j
  · subst same
    simp [hi]
  · have differ : (⟨⟨i, hi⟩⟩ : Square) ≠ ⟨⟨j, hj⟩⟩ := fun h => same (by cases h; rfl)
    simp only [differ, decide_false]
    cases lt : decide (i < j) with
    | false =>
      simp_all
      omega
    | true => simp_all

@[simp] theorem contains_insert (t : SquareSet) (s x : Square) :
    (t.insert s).contains x = (t.contains x || decide (x = s)) := by
  rw [contains_eq_getLsbD, contains_eq_getLsbD, ← contains_single s x, contains_eq_getLsbD]
  simp [insert]

@[simp] theorem contains_erase (t : SquareSet) (s x : Square) :
    (t.erase s).contains x = (t.contains x && !decide (x = s)) := by
  rw [contains_eq_getLsbD, contains_eq_getLsbD, ← contains_single s x, contains_eq_getLsbD]
  simp [erase, x.index.isLt]

@[simp] theorem contains_union (t u : SquareSet) (x : Square) :
    (t ∪ u).contains x = (t.contains x || u.contains x) := by
  simp [contains_eq_getLsbD, Union.union, union]

@[simp] theorem contains_inter (t u : SquareSet) (x : Square) :
    (t ∩ u).contains x = (t.contains x && u.contains x) := by
  simp [contains_eq_getLsbD, Inter.inter, inter]

private theorem contains_foldl_insert (x : Square) :
    ∀ (squares : List Square) (acc : SquareSet),
      (squares.foldl insert acc).contains x = (acc.contains x || decide (x ∈ squares))
  | [], acc => by simp
  | s :: rest, acc => by
      rw [List.foldl_cons, contains_foldl_insert x rest]
      by_cases here : x = s <;> simp [here]

@[simp] theorem contains_ofList (squares : List Square) (x : Square) :
    (ofList squares).contains x = decide (x ∈ squares) := by
  simp [ofList, contains_foldl_insert]

@[simp] theorem contains_diff (t u : SquareSet) (x : Square) :
    (t \ u).contains x = (t.contains x && !u.contains x) := by
  simp [contains_eq_getLsbD, SDiff.sdiff, diff, x.index.isLt]

private theorem index_ofNat {n : Nat} (bound : n < 64) : (Square.ofNat n).index.val = n := by
  simp [Square.ofNat, Nat.mod_eq_of_lt bound]

/-! ### Walking the word

Listing a set steps through its word as a bit iterator does. A nonzero word is
`2 ^ (k + 1) * q + 2 ^ k` for its lowest set bit `k`, and one less is
`2 ^ (k + 1) * q + (2 ^ k - 1)`: the two agree above bit `k` and differ up to it. So the step
reads `k` off their exclusive or and clears bit `k` with their conjunction, and the walk hands
out the set bits in increasing order, one per step, until the word is zero. -/

def setIndices (w : UInt64) : List Nat := (List.range 64).filter w.toNat.testBit

theorem exists_lowBit {n : Nat} (positive : 0 < n) : ∃ k q, n = 2 ^ (k + 1) * q + 2 ^ k := by
  induction n using Nat.strongRecOn with
  | _ n ih =>
    rcases Nat.mod_two_eq_zero_or_one n with even | odd
    · obtain ⟨k, q, half⟩ := ih (n / 2) (by omega) (by omega)
      refine ⟨k + 1, q, ?_⟩
      have double : n = 2 * (n / 2) := by omega
      rw [double, half, Nat.pow_succ 2 (k + 1), Nat.pow_succ 2 k]
      grind
    · exact ⟨0, n / 2, by omega⟩

section LowBit

variable {k q : Nat}

private theorem two_pow_lt_two_pow_succ : 2 ^ k < 2 ^ (k + 1) :=
  Nat.pow_lt_pow_right (by decide) (by omega)

private theorem lowBit_sub_one :
    2 ^ (k + 1) * q + 2 ^ k - 1 = 2 ^ (k + 1) * q + (2 ^ k - 1) := by
  have := Nat.one_le_two_pow (n := k)
  omega

private theorem testBit_high_add {b : Nat} (small : b < 2 ^ (k + 1)) (i : Nat) :
    (2 ^ (k + 1) * q + b).testBit i = if i < k + 1 then b.testBit i else q.testBit (i - (k + 1)) :=
  Nat.testBit_two_pow_mul_add q small i

private theorem testBit_high (i : Nat) :
    (2 ^ (k + 1) * q).testBit i = if i < k + 1 then false else q.testBit (i - (k + 1)) := by
  simpa using testBit_high_add (k := k) (q := q) (b := 0) (Nat.two_pow_pos _) i

theorem lowBit_and_sub_one :
    (2 ^ (k + 1) * q + 2 ^ k) &&& (2 ^ (k + 1) * q + 2 ^ k - 1) = 2 ^ (k + 1) * q := by
  rw [lowBit_sub_one]
  apply Nat.eq_of_testBit_eq
  intro i
  rw [Nat.testBit_and, testBit_high_add two_pow_lt_two_pow_succ,
    testBit_high_add (Nat.lt_of_le_of_lt (Nat.sub_le _ 1) two_pow_lt_two_pow_succ), testBit_high]
  split
  · rw [Nat.testBit_two_pow, Nat.testBit_two_pow_sub_one]
    by_cases here : k = i <;> simp [here]
  · exact Bool.and_self _

theorem lowBit_xor_sub_one :
    (2 ^ (k + 1) * q + 2 ^ k) ^^^ (2 ^ (k + 1) * q + 2 ^ k - 1) = 2 ^ (k + 1) - 1 := by
  rw [lowBit_sub_one]
  apply Nat.eq_of_testBit_eq
  intro i
  rw [Nat.testBit_xor, testBit_high_add two_pow_lt_two_pow_succ,
    testBit_high_add (Nat.lt_of_le_of_lt (Nat.sub_le _ 1) two_pow_lt_two_pow_succ),
    Nat.testBit_two_pow_sub_one]
  split
  · rw [Nat.testBit_two_pow, Nat.testBit_two_pow_sub_one]
    by_cases here : k = i
    · simp [here]
    · simp [here]
      omega
  · simp [*]

theorem filter_range_lowBit (n : Nat) :
    (List.range n).filter (2 ^ (k + 1) * q + 2 ^ k).testBit =
      (if k < n then [k] else []) ++ (List.range n).filter (2 ^ (k + 1) * q).testBit := by
  induction n with
  | zero => simp
  | succ n ih =>
    have bits : (2 ^ (k + 1) * q + 2 ^ k).testBit n =
        (decide (n = k) || (2 ^ (k + 1) * q).testBit n) := by
      rw [testBit_high_add two_pow_lt_two_pow_succ, testBit_high, Nat.testBit_two_pow]
      split <;> simp <;> omega
    rw [List.range_succ, List.filter_append, List.filter_append, ih, List.filter_cons, List.filter_nil,
      List.filter_cons, List.filter_nil, bits]
    rcases Nat.lt_trichotomy n k with below | rfl | above
    · have high : (2 ^ (k + 1) * q).testBit n = false := by
        rw [testBit_high]
        simp [show n < k + 1 by omega]
      simp [high, show n ≠ k by omega, show ¬k < n by omega, show ¬k < n + 1 by omega]
    · have clear : ∀ i ≤ n, (2 ^ (n + 1) * q).testBit i = false := fun i le => by
        rw [testBit_high]
        simp [show i < n + 1 by omega]
      have empty : (List.range n).filter (2 ^ (n + 1) * q).testBit = [] :=
        List.filter_eq_nil_iff.mpr fun i member => by
          simp [clear i (Nat.le_of_lt (List.mem_range.mp member))]
      simp [clear n (Nat.le_refl n), empty]
    · simp [show n ≠ k by omega, show k < n by omega, show k < n + 1 by omega]

end LowBit

theorem exists_lowBit_word {w : UInt64} (nonzero : w ≠ 0) :
    ∃ k q, k < 64 ∧ w.toNat = 2 ^ (k + 1) * q + 2 ^ k := by
  have positive : 0 < w.toNat := by
    rcases Nat.eq_zero_or_pos w.toNat with zero | positive
    · exact absurd (UInt64.toNat_inj.mp (by simpa using zero)) nonzero
    · exact positive
  obtain ⟨k, q, split⟩ := exists_lowBit positive
  have bound : 2 ^ k < 2 ^ 64 := by
    have := w.toNat_lt
    omega
  exact ⟨k, q, (Nat.pow_lt_pow_iff_right (by decide)).mp bound, split⟩

section Word

variable {w : UInt64} {k q : Nat} (split : w.toNat = 2 ^ (k + 1) * q + 2 ^ k)
include split

private theorem toNat_sub_one_of_lowBit : (w - 1).toNat = w.toNat - 1 := by
  have one : (1 : UInt64) ≤ w := by
    rw [UInt64.le_iff_toNat_le, UInt64.toNat_one, split]
    have := Nat.one_le_two_pow (n := k)
    omega
  rw [UInt64.toNat_sub_of_le _ _ one, UInt64.toNat_one]

theorem trailingZeros_eq : trailingZeros w = k := by
  have mask : (w ^^^ (w - 1)).toNat = 2 ^ (k + 1) - 1 := by
    rw [UInt64.toNat_xor, toNat_sub_one_of_lowBit split, split, lowBit_xor_sub_one]
  change Nat.log2 (w ^^^ (w - 1)).toNat = k
  rw [mask, Nat.log2_eq_iff (by have := Nat.one_le_two_pow (n := k + 1); omega)]
  constructor
  · rw [Nat.pow_succ]
    have := Nat.one_le_two_pow (n := k)
    omega
  · have := Nat.one_le_two_pow (n := k + 1)
    omega

theorem toNat_and_sub_one : (w &&& (w - 1)).toNat = 2 ^ (k + 1) * q := by
  rw [UInt64.toNat_and, toNat_sub_one_of_lowBit split, split, lowBit_and_sub_one]

theorem setIndices_eq_cons (low : k < 64) : setIndices w = k :: setIndices (w &&& (w - 1)) := by
  rw [setIndices, setIndices, split, filter_range_lowBit, toNat_and_sub_one split, if_pos low]
  rfl

end Word

theorem setIndices_zero : setIndices 0 = [] := by
  simp [setIndices]

theorem next?_eq (t : SquareSet) :
    (t.bits = 0 ∧ t.next? = none) ∨ ∃ k rest, setIndices t.bits = k :: setIndices rest.bits ∧
      t.next? = some (Square.ofNat k, rest) := by
  by_cases zero : t.bits = 0
  · exact Or.inl ⟨zero, by simp [next?, zero]⟩
  · obtain ⟨k, q, low, split⟩ := exists_lowBit_word zero
    refine Or.inr ⟨k, ⟨t.bits &&& (t.bits - 1)⟩, setIndices_eq_cons split low, ?_⟩
    simp [next?, zero, trailingZeros_eq split]

theorem drain_eq : ∀ (n : Nat) (t : SquareSet), (setIndices t.bits).length ≤ n →
    toList.drain n t = (setIndices t.bits).map Square.ofNat
  | 0, t, enough => by
    rw [List.length_eq_zero_iff.mp (Nat.le_zero.mp enough)]
    rfl
  | n + 1, t, enough => by
    rcases next?_eq t with ⟨zero, stop⟩ | ⟨k, rest, indices, step⟩
    · rw [zero, setIndices_zero]
      simp [toList.drain, stop]
    · rw [indices] at enough ⊢
      rw [toList.drain, step]
      show Square.ofNat k :: toList.drain n rest = _
      rw [drain_eq n rest (by simpa using enough)]
      rfl

private theorem cpopNatRec_eq_length (x : BitVec 64) (n : Nat) :
    x.cpopNatRec n 0 = ((List.range n).filter (x.getLsbD ·)).length := by
  induction n with
  | zero => rfl
  | succ n ih =>
    rw [BitVec.cpopNatRec_succ, BitVec.cpopNatRec_eq, ih, List.range_succ, List.filter_append,
      List.length_append, List.filter_cons, List.filter_nil]
    cases x.getLsbD n <;> rfl

theorem length_setIndices (w : UInt64) : (setIndices w).length = w.toBitVec.cpop.toNat := by
  rw [BitVec.toNat_cpop, cpopNatRec_eq_length, setIndices]
  rfl

theorem length_setIndices_le (w : UInt64) : (setIndices w).length ≤ 64 :=
  Nat.le_trans (List.length_filter_le _ _) (by simp)

theorem toList_eq (t : SquareSet) : t.toList = (setIndices t.bits).map Square.ofNat :=
  drain_eq 64 t (length_setIndices_le t.bits)

theorem mem_setIndices {w : UInt64} {i : Nat} : i ∈ setIndices w ↔ i < 64 ∧ w.toNat.testBit i := by
  simp [setIndices]

@[simp] theorem mem_toList (t : SquareSet) (x : Square) : x ∈ t.toList ↔ t.contains x = true := by
  rw [toList_eq, contains_eq_getLsbD, List.mem_map]
  constructor
  · rintro ⟨i, member, rfl⟩
    obtain ⟨bound, set⟩ := mem_setIndices.mp member
    rw [index_ofNat bound]
    exact set
  · intro set
    refine ⟨x.index.val, mem_setIndices.mpr ⟨x.index.isLt, set⟩, ?_⟩
    obtain ⟨⟨i, bound⟩⟩ := x
    simp [Square.ofNat, Nat.mod_eq_of_lt bound]

@[simp] theorem contains_filter (t : SquareSet) (p : Square → Bool) (x : Square) :
    (t.filter p).contains x = (t.contains x && p x) := by
  simp [filter]

theorem toList_pairwise (t : SquareSet) : t.toList.Pairwise (·.index < ·.index) := by
  rw [toList_eq, List.pairwise_map]
  refine (List.pairwise_lt_range.filter _).imp_of_mem fun {i j} first second less => ?_
  rw [Fin.lt_def, index_ofNat (mem_setIndices.mp first).1, index_ofNat (mem_setIndices.mp second).1]
  exact less

/-- Walking the word of a set hands out, one per step, the squares whose bits are set, in
increasing order of index, and stops after as many steps as the word has set bits, whatever
bound beyond that it is given; collecting the squares gives back the set. -/
theorem toList_walks_set_bits (v : UInt64) :
    (∀ n, v.toBitVec.cpop.toNat ≤ n → toList.drain n ⟨v⟩ = (SquareSet.mk v).toList) ∧
      (SquareSet.mk v).toList.length = v.toBitVec.cpop.toNat ∧
      (SquareSet.mk v).toList = ((List.range 64).filter v.toNat.testBit).map Square.ofNat ∧
      ofList (SquareSet.mk v).toList = ⟨v⟩ := by
  refine ⟨fun n enough => ?_, ?_, toList_eq _, ext fun x => by simp⟩
  · rw [toList_eq, drain_eq n _ (by rw [length_setIndices]; exact enough)]
  · rw [toList_eq, List.length_map, length_setIndices]

theorem toList_nodup (t : SquareSet) : t.toList.Nodup :=
  (toList_pairwise t).imp fun below same => by rw [same] at below; exact Fin.lt_irrefl _ below

@[simp] theorem isEmpty_iff (t : SquareSet) : t.isEmpty = true ↔ ∀ x, t.contains x = false := by
  constructor
  · intro empty x
    have cleared : t.bits = 0 := by simpa [isEmpty] using empty
    simp [contains_eq_getLsbD, cleared]
  · intro none
    have same : t = SquareSet.empty := ext fun x => by simp [none x]
    subst same
    rfl

end SquareSet

end Chess
