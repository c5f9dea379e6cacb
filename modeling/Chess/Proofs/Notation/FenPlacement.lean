import Chess.Proofs.Notation.FenFields

namespace Chess

/-! The placement field of FEN: ranks 8 to 1 separated by `/`, each rank piece letters and
digits that count empty squares. Reading takes back what writing gives, and a rank with no
two digits side by side is the written form of the letters it is read as. -/

theorem mod_eight_lt (n : Nat) : n % 8 < 8 := Nat.mod_lt _ (by decide)

theorem val_lt_eight (i : Fin 8) : i.val < 8 := i.isLt

namespace Setup

def rankLetters (st : Setup) (r : Fin 8) : List Char :=
  (List.finRange 8).map fun f => st.letterAt f r

def putLetter (st : Setup) (file : Nat) (rank : Fin 8) (c : Char) : Setup :=
  let f : Fin 8 := ⟨file % 8, mod_eight_lt file⟩
  { st with placement :=
      st.placement.set f ((st.placement.get f).set rank c (val_lt_eight rank)) (mod_eight_lt file) }

/-- The setup with the letters of a rank put from file `file` on; a space leaves its square
as it was. -/
def fillRank (st : Setup) (rank : Fin 8) : Nat → List Char → Setup
  | _, [] => st
  | file, c :: cs => (if c = ' ' then st else st.putLetter file rank c).fillRank rank (file + 1) cs

theorem letterAt_putLetter (st : Setup) (file : Nat) (rank f r : Fin 8) (c : Char) :
    (st.putLetter file rank c).letterAt f r =
      if f.val = file % 8 ∧ r = rank then c else st.letterAt f r := by
  unfold putLetter letterAt
  simp only [Vector.get_eq_getElem, Vector.getElem_set]
  by_cases sameFile : f.val = file % 8
  · by_cases sameRank : r = rank
    · simp [sameFile, sameRank]
    · have apart : rank.val ≠ r.val := fun same => sameRank (Fin.ext same.symm)
      simp [sameFile, sameRank, apart]
  · have apart : file % 8 ≠ f.val := fun same => sameFile same.symm
    simp [sameFile, apart]

theorem letterAt_fillRank (rank f r : Fin 8) :
    ∀ (L : List Char) (file : Nat) (st : Setup), file + L.length ≤ 8 →
      (st.fillRank rank file L).letterAt f r =
        if r = rank ∧ file ≤ f.val ∧ L.getD (f.val - file) ' ' ≠ ' ' then
          L.getD (f.val - file) ' '
        else st.letterAt f r
  | [], file, st, _ => by simp [fillRank]
  | c :: L, file, st, fits => by
    simp only [List.length_cons] at fits
    rw [fillRank, letterAt_fillRank rank f r L (file + 1) _ (by omega)]
    by_cases here : f.val = file
    · have letter : (c :: L).getD (f.val - file) ' ' = c := by simp [here]
      rw [letter, if_neg (by omega)]
      by_cases space : c = ' '
      · simp [space]
      · rw [if_neg space, letterAt_putLetter, Nat.mod_eq_of_lt (by omega : file < 8)]
        by_cases sameRank : r = rank <;> simp [here, sameRank, space]
    · by_cases after : file < f.val
      · have shifted : (c :: L).getD (f.val - file) ' ' = L.getD (f.val - (file + 1)) ' ' := by
          rw [show f.val - file = (f.val - (file + 1)) + 1 by omega]
          rfl
        rw [shifted]
        have away : (if c = ' ' then st else st.putLetter file rank c).letterAt f r =
            st.letterAt f r := by
          split
          · rfl
          · rw [letterAt_putLetter, if_neg (by rw [Nat.mod_eq_of_lt (by omega : file < 8)]; omega)]
        rw [away]
        have first : file + 1 ≤ f.val := after
        have second : file ≤ f.val := Nat.le_of_lt after
        simp only [first, second, true_and]
      · have away : (if c = ' ' then st else st.putLetter file rank c).letterAt f r =
            st.letterAt f r := by
          split
          · rfl
          · rw [letterAt_putLetter, if_neg (by rw [Nat.mod_eq_of_lt (by omega : file < 8)]; omega)]
        rw [away, if_neg (by omega), if_neg (by omega)]

theorem fillRank_eq_with (st : Setup) (rank : Fin 8) :
    ∀ (file : Nat) (L : List Char),
      st.fillRank rank file L = { st with placement := (st.fillRank rank file L).placement }
  | _, [] => rfl
  | file, c :: L => by
    rw [fillRank]
    split
    · exact fillRank_eq_with st rank (file + 1) L
    · rw [fillRank_eq_with (st.putLetter file rank c) rank (file + 1) L]
      rfl

theorem fillRank_replicate (st : Setup) (rank : Fin 8) (file k : Nat) (L : List Char) :
    st.fillRank rank file (List.replicate k ' ' ++ L) = st.fillRank rank (file + k) L := by
  induction k generalizing file with
  | zero => rfl
  | succ k ih =>
    rw [List.replicate_succ, List.cons_append, fillRank, if_pos rfl, ih, Nat.add_right_comm,
      Nat.add_assoc]

@[simp] theorem length_rankLetters (st : Setup) (r : Fin 8) : (st.rankLetters r).length = 8 := by
  simp [rankLetters]

theorem getElem_rankLetters (st : Setup) (r : Fin 8) (i : Nat) (h : i < (st.rankLetters r).length) :
    (st.rankLetters r)[i] = st.letterAt ⟨i, by simpa using h⟩ r := by
  simp [rankLetters]

theorem getD_rankLetters (st : Setup) (r f : Fin 8) :
    (st.rankLetters r).getD f.val ' ' = st.letterAt f r := by
  rw [List.getD_eq_getElem?_getD, List.getElem?_eq_getElem (by simp), getElem_rankLetters]
  rfl

theorem rankLetters_default (r : Fin 8) : ({} : Setup).rankLetters r = List.replicate 8 ' ' := by
  fin_cases r <;> rfl

theorem placement_eq_of_rankLetters {x y : Setup} (same : ∀ r, x.rankLetters r = y.rankLetters r) :
    x.placement = y.placement := by
  apply Vector.ext
  intro i hi
  apply Vector.ext
  intro j hj
  have square := congrArg (fun l => l.getD i ' ') (same ⟨j, hj⟩)
  rw [show i = (⟨i, hi⟩ : Fin 8).val from rfl, getD_rankLetters, getD_rankLetters] at square
  simpa [letterAt, Vector.get_eq_getElem] using square

theorem rankLetters_fillRank_of_ne {rank r : Fin 8} (other : r ≠ rank) (st : Setup) (file : Nat)
    (L : List Char) (fits : file + L.length ≤ 8) :
    (st.fillRank rank file L).rankLetters r = st.rankLetters r := by
  unfold rankLetters
  congr 1
  funext f
  rw [letterAt_fillRank rank f r L file st fits, if_neg (fun both => other both.1)]

theorem rankLetters_fillRank_blank {rank : Fin 8} {st : Setup}
    (blank : st.rankLetters rank = List.replicate 8 ' ') {L : List Char} (length : L.length = 8) :
    (st.fillRank rank 0 L).rankLetters rank = L := by
  apply List.ext_getElem (by simp [length])
  intro i inside inL
  have was : st.letterAt ⟨i, by simpa using inside⟩ rank = ' ' := by
    rw [← getElem_rankLetters st rank i (by simpa using inside)]
    simp only [blank, List.getElem_replicate]
  rw [getElem_rankLetters, letterAt_fillRank rank _ rank L 0 st (by omega), was]
  simp only [Nat.sub_zero, List.getD_eq_getElem?_getD, List.getElem?_eq_getElem inL,
    Option.getD_some]
  split <;> simp_all

end Setup

namespace Fen

def Letter (c : Char) : Prop := c = ' ' ∨ (pieceOfLetter? c).isSome

def runDigits (run : Nat) : List Char := if run = 0 then [] else Nat.toDigits 10 run

/-- A rank from its letters after `run` empty squares not yet written, each run of empty
squares written as its length. -/
def writeRank (run : Nat) : List Char → List Char
  | [] => runDigits run
  | c :: cs => if c = ' ' then writeRank (run + 1) cs else runDigits run ++ c :: writeRank 0 cs

def NoAdjacentDigits (cs : List Char) : Prop :=
  cs.IsChain fun c d => ¬(c.isDigit = true ∧ d.isDigit = true)

theorem pieceOfLetter?_of_isDigit {c : Char} (digit : c.isDigit = true) : pieceOfLetter? c = none := by
  have bounds := toNat_bounds_of_isDigit digit
  obtain ⟨k, small, rfl⟩ : ∃ k < 10, c = Char.ofNat (48 + k) :=
    ⟨c.toNat - 48, by omega, by rw [show 48 + (c.toNat - 48) = c.toNat by omega, Char.ofNat_toNat]⟩
  interval_cases k <;> rfl

theorem isDigit_eq_false_of_letter {c : Char} (letter : (pieceOfLetter? c).isSome) :
    c.isDigit = false := by
  cases digit : c.isDigit
  · rfl
  · rw [pieceOfLetter?_of_isDigit digit] at letter
    cases letter

theorem toNat_bounds_of_digit_range {c : Char} (range : ¬(c < '1' ∨ c > '8')) :
    49 ≤ c.toNat ∧ c.toNat ≤ 56 := by
  simp only [not_or, not_lt, gt_iff_lt, Char.le_def, UInt32.le_iff_toNat_le] at range
  exact range

theorem runDigits_of_pos {run : Nat} (pos : 0 < run) (small : run < 10) :
    runDigits run = [Nat.digitChar run] := by
  rw [runDigits, if_neg (by omega), Nat.toDigits_eq_if (by decide), if_pos small]

theorem writeRank_replicate (run k : Nat) (L : List Char) :
    writeRank run (List.replicate k ' ' ++ L) = writeRank (run + k) L := by
  induction k generalizing run with
  | zero => rfl
  | succ k ih => rw [List.replicate_succ, List.cons_append, writeRank, if_pos rfl, ih, Nat.add_assoc,
      Nat.add_comm 1 k]

theorem writeRank_of_head (run : Nat) {L : List Char} (head : ∀ c ∈ L.head?, c ≠ ' ') :
    writeRank run L = runDigits run ++ writeRank 0 L := by
  cases L with
  | nil => simp [writeRank, runDigits]
  | cons c L =>
    have letter : c ≠ ' ' := head c rfl
    simp [writeRank, letter, runDigits]

theorem exists_digit_head_writeRank {run : Nat} (pos : 0 < run) :
    ∀ (L : List Char), ∃ d rest, writeRank run L = d :: rest ∧ d.isDigit = true
  | [] => by
    rw [writeRank, runDigits, if_neg (by omega)]
    obtain ⟨d, rest, eq⟩ := List.exists_cons_of_ne_nil (Nat.toDigits_ne_nil : Nat.toDigits 10 run ≠ [])
    exact ⟨d, rest, eq, isDigit_of_mem_toDigits (eq ▸ List.mem_cons_self)⟩
  | c :: L => by
    rw [writeRank]
    split
    · exact exists_digit_head_writeRank (Nat.succ_pos run) L
    · rw [runDigits, if_neg (by omega)]
      obtain ⟨d, rest, eq⟩ := List.exists_cons_of_ne_nil (Nat.toDigits_ne_nil : Nat.toDigits 10 run ≠ [])
      exact ⟨d, rest ++ c :: writeRank 0 L, by rw [eq]; rfl,
        isDigit_of_mem_toDigits (eq ▸ List.mem_cons_self)⟩

/-! ### One rank -/

theorem readRank_end (rank : Fin 8) (cs : List Char) (st : Setup) :
    readRank rank 8 cs st = .ok (cs, st) := by
  cases cs <;> simp [readRank]

theorem readRank_runDigits (rank : Fin 8) {file run : Nat} (fits : file + run ≤ 8) (pos : 0 < run)
    (cs : List Char) (st : Setup) :
    readRank rank file (runDigits run ++ cs) st = readRank rank (file + run) cs st := by
  have bounded : run ≤ 8 := by omega
  rw [runDigits_of_pos pos (by omega), List.singleton_append, readRank, if_neg (by omega),
    if_pos (by rw [Nat.isDigit_digitChar]; simp; omega)]
  rw [if_neg (by interval_cases run <;> decide)]
  simp only [toNat_digitChar_sub_zero (show run < 10 by omega)]
  rw [if_neg (by omega)]

theorem readRank_letter (rank : Fin 8) {file : Nat} (room : file < 8) {c : Char}
    (letter : (pieceOfLetter? c).isSome) (cs : List Char) (st : Setup) :
    readRank rank file (c :: cs) st = readRank rank (file + 1) cs (st.putLetter file rank c) := by
  rw [readRank, if_neg (by omega), if_neg (by rw [isDigit_eq_false_of_letter letter]; simp),
    if_neg (by simpa [Option.isSome_iff_ne_none] using letter)]
  rfl

theorem readRank_writeRank (rank : Fin 8) (rest : List Char) :
    ∀ (L : List Char) (run file : Nat) (st : Setup), (∀ c ∈ L, Letter c) →
      file + run + L.length = 8 →
      readRank rank file (writeRank run L ++ rest) st = .ok (rest, st.fillRank rank (file + run) L)
  | [], run, file, st, _, fits => by
    simp only [List.length_nil, Nat.add_zero] at fits
    by_cases pos : 0 < run
    · rw [writeRank, readRank_runDigits rank (by omega) pos rest st, fits, readRank_end]
      rfl
    · rw [show run = 0 by omega] at fits ⊢
      rw [Nat.add_zero] at fits
      subst fits
      simp [writeRank, runDigits, readRank_end, Setup.fillRank]
  | c :: L, run, file, st, letters, fits => by
    simp only [List.length_cons] at fits
    have later : ∀ x ∈ L, Letter x := fun x member => letters x (List.mem_cons_of_mem c member)
    by_cases space : c = ' '
    · rw [writeRank, if_pos space, readRank_writeRank rank rest L (run + 1) file st later
        (by omega), Setup.fillRank, if_pos space, Nat.add_assoc]
    · have letter : (pieceOfLetter? c).isSome := (letters c List.mem_cons_self).resolve_left space
      have skip : readRank rank file (runDigits run ++ c :: (writeRank 0 L ++ rest)) st =
          readRank rank (file + run) (c :: (writeRank 0 L ++ rest)) st := by
        by_cases pos : 0 < run
        · exact readRank_runDigits rank (by omega) pos _ st
        · rw [show run = 0 by omega]
          rfl
      rw [writeRank, if_neg space, List.append_assoc, List.cons_append, skip,
        readRank_letter rank (by omega) letter, readRank_writeRank rank rest L 0 (file + run + 1) _
          later (by omega), Setup.fillRank, if_neg space, Nat.add_zero]

theorem readRank_run_inv (rank : Fin 8) :
    ∀ (cs : List Char) (file : Nat) (st : Setup) {rest : List Char} {st' : Setup}, file ≤ 8 →
      readRank rank file cs st = .ok (rest, st') →
      ∃ pre L, cs = pre ++ rest ∧ file + L.length = 8 ∧ st' = st.fillRank rank file L ∧
        (∀ c ∈ L, Letter c) ∧ (∀ c ∈ pre, c ≠ ' ' ∧ c ≠ '/') ∧
        (NoAdjacentDigits pre → pre = writeRank 0 L)
  | [], file, st, _, _, bounded, run => by
    rw [readRank] at run
    split at run
    · cases run
      exact ⟨[], [], rfl, by simp; omega, rfl, by simp, by simp, fun _ => by simp [writeRank, runDigits]⟩
    · cases run
  | c :: cs, file, st, _, _, bounded, run => by
    rw [readRank] at run
    split at run
    · cases run
      exact ⟨[], [], rfl, by simp; omega, rfl, by simp, by simp, fun _ => by simp [writeRank, runDigits]⟩
    split at run
    · rename_i digit
      split at run
      · cases run
      rename_i range
      have bounds := toNat_bounds_of_digit_range range
      have zero : '0'.toNat = 48 := rfl
      dsimp only at run
      split at run
      · cases run
      obtain ⟨pre, L, rfl, length, rfl, letters, plain, canonical⟩ :=
        readRank_run_inv rank cs _ st (by omega) run
      refine ⟨c :: pre, List.replicate (c.toNat - '0'.toNat) ' ' ++ L, rfl, by simp; omega,
        by rw [Setup.fillRank_replicate], ?_, ?_, ?_⟩
      · intro x member
        rcases List.mem_append.mp member with blank | inner
        · exact Or.inl (List.eq_of_mem_replicate blank)
        · exact letters x inner
      · intro x member
        rcases List.mem_cons.mp member with rfl | inner
        · constructor <;> (intro same; subst same; simp at bounds)
        · exact plain x inner
      · intro noAdjacent
        have front := canonical noAdjacent.tail
        have head : ∀ x ∈ L.head?, x ≠ ' ' := by
          intro x member space
          subst space
          obtain ⟨L', rfl⟩ : ∃ L', L = ' ' :: L' := ⟨L.tail, (List.cons_head?_tail member).symm⟩
          rw [writeRank, if_pos rfl] at front
          obtain ⟨d, rest, written, dDigit⟩ := exists_digit_head_writeRank (Nat.succ_pos 0) L'
          rw [written] at front
          subst front
          exact (List.isChain_cons_cons.mp noAdjacent).1 ⟨digit, dDigit⟩
        rw [writeRank_replicate, Nat.zero_add, writeRank_of_head _ head, ← front,
          runDigits_of_pos (by omega) (by omega), digitChar_sub_zero digit]
        rfl
    · rename_i notDigit
      split at run
      · cases run
      rename_i known
      have letter : (pieceOfLetter? c).isSome := by simpa [Option.isSome_iff_ne_none] using known
      have space : c ≠ ' ' := fun same => by subst same; cases letter
      obtain ⟨pre, L, rfl, length, rfl, letters, plain, canonical⟩ :=
        readRank_run_inv rank cs (file + 1) _ (by omega) run
      refine ⟨c :: pre, c :: L, rfl, by simp; omega, ?_, ?_, ?_, ?_⟩
      · rw [Setup.fillRank, if_neg space]
        rfl
      · intro x member
        rcases List.mem_cons.mp member with rfl | inner
        · exact Or.inr letter
        · exact letters x inner
      · intro x member
        rcases List.mem_cons.mp member with rfl | inner
        · exact ⟨space, fun same => by subst same; cases letter⟩
        · exact plain x inner
      · intro noAdjacent
        rw [canonical noAdjacent.tail, writeRank, if_neg space]
        rfl

/-! ### The placement -/

/-- One rank of the placement read: the rank, then the `/` that follows every rank but the
first. -/
def readRankStep (r : Nat) (st : Setup) : Reader Setup := do
  match readRank ⟨r % 8, mod_eight_lt r⟩ 0 (← get) st with
  | .ok (rest, next) =>
    set rest
    if r ≠ 0 then expect '/'
    pure next
  | .error e => throw e

theorem readPlacement_eq :
    readPlacement = [7, 6, 5, 4, 3, 2, 1, 0].foldlM (fun st r => readRankStep r st) {} := by
  have fold := List.forIn_yield_eq_foldlM (l := [7, 6, 5, 4, 3, 2, 1, 0])
    (fun r st => readRankStep r st) (fun _ _ c => c) {}
  simp only [id_map'] at fold
  unfold readPlacement
  simp only [bind_pure]
  rw [← fold]
  congr 1
  funext r st
  unfold readRankStep
  simp only [map_bind]
  congr 1
  funext cs
  cases read : readRank ⟨r % 8, Nat.mod_lt _ (by decide)⟩ 0 cs st with
  | error e => rfl
  | ok result =>
    obtain ⟨rest, next⟩ := result
    by_cases zero : r = 0
    · simp [zero]
    · simp [zero]

/-- What reading ranks `rs` in turn takes, given the text of each: the text, then `/` for
every rank but the first. -/
def joinRanks : List Nat → List (List Char) → List Char
  | r :: rs, t :: ts => t ++ ((if r = 0 then [] else ['/']) ++ joinRanks rs ts)
  | _, _ => []

def fillRanks (acc : Setup) : List Nat → List (List Char) → Setup
  | r :: rs, L :: Ls => fillRanks (acc.fillRank ⟨r % 8, mod_eight_lt r⟩ 0 L) rs Ls
  | _, _ => acc

theorem readRankStep_run (r : Nat) {L : List Char} (letters : ∀ c ∈ L, Letter c)
    (length : L.length = 8) (acc : Setup) (rest : List Char) :
    (readRankStep r acc).run (writeRank 0 L ++ ((if r = 0 then [] else ['/']) ++ rest)) =
      .ok (acc.fillRank ⟨r % 8, Nat.mod_lt _ (by decide)⟩ 0 L, rest) := by
  unfold readRankStep
  simp only [StateT.run_bind, StateT.run_get, pure_bind]
  rw [readRank_writeRank _ _ L 0 0 acc letters (by simp [length])]
  by_cases zero : r = 0
  · simp [zero]
  · simp [zero]

theorem foldlM_readRankStep_run (rest : List Char) :
    ∀ (rs : List Nat) (Ls : List (List Char)) (acc : Setup), rs.length = Ls.length →
      (∀ L ∈ Ls, L.length = 8 ∧ ∀ c ∈ L, Letter c) →
      (rs.foldlM (fun st r => readRankStep r st) acc).run (joinRanks rs (Ls.map (writeRank 0)) ++ rest) =
        .ok (fillRanks acc rs Ls, rest)
  | [], [], acc, _, _ => rfl
  | r :: rs, L :: Ls, acc, lengths, valid => by
    obtain ⟨length, letters⟩ := valid L List.mem_cons_self
    simp only [List.foldlM_cons, StateT.run_bind, List.map_cons, joinRanks, List.append_assoc,
      readRankStep_run r letters length, Except.ok_bind]
    exact foldlM_readRankStep_run rest rs Ls _ (by simpa using lengths)
      fun L' member => valid L' (List.mem_cons_of_mem L member)

theorem readRankStep_run_inv {r : Nat} {acc acc' : Setup} {cs rest : List Char}
    (run : (readRankStep r acc).run cs = .ok (acc', rest)) :
    ∃ pre L, cs = pre ++ ((if r = 0 then [] else ['/']) ++ rest) ∧ L.length = 8 ∧
      acc' = acc.fillRank ⟨r % 8, Nat.mod_lt _ (by decide)⟩ 0 L ∧ (∀ c ∈ L, Letter c) ∧
      (∀ c ∈ pre, c ≠ ' ' ∧ c ≠ '/') ∧ (NoAdjacentDigits pre → pre = writeRank 0 L) := by
  unfold readRankStep at run
  simp only [StateT.run_bind, StateT.run_get, pure_bind] at run
  cases read : readRank ⟨r % 8, Nat.mod_lt _ (by decide)⟩ 0 cs acc with
  | error e =>
    rw [read] at run
    cases run
  | ok result =>
    obtain ⟨after, next⟩ := result
    rw [read] at run
    obtain ⟨pre, L, rfl, length, rfl, letters, plain, canonical⟩ :=
      readRank_run_inv _ cs 0 acc (by omega) read
    by_cases zero : r = 0
    · subst zero
      simp at run
      obtain ⟨rfl, rfl⟩ := run
      exact ⟨pre, L, by simp, by omega, rfl, letters, plain, canonical⟩
    · have slash : r ≠ 0 := zero
      simp only [if_pos slash, StateT.run_bind, StateT.run_set, pure_bind] at run
      obtain ⟨⟨u, after'⟩, expected, finish⟩ := Except.bind_eq_ok.mp run
      have parted := eq_cons_of_expect_run expected
      simp only [StateT.run_pure, Except.pure_eq_ok, Except.ok.injEq, Prod.mk.injEq] at finish
      obtain ⟨rfl, rfl⟩ := finish
      exact ⟨pre, L, by simp [zero, parted], by omega, rfl, letters, plain, canonical⟩

theorem foldlM_readRankStep_run_inv :
    ∀ (rs : List Nat) (acc : Setup) (cs : List Char) {st : Setup} {rest : List Char},
      (rs.foldlM (fun st r => readRankStep r st) acc).run cs = .ok (st, rest) →
      ∃ pres Ls, pres.length = rs.length ∧ Ls.length = rs.length ∧
        cs = joinRanks rs pres ++ rest ∧ st = fillRanks acc rs Ls ∧
        (∀ L ∈ Ls, L.length = 8 ∧ ∀ c ∈ L, Letter c) ∧ (∀ p ∈ pres, ∀ c ∈ p, c ≠ ' ' ∧ c ≠ '/') ∧
        List.Forall₂ (fun p L => NoAdjacentDigits p → p = writeRank 0 L) pres Ls
  | [], acc, cs, _, _, run => by
    simp only [List.foldlM_nil, StateT.run_pure, Except.pure_eq_ok, Except.ok.injEq,
      Prod.mk.injEq] at run
    obtain ⟨rfl, rfl⟩ := run
    exact ⟨[], [], rfl, rfl, rfl, rfl, by simp, by simp, List.Forall₂.nil⟩
  | r :: rs, acc, cs, _, _, run => by
    simp only [List.foldlM_cons, StateT.run_bind] at run
    obtain ⟨⟨acc', cs'⟩, step, later⟩ := Except.bind_eq_ok.mp run
    obtain ⟨pre, L, rfl, length, rfl, letters, plain, canonical⟩ := readRankStep_run_inv step
    obtain ⟨pres, Ls, presLength, lsLength, rfl, rfl, valid, plains, canonicals⟩ :=
      foldlM_readRankStep_run_inv rs _ cs' later
    refine ⟨pre :: pres, L :: Ls, by simp [presLength], by simp [lsLength],
      by simp [joinRanks], rfl, ?_, ?_, List.Forall₂.cons canonical canonicals⟩
    · intro L' member
      rcases List.mem_cons.mp member with rfl | inner
      · exact ⟨length, letters⟩
      · exact valid L' inner
    · intro p member
      rcases List.mem_cons.mp member with rfl | inner
      · exact plain
      · exact plains p inner

theorem fillRanks_eq_with :
    ∀ (acc : Setup) (rs : List Nat) (Ls : List (List Char)),
      fillRanks acc rs Ls = { acc with placement := (fillRanks acc rs Ls).placement }
  | _, [], _ => rfl
  | _, _ :: _, [] => rfl
  | acc, r :: rs, L :: Ls => by
    rw [fillRanks, fillRanks_eq_with _ rs Ls, Setup.fillRank_eq_with acc]

theorem rankLetters_fillRanks_of_not_mem (r : Fin 8) :
    ∀ (acc : Setup) (rs : List Nat) (Ls : List (List Char)), r.val ∉ rs → (∀ x ∈ rs, x < 8) →
      (∀ L ∈ Ls, L.length = 8) → (fillRanks acc rs Ls).rankLetters r = acc.rankLetters r
  | _, [], _, _, _, _ => rfl
  | _, _ :: _, [], _, _, _ => rfl
  | acc, x :: rs, L :: Ls, outside, onBoard, lengths => by
    have other : r ≠ ⟨x % 8, Nat.mod_lt _ (by decide)⟩ := by
      intro same
      rw [Fin.ext_iff] at same
      dsimp only at same
      rw [Nat.mod_eq_of_lt (onBoard x List.mem_cons_self)] at same
      exact outside (same ▸ List.mem_cons_self)
    rw [fillRanks, rankLetters_fillRanks_of_not_mem r _ rs Ls (fun inside => outside
      (List.mem_cons_of_mem x inside)) (fun y member => onBoard y (List.mem_cons_of_mem x member))
      (fun L' member => lengths L' (List.mem_cons_of_mem L member)),
      Setup.rankLetters_fillRank_of_ne other acc 0 L (by simp [lengths L List.mem_cons_self])]

theorem map_rankLetters_fillRanks :
    ∀ (acc : Setup) (rs : List Nat) (Ls : List (List Char)), rs.Nodup → (∀ x ∈ rs, x < 8) →
      (∀ x ∈ rs, acc.rankLetters ⟨x % 8, Nat.mod_lt _ (by decide)⟩ = List.replicate 8 ' ') →
      rs.length = Ls.length → (∀ L ∈ Ls, L.length = 8) →
      rs.map (fun x => (fillRanks acc rs Ls).rankLetters ⟨x % 8, Nat.mod_lt _ (by decide)⟩) = Ls
  | _, [], [], _, _, _, _, _ => rfl
  | acc, x :: rs, L :: Ls, nodup, onBoard, blank, lengths, sizes => by
    obtain ⟨fresh, nodup⟩ := List.nodup_cons.mp nodup
    have size := sizes L List.mem_cons_self
    have later : ∀ L' ∈ Ls, L'.length = 8 := fun L' member => sizes L' (List.mem_cons_of_mem L member)
    have laterBoard : ∀ y ∈ rs, y < 8 := fun y member => onBoard y (List.mem_cons_of_mem x member)
    have outside : (⟨x % 8, Nat.mod_lt _ (by decide)⟩ : Fin 8).val ∉ rs := by
      show x % 8 ∉ rs
      rw [Nat.mod_eq_of_lt (onBoard x List.mem_cons_self)]
      exact fresh
    rw [List.map_cons, fillRanks, rankLetters_fillRanks_of_not_mem _ _ rs Ls outside laterBoard later,
      Setup.rankLetters_fillRank_blank (blank x List.mem_cons_self) size,
      map_rankLetters_fillRanks _ rs Ls nodup laterBoard _ (by simpa using lengths) later]
    intro y member
    have other : (⟨y % 8, Nat.mod_lt _ (by decide)⟩ : Fin 8) ≠ ⟨x % 8, Nat.mod_lt _ (by decide)⟩ := by
      intro same
      simp only [Fin.mk.injEq] at same
      rw [Nat.mod_eq_of_lt (laterBoard y member), Nat.mod_eq_of_lt (onBoard x List.mem_cons_self)]
        at same
      exact fresh (same ▸ member)
    rw [Setup.rankLetters_fillRank_of_ne other acc 0 L (by simp [size])]
    exact blank y (List.mem_cons_of_mem x member)

def placementText (st : Setup) : List Char :=
  List.intercalate ['/'] ([7, 6, 5, 4, 3, 2, 1, 0].map fun r =>
    writeRank 0 (st.rankLetters ⟨r % 8, mod_eight_lt r⟩))

theorem joinRanks_placement {ts : List (List Char)} (length : ts.length = 8) :
    joinRanks [7, 6, 5, 4, 3, 2, 1, 0] ts = List.intercalate ['/'] ts := by
  match ts, length with
  | [_, _, _, _, _, _, _, _], _ => simp [joinRanks]

theorem rankLetters_fillRanks_placement {Ls : List (List Char)} (length : Ls.length = 8)
    (sizes : ∀ L ∈ Ls, L.length = 8) :
    [7, 6, 5, 4, 3, 2, 1, 0].map (fun x =>
      (fillRanks {} [7, 6, 5, 4, 3, 2, 1, 0] Ls).rankLetters ⟨x % 8, Nat.mod_lt _ (by decide)⟩) = Ls :=
  map_rankLetters_fillRanks {} _ Ls (by decide) (by decide)
    (fun _ _ => Setup.rankLetters_default _) (by simp [length]) sizes

theorem readPlacement_run (st : Setup) (letters : ∀ f r, Letter (st.letterAt f r)) (rest : List Char) :
    readPlacement.run (placementText st ++ rest) = .ok ({ placement := st.placement }, rest) := by
  let Ls := [7, 6, 5, 4, 3, 2, 1, 0].map fun r => st.rankLetters ⟨r % 8, Nat.mod_lt _ (by decide)⟩
  have valid : ∀ L ∈ Ls, L.length = 8 ∧ ∀ c ∈ L, Letter c := by
    intro L member
    obtain ⟨r, -, rfl⟩ := List.mem_map.mp member
    refine ⟨by simp, fun c inRank => ?_⟩
    obtain ⟨f, -, rfl⟩ := List.mem_map.mp inRank
    exact letters f _
  have text : placementText st = joinRanks [7, 6, 5, 4, 3, 2, 1, 0] (Ls.map (writeRank 0)) := by
    rw [joinRanks_placement (by simp [Ls]), List.map_map]
    rfl
  have placed : (fillRanks {} [7, 6, 5, 4, 3, 2, 1, 0] Ls).placement = st.placement := by
    apply Setup.placement_eq_of_rankLetters
    intro r
    have same := rankLetters_fillRanks_placement (by simp [Ls]) fun L member => (valid L member).1
    rw [List.map_inj_left] at same
    have inside : r.val ∈ [7, 6, 5, 4, 3, 2, 1, 0] := by
      simp only [List.mem_cons, List.mem_nil_iff, or_false]
      omega
    have eq := same r.val inside
    rw [show (⟨r.val % 8, Nat.mod_lt _ (by decide)⟩ : Fin 8) = r from
      Fin.ext (Nat.mod_eq_of_lt r.isLt)] at eq
    exact eq
  rw [readPlacement_eq, text, foldlM_readRankStep_run rest _ Ls {} rfl valid, fillRanks_eq_with,
    placed]

theorem eq_map_writeRank_of_forall₂ {pres Ls : List (List Char)}
    (canonical : List.Forall₂ (fun p L => NoAdjacentDigits p → p = writeRank 0 L) pres Ls)
    (noAdjacent : ∀ p ∈ pres, NoAdjacentDigits p) : pres = Ls.map (writeRank 0) := by
  induction canonical with
  | nil => rfl
  | cons head _ ih =>
    rw [List.map_cons, head (noAdjacent _ List.mem_cons_self),
      ih fun p member => noAdjacent p (List.mem_cons_of_mem _ member)]

/-- What reading the placement takes: eight ranks separated by `/`, none with a space or a `/`
in it, which are the placement's written form when no two digits stand side by side in any of
them. The setup read has its letters and nothing else. -/
theorem readPlacement_run_inv {cs rest : List Char} {st : Setup}
    (run : readPlacement.run cs = .ok (st, rest)) :
    st = { placement := st.placement } ∧ (∀ f r, Letter (st.letterAt f r)) ∧
      ∃ pres : List (List Char), pres.length = 8 ∧ cs = List.intercalate ['/'] pres ++ rest ∧
        (∀ p ∈ pres, ' ' ∉ p ∧ '/' ∉ p) ∧
        ((∀ p ∈ pres, NoAdjacentDigits p) → List.intercalate ['/'] pres = placementText st) := by
  rw [readPlacement_eq] at run
  obtain ⟨pres, Ls, presLength, lsLength, rfl, rfl, valid, plains, canonicals⟩ :=
    foldlM_readRankStep_run_inv _ {} cs run
  have shown := rankLetters_fillRanks_placement lsLength fun L member => (valid L member).1
  have whole := fillRanks_eq_with {} [7, 6, 5, 4, 3, 2, 1, 0] Ls
  generalize fillRanks {} [7, 6, 5, 4, 3, 2, 1, 0] Ls = read at shown whole ⊢
  refine ⟨whole, fun f r => ?_, pres, presLength, by rw [joinRanks_placement presLength],
    fun p member => ⟨fun inP => (plains p member ' ' inP).1 rfl,
      fun inP => (plains p member '/' inP).2 rfl⟩, fun noAdjacent => ?_⟩
  · have inRank : read.letterAt f r ∈ read.rankLetters r :=
      List.mem_map.mpr ⟨f, List.mem_finRange f, rfl⟩
    have rankIn : read.rankLetters r ∈ Ls := by
      rw [← shown]
      refine List.mem_map.mpr ⟨r.val, ?_, congrArg read.rankLetters (Fin.ext (Nat.mod_eq_of_lt r.isLt))⟩
      simp only [List.mem_cons, List.mem_nil_iff, or_false]
      omega
    exact (valid _ rankIn).2 _ inRank
  · rw [eq_map_writeRank_of_forall₂ canonicals noAdjacent, placementText, ← shown, List.map_map]
    rfl

end Fen

end Chess
