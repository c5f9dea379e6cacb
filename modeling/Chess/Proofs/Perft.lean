import Chess.Perft
import Chess.Proofs.Board.Cached
import Chess.Proofs.Notation.Reread
import Chess.Proofs.Move.Walk

namespace Chess

/-! Perft counts the leaves of the legal move tree. `Board.leafCount` is that count by the
recursion alone: one leaf at depth 0, and below, the sum over the listed moves of the leaves
below the board each move leads to. Below the root perft walks one board, playing each move
and taking it back before the next; a move taken back leaves a board that restores the one it
was played on, so the next move plays there to a board that mirrors the one it leads to from
the start, and mirrored boards have the same leaves. So `perft` never fails and returns the
count in 64 bits, the walk gives back a board that restores the one it started from, and
`perftDivide` lists each legal move once, under its coordinate text, with the leaves below it. -/

theorem List.foldlM_eq_ok_add_sum {α β ε : Type} [AddMonoid β] {f : β → α → Except ε β}
    {value : α → β} (l : List α) (step : ∀ a ∈ l, ∀ n, f n a = .ok (n + value a)) (n : β) :
    l.foldlM f n = .ok (n + (l.map value).sum) := by
  induction l generalizing n with
  | nil => simp
  | cons a rest ih =>
    rw [List.foldlM_cons, step a List.mem_cons_self n, Except.ok_bind,
      ih (fun a member => step a (List.mem_cons_of_mem _ member))]
    simp [add_assoc]

theorem List.mapM_eq_ok_map {α β ε : Type} {f : α → Except ε β} {g : α → β} (l : List α)
    (step : ∀ a ∈ l, f a = .ok (g a)) : l.mapM f = .ok (l.map g) := by
  induction l with
  | nil => rfl
  | cons a rest ih =>
    rw [List.mapM_cons, step a List.mem_cons_self, Except.ok_bind,
      ih (fun a member => step a (List.mem_cons_of_mem _ member))]
    rfl

theorem List.sum_map_ofNat {α : Type} (l : List α) (f : α → Nat) :
    (l.map fun a => UInt64.ofNat (f a)).sum = UInt64.ofNat (l.map f).sum := by
  induction l with
  | nil => rfl
  | cons a rest ih => simp [ih, UInt64.ofNat_add]

theorem List.filter_key_eq_singleton {α β : Type} [DecidableEq β] {key : α → β} {l : List α}
    (distinct : (l.map key).Nodup) {a : α} (member : a ∈ l) :
    l.filter (fun x => key x = key a) = [a] := by
  induction l with
  | nil => cases member
  | cons x rest ih =>
    obtain ⟨outside, distinct⟩ := List.nodup_cons.mp distinct
    have others : ∀ y ∈ rest, key y ≠ key x := fun y inside same =>
      outside (same ▸ List.mem_map_of_mem inside)
    rcases List.mem_cons.mp member with same | inside
    · subst same
      have none_ : rest.filter (fun y => key y = key a) = [] :=
        List.filter_eq_nil_iff.mpr fun y inside => by simpa using others y inside
      simp [none_]
    · have apart : key x ≠ key a := (others a inside).symm
      simp [apart, ih distinct inside]

/-! ### Listed moves are distinct -/

theorem Sight.mem_moves {us : Color} {origin : Square} {v : Sight}
    {x : Square × Square × Option PieceKind × Option CastleSide} (member : x ∈ v.moves us origin) :
    x.1 = origin ∧ v.targets.contains x.2.1 = true ∧ x.2.2.2 = none := by
  obtain ⟨s, reach, member⟩ := List.mem_flatMap.mp member
  rw [SquareSet.mem_toList] at reach
  split at member
  · obtain ⟨k, -, rfl⟩ := List.mem_map.mp member
    exact ⟨rfl, reach, rfl⟩
  · rw [List.mem_singleton.mp member]
    exact ⟨rfl, reach, rfl⟩

theorem Sight.nodup_moves (us : Color) (origin : Square) (v : Sight) :
    (v.moves us origin).Nodup := by
  refine List.nodup_flatMap.mpr ⟨fun s _ => ?_, (SquareSet.toList_nodup _).imp fun {s t} apart => ?_⟩
  · split <;> simp
  · have ends : ∀ (u : Square) (x : Square × Square × Option PieceKind × Option CastleSide),
        x ∈ (if v.kind = .pawn ∧ u.rank = Rank.promotion us then
          [PieceKind.queen, .rook, .bishop, .knight].map fun k => (origin, u, some k, none)
          else [(origin, u, none, none)]) → x.2.1 = u := by
      intro u x member
      split at member
      · obtain ⟨k, -, rfl⟩ := List.mem_map.mp member
        rfl
      · rw [List.mem_singleton.mp member]
    exact List.disjoint_left.mpr fun {x} first second =>
      apart ((ends s x first).symm.trans (ends t x second))

namespace Board

variable {b : Board}

theorem Status.nodup_castleMoves (st : Status) : st.castleMoves.Nodup := by
  refine (by decide : CastleSide.all.Nodup).filterMap fun side side' x first second => ?_
  obtain ⟨plan, _, sideFirst⟩ := Option.map_eq_some_iff.mp first
  obtain ⟨plan', _, sideSecond⟩ := Option.map_eq_some_iff.mp second
  rw [← sideFirst] at sideSecond
  simp only [Prod.mk.injEq, Option.some.injEq] at sideSecond
  exact sideSecond.2.2.2.symm

theorem Coherent.nodup_legalMoves_summary (coherent : b.Coherent) :
    (b.legalMoves.map Move.summary).Nodup := by
  have starts : ∀ id x, x ∈ (b.piece id).square.elim [] (fun origin =>
      (b.piece id).sight.moves b.side origin) → (b.piece id).square = some x.1 ∧ x.2.2.2 = none := by
    intro id x member
    cases square : (b.piece id).square with
    | none => simp [square] at member
    | some origin =>
      rw [square, Option.elim_some] at member
      obtain ⟨start, -, castle⟩ := Sight.mem_moves member
      exact ⟨by rw [start], castle⟩
  rw [legalMoves_summary]
  refine List.nodup_append.mpr ⟨?pieces, Status.nodup_castleMoves _, ?apart⟩
  case pieces =>
    refine List.nodup_flatMap.mpr ⟨fun id _ => ?_, (coherent.nodup b.side).imp fun {id id'} apart => ?_⟩
    · cases (b.piece id).square with
      | none => exact List.nodup_nil
      | some origin => exact Sight.nodup_moves _ _ _
    · refine List.disjoint_left.mpr fun {x} first second => apart ?_
      exact Option.some.inj ((coherent.occupant_of_square (starts id x first).1).symm.trans
        (coherent.occupant_of_square (starts id' x second).1))
  case apart =>
    intro x piece y castle same
    obtain ⟨id, -, member⟩ := List.mem_flatMap.mp piece
    obtain ⟨side, _, found⟩ := List.mem_filterMap.mp castle
    obtain ⟨plan, _, made⟩ := Option.map_eq_some_iff.mp found
    have none_ := (starts id x member).2
    rw [same, ← made] at none_
    cases none_

theorem Coherent.nodup_legalMoves (coherent : b.Coherent) : b.legalMoves.Nodup :=
  coherent.nodup_legalMoves_summary.of_map Move.summary

end Board

namespace Move

variable {b : Board} {m : Move} {r : Move × Board}

theorem replica_id_of_mem_legalMoves (listed : m ∈ b.legalMoves) : m.replica id = m := by
  have fresh : m.promoted = none ∧ m.executed = false := by
    rcases Board.mem_legalMoves.mp listed with
      ⟨_, -, _, -, _, -, _, -, rfl⟩ | ⟨_, _, -, rfl⟩ <;> simp [knownLegal_eq]
  cases m
  simp_all [replica]

section Listed

variable (coherent : b.Coherent) (settled : b.Settled)
include coherent settled

theorem execute_of_mem_legalMoves (listed : m ∈ b.legalMoves) :
    ∃ r, m.execute b = .ok r ∧ r.2.Coherent ∧ r.2.Settled := by
  obtain ⟨hop, checked⟩ := checkPlayable_of_mem_legalMoves coherent settled listed
  obtain ⟨r, run⟩ := execute_ok_iff.mpr ⟨hop, checked⟩
  exact ⟨r, run, coherent.execute settled (Board.fits_of_mem_legalMoves coherent settled listed) run,
    Board.Settled.execute run⟩

theorem castleRook_execute (listed : m ∈ b.legalMoves) (run : m.execute b = .ok r) :
    r.1.castleRook = m.castleRook := by
  obtain ⟨hop, checked, -, outcome, move⟩ := execute_eq_ok run
  obtain ⟨promoted, fields⟩ := playSteps_fst (m := m) (w := b) hop
  have played : r.1.castleRook = hop := by simp [move, fields]
  rw [played]
  obtain ⟨-, -, -, -, plays⟩ := checkPlayable_eq_ok.mp checked
  rcases plays with ⟨-, -, same⟩ | ⟨side, plan, castle, found, -, same⟩
  · exact same
  · rcases Board.mem_legalMoves.mp listed with
      ⟨id, -, o, -, t, -, promo, -, rfl⟩ | ⟨side', plan', found', rfl⟩
    · simp [knownLegal_eq] at castle
    · obtain rfl : side' = side := by simpa [knownLegal_eq] using castle
      obtain rfl : plan' = plan := Option.some.inj (found'.symm.trans found)
      have planned := (settled.castle found').1
      have color := (Board.kind_of_legalCastle? coherent settled found').2
      simp [same, knownLegal_eq, castleRook_build, color, planned]

theorem uci_execute (listed : m ∈ b.legalMoves) (run : m.execute b = .ok r) : r.1.uci = m.uci := by
  have alike := writtenAlike_execute coherent settled listed run
  unfold uci
  rw [castleRook_execute coherent settled listed run, alike.origin, alike.target, alike.castle,
    alike.promotion]

end Listed

end Move

namespace Board

variable {b : Board}

/-! ### The count of leaves -/

def leavesAfter (b : Board) (count : Board → Nat) (m : Move) : Nat :=
  match m.execute b with
  | .ok r => count r.2
  | .error _ => 0

/-- The leaves of the legal move tree `depth` plies below the board, by the recursion alone:
one at depth 0, and below, the sum over the listed moves of the leaves below the board each
leads to. -/
def leafCount (b : Board) : Nat → Nat
  | 0 => 1
  | depth + 1 => (b.legalMoves.map (b.leavesAfter (·.leafCount depth))).sum

theorem leavesAfter_of_execute {count : Board → Nat} {m : Move} {r : Move × Board}
    (run : m.execute b = .ok r) : b.leavesAfter count m = count r.2 := by
  rw [leavesAfter, run]

theorem leafCount_one (coherent : b.Coherent) (settled : b.Settled) :
    b.leafCount 1 = b.legalMoves.length := by
  have ones : b.legalMoves.map (b.leavesAfter (·.leafCount 0)) = b.legalMoves.map fun _ => 1 :=
    List.map_congr_left fun m listed => by
      obtain ⟨r, run, -⟩ := Move.execute_of_mem_legalMoves coherent settled listed
      rw [leavesAfter_of_execute run, leafCount]
  rw [leafCount, ones, List.map_const', List.sum_replicate, smul_eq_mul, mul_one]

theorem leafCount_mirrors {σ : PieceId → PieceId} {x y : Board} (mir : Mirrors σ x y)
    (cx : x.Coherent) (cy : y.Coherent) (sx : x.Settled) (sy : y.Settled) (depth : Nat) :
    x.leafCount depth = y.leafCount depth := by
  induction depth generalizing σ x y with
  | zero => rfl
  | succ depth ih =>
    let below := fun s => ((y.legalMoves.filter (·.summary = s)).map
      (y.leavesAfter (·.leafCount depth))).sum
    have onY : ∀ n ∈ y.legalMoves, below n.summary = y.leavesAfter (·.leafCount depth) n :=
      fun n listed => by
        simp only [below, List.filter_key_eq_singleton cy.nodup_legalMoves_summary listed,
          List.map_singleton, List.sum_singleton]
    have onX : ∀ m ∈ x.legalMoves, below m.summary = x.leavesAfter (·.leafCount depth) m := by
      intro m listed
      obtain ⟨r, run, cr, sr⟩ := Move.execute_of_mem_legalMoves cx sx listed
      obtain ⟨id, o, t, promo, castle, rfl, -, listed', r', σ', run', mirrored, -⟩ :=
        Move.plays_mirrored mir cx cy sx sy listed run
      have cr' := cy.execute sy (fits_of_mem_legalMoves cy sy listed') run'
      rw [Move.summary_knownLegal, ← Move.summary_knownLegal y (σ id), onY _ listed',
        leavesAfter_of_execute run, leavesAfter_of_execute run',
        ih mirrored cr cr' sr (Settled.execute run')]
    have perm : (x.legalMoves.map Move.summary).Perm (y.legalMoves.map Move.summary) :=
      (List.perm_ext_iff_of_nodup cx.nodup_legalMoves_summary cy.nodup_legalMoves_summary).mpr
        ((mir.lookalike cx cy sx sy).mem_legalMoves_summary cx cy)
    calc x.leafCount (depth + 1)
        = ((x.legalMoves.map Move.summary).map below).sum := by
          rw [leafCount, List.map_map]
          exact congrArg List.sum (List.map_congr_left onX).symm
      _ = ((y.legalMoves.map Move.summary).map below).sum := (perm.map below).sum_eq
      _ = y.leafCount (depth + 1) := by
          rw [leafCount, List.map_map]
          exact congrArg List.sum (List.map_congr_left onY)

/-! ### The walk below the root -/

theorem Restores.settled {x y : Board} (restores : x.Restores y) (settled : x.Settled) :
    y.Settled :=
  Settled.of_same restores.toSame.symm settled

section Walk

variable {w : Board} (coherent : w.Coherent) (settled : w.Settled)
include coherent settled

/-- Walking moves of the board on a board that restores it: each move plays there to a board
that mirrors the one it leads to from the board itself, so `below` counts its leaves, and taking
it back restores the board again. -/
theorem walkMoves_eq {below : Board → Except MoveError UInt64 × Board} {count : Board → Nat}
    (counts : ∀ c, c.Coherent → c.Settled →
      ∃ c', below c = (.ok (UInt64.ofNat (count c)), c') ∧ c.Restores c' ∧ c'.Coherent)
    (mirrored : ∀ {σ c c'}, Mirrors σ c c' → c.Coherent → c'.Coherent → c.Settled → c'.Settled →
      count c = count c')
    {l : List Move} (listed : ∀ m ∈ l, m ∈ w.legalMoves) (nodes : UInt64) {u : Board}
    (restores : w.Restores u) (coherentU : u.Coherent) :
    ∃ u', walkMoves below l nodes u =
      (.ok (nodes + UInt64.ofNat (l.map (w.leavesAfter count)).sum), u') ∧
      w.Restores u' ∧ u'.Coherent := by
  induction l generalizing nodes u with
  | nil => exact ⟨u, by simp [walkMoves], restores, coherentU⟩
  | cons m rest ih =>
    have listedM := listed m List.mem_cons_self
    have settledU := restores.settled settled
    obtain ⟨r, run, cr, sr⟩ := Move.execute_of_mem_legalMoves coherent settled listedM
    obtain ⟨σ', r', run', mirror, fits'⟩ := Move.execute_replica restores.mirrors coherent
      coherentU settled settledU (fits_of_mem_legalMoves coherent settled listedM) run
    rw [Move.replica_id_of_mem_legalMoves listedM] at run' fits'
    have cr' := coherentU.execute settledU fits' run'
    obtain ⟨c', counted, restoresC, coherentC⟩ := counts r'.2 cr' (Settled.execute run')
    obtain ⟨t, undone, -, restoresT, -, -, coherentT⟩ :=
      (Move.undoable_execute coherentU settledU fits' run').unexecute coherentU settledU restoresC
    have same : count r'.2 = w.leavesAfter count m := by
      rw [leavesAfter_of_execute run]
      exact (mirrored mirror cr cr' sr (Settled.execute run')).symm
    obtain ⟨u', walked, restoresU', coherentU'⟩ :=
      ih (fun n member => listed n (List.mem_cons_of_mem _ member))
        (nodes + UInt64.ofNat (w.leavesAfter count m)) (restores.trans restoresT) (coherentT coherentC)
    refine ⟨u', ?_, restoresU', coherentU'⟩
    simp only [walkMoves, run', counted, undone, same, walked, List.map_cons, List.sum_cons,
      UInt64.ofNat_add, add_assoc]

theorem walk_eq (depth : Nat) :
    ∃ w', w.walk depth = (.ok (UInt64.ofNat (w.leafCount (depth + 1))), w') ∧ w.Restores w' ∧
      w'.Coherent := by
  induction depth generalizing w with
  | zero =>
    refine ⟨w, ?_, Restores.refl w, coherent⟩
    rw [walk, settled.legalMoveCount_eq_length, leafCount_one coherent settled]
  | succ depth ih =>
    obtain ⟨w', walked, restores, coherent'⟩ := walkMoves_eq coherent settled
      (fun c cc sc => ih cc sc)
      (fun mir cx cy sx sy => leafCount_mirrors mir cx cy sx sy _) (fun _ listed => listed) 0
      (Restores.refl w) coherent
    refine ⟨w', ?_, restores, coherent'⟩
    rw [walk, walked, zero_add]
    rfl

end Walk

theorem perft_eq_leafCount (coherent : b.Coherent) (settled : b.Settled) (depth : Nat) :
    b.perft depth = .ok (UInt64.ofNat (b.leafCount depth)) := by
  match depth with
  | 0 => rfl
  | 1 =>
    rw [perft, settled.legalMoveCount_eq_length, leafCount_one coherent settled]
    rfl
  | depth + 2 =>
    rw [perft, leafCount, ← List.sum_map_ofNat, ← zero_add (List.sum _)]
    refine List.foldlM_eq_ok_add_sum _ (fun m listed n => ?_) 0
    obtain ⟨⟨played, child⟩, run, coherentC, settledC⟩ :=
      Move.execute_of_mem_legalMoves coherent settled listed
    obtain ⟨c', walked, -⟩ := walk_eq coherentC settledC depth
    rw [leavesAfter_of_execute run]
    simp only [run, walked, Except.ok_bind]
    rfl

/-! ### Perft split by first move -/

theorem foldl_dropRepeats {β : Type} {l : List (String × β)} (distinct : (l.map Prod.fst).Nodup)
    (acc : Array (String × β)) (fresh : ∀ e ∈ l, acc.back?.map (·.1) ≠ some e.1) :
    (l.foldl (fun (acc : Array (String × β)) entry =>
      if acc.back?.map (·.1) = some entry.1 then acc else acc.push entry) acc).toList =
      acc.toList ++ l := by
  induction l generalizing acc with
  | nil => simp
  | cons e rest ih =>
    obtain ⟨outside, distinct⟩ := List.nodup_cons.mp distinct
    have fresh' : ∀ e' ∈ rest, (acc.push e).back?.map (·.1) ≠ some e'.1 := by
      intro e' member same
      rw [Array.back?_push, Option.map_some, Option.some.injEq] at same
      exact outside (same ▸ List.mem_map_of_mem member)
    rw [List.foldl_cons, if_neg (fresh e List.mem_cons_self), ih distinct _ fresh',
      Array.toList_push, List.append_assoc, List.singleton_append]

section Divide

variable (coherent : b.Coherent) (settled : b.Settled)
include coherent settled

theorem mapM_divide (depth : Nat) :
    b.legalMoves.mapM (fun m => do
      let (m, child) ← m.execute b
      let nodes ← child.perft depth
      pure (m.uci, nodes)) =
      .ok (b.legalMoves.map fun m => (m.uci, UInt64.ofNat (b.leavesAfter (·.leafCount depth) m))) := by
  refine List.mapM_eq_ok_map _ fun m listed => ?_
  obtain ⟨⟨played, child⟩, run, coherentC, settledC⟩ :=
    Move.execute_of_mem_legalMoves coherent settled listed
  rw [leavesAfter_of_execute run, ← Move.uci_execute coherent settled listed run]
  simp only [run, Except.ok_bind, perft_eq_leafCount coherentC settledC]
  rfl

/-- Perft split by first move lists each legal move once, under its coordinate text and in the
order of the texts, with the leaves below the board it leads to; the counts add up to perft
one ply deeper. -/
theorem perftDivide_splits_perft (depth : Nat) :
    ∃ entries, b.perftDivide (depth + 1) = .ok entries ∧
      entries.length = b.legalMoves.length ∧ (entries.map Prod.fst).Nodup ∧
      entries.Pairwise (fun x y => x.1 ≤ y.1) ∧
      (∀ text n, (text, n) ∈ entries ↔ ∃ m ∈ b.legalMoves, ∃ r, m.execute b = .ok r ∧
        text = m.uci ∧ n = UInt64.ofNat (r.2.leafCount depth)) ∧
      b.perft (depth + 1) = .ok (entries.map Prod.snd).sum := by
  set counts := b.legalMoves.map fun m =>
    (m.uci, UInt64.ofNat (b.leavesAfter (·.leafCount depth) m))
  have distinct : (counts.map Prod.fst).Nodup := by
    rw [List.map_map]
    exact coherent.nodup_legalMoves.map_on fun m listedM n listedN same =>
      Move.eq_of_uci_eq coherent settled listedM listedN same
  set sorted := counts.reverse.mergeSort fun x y => x.1 ≤ y.1
  have perm : sorted.Perm counts := (List.mergeSort_perm _ _).trans (List.reverse_perm _)
  have kept := foldl_dropRepeats ((perm.map Prod.fst).nodup_iff.mpr distinct) #[] (by simp)
  refine ⟨sorted, ?_, ?length, ?keys, ?order, fun text n => ?_, ?sum⟩
  · simp only [perftDivide, Nat.add_one_ne_zero, if_false, Nat.add_sub_cancel,
      mapM_divide coherent settled depth, Except.ok_bind]
    rw [kept]
    rfl
  case length => rw [perm.length_eq, List.length_map]
  case keys => exact (perm.map Prod.fst).nodup_iff.mpr distinct
  case order =>
    refine (List.pairwise_mergeSort (fun x y z first second => ?_) (fun x y => ?_) _).imp
      fun ordered => of_decide_eq_true ordered
    · exact decide_eq_true (le_trans (of_decide_eq_true first) (of_decide_eq_true second))
    · rcases le_total x.1 y.1 with ordered | ordered <;> simp [ordered]
  case sum =>
    rw [perft_eq_leafCount coherent settled, (perm.map Prod.snd).sum_eq, List.map_map, leafCount,
      ← List.sum_map_ofNat]
    rfl
  · rw [perm.mem_iff, List.mem_map]
    constructor
    · rintro ⟨m, listed, same⟩
      obtain ⟨r, run, -⟩ := Move.execute_of_mem_legalMoves coherent settled listed
      rw [leavesAfter_of_execute run, Prod.mk.injEq] at same
      exact ⟨m, listed, r, run, same.1.symm, same.2.symm⟩
    · rintro ⟨m, listed, r, run, rfl, rfl⟩
      exact ⟨m, listed, by rw [leavesAfter_of_execute run]⟩

end Divide

/-- Perft counts the leaves of the legal move tree on every coherent settled board: it never
fails and gives the count in 64 bits; one ply down the count is the number of listed moves; the
walk below the root gives back a board that restores the one it started from; and split by
first move it lists each legal move once, under its coordinate text, with the leaves below the
board the move leads to, adding up to perft. -/
theorem perft_counts_legal_tree (coherent : b.Coherent) (settled : b.Settled) (depth : Nat) :
    b.perft depth = .ok (UInt64.ofNat (b.leafCount depth)) ∧
      b.leafCount 1 = b.legalMoves.length ∧
      (∃ b', b.walk depth = (.ok (UInt64.ofNat (b.leafCount (depth + 1))), b') ∧ b.Restores b') ∧
      ∃ entries, b.perftDivide (depth + 1) = .ok entries ∧
        entries.length = b.legalMoves.length ∧ (entries.map Prod.fst).Nodup ∧
        entries.Pairwise (fun x y => x.1 ≤ y.1) ∧
        (∀ text n, (text, n) ∈ entries ↔ ∃ m ∈ b.legalMoves, ∃ r, m.execute b = .ok r ∧
          text = m.uci ∧ n = UInt64.ofNat (r.2.leafCount depth)) ∧
        b.perft (depth + 1) = .ok (entries.map Prod.snd).sum := by
  obtain ⟨b', walked, restores, -⟩ := walk_eq coherent settled depth
  exact ⟨perft_eq_leafCount coherent settled depth, leafCount_one coherent settled,
    ⟨b', walked, restores⟩, perftDivide_splits_perft coherent settled depth⟩

theorem perft_counts_legal_tree_standard :
    Board.standard.Coherent ∧ Board.standard.Settled ∧
      Board.standard.perft 2 = .ok (UInt64.ofNat (Board.standard.leafCount 2)) ∧
      Board.standard.leafCount 1 = Board.standard.legalMoves.length ∧
      (∃ b', Board.standard.walk 2 = (.ok (UInt64.ofNat (Board.standard.leafCount 3)), b') ∧
        Board.standard.Restores b') ∧
      ∃ entries, Board.standard.perftDivide 3 = .ok entries ∧
        entries.length = Board.standard.legalMoves.length ∧ (entries.map Prod.fst).Nodup ∧
        entries.Pairwise (fun x y => x.1 ≤ y.1) ∧
        (∀ text n, (text, n) ∈ entries ↔ ∃ m ∈ Board.standard.legalMoves, ∃ r,
          m.execute Board.standard = .ok r ∧ text = m.uci ∧ n = UInt64.ofNat (r.2.leafCount 2)) ∧
        Board.standard.perft 3 = .ok (entries.map Prod.snd).sum :=
  ⟨WellFormed.standard.toCoherent, Settled.standard,
    perft_counts_legal_tree WellFormed.standard.toCoherent Settled.standard 2⟩

end Board

end Chess
