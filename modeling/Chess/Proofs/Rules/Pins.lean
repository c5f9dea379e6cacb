import Chess.Proofs.Rules.Safety

namespace Chess

/-! The pin pass read by the rules. The pass scans, from each slider of the side not to move
that lines up with the king, the squares strictly between the two; when exactly one piece
stands there and it is not of the slider's side, that piece may keep only squares of the
line. Main statements: the scan finds a piece exactly when it is the one occupant of the
squares scanned and not of the scanning side (`pinScan_eq_some_iff`); the pass names a piece
pinned by a slider exactly when the rules say the slider pins it (`exists_pinOf?_iff_pins`); a
target survives the pass exactly when it keeps to the line of every pin (`unpinned_iff`). -/

theorem List.filterMap_eq_singleton {α β : Type} {f : α → Option β} {a : α} {p : β} :
    ∀ {l : List α}, l.Nodup → a ∈ l → f a = some p → (∀ u ∈ l, u ≠ a → f u = none) →
      l.filterMap f = [p]
  | [], _, listed, _, _ => absurd listed List.not_mem_nil
  | u :: rest, nodup, listed, found, others => by
    obtain ⟨fresh, nodup⟩ := List.nodup_cons.mp nodup
    by_cases here : u = a
    · subst here
      have empty : rest.filterMap f = [] := List.filterMap_eq_nil_iff.mpr fun v member =>
        others v (List.mem_cons_of_mem _ member) fun same => fresh (same ▸ member)
      rw [List.filterMap_cons_some found, empty]
    · rw [List.filterMap_cons_none (others u List.mem_cons_self here)]
      exact List.filterMap_eq_singleton nodup ((List.mem_cons.mp listed).resolve_left (Ne.symm here))
        found fun v member => others v (List.mem_cons_of_mem _ member)

namespace Square

variable {a b u : Square} {dirs : List Direction} {line : List Square}

theorem not_strictlyBetween_right : ¬a.StrictlyBetween b b := by
  intro between
  obtain ⟨d, ends, positive⟩ := exists_along_of_aligned between.1
  obtain ⟨j, -, before, found⟩ := (strictlyBetween_iff_along ends positive).mp between
  exact absurd (along_inj found ends) (by omega)

theorem drop_lineTo? (found : a.lineTo? b dirs false = some line) :
    ∃ d, a.along d (a.distance b) = some b ∧ 0 < a.distance b ∧
      ∀ i (h : i < (line.drop 1).length), a.along d (i + 1) = some (line.drop 1)[i] ∧
        i + 1 < a.distance b := by
  obtain ⟨aligned, d, -, heads⟩ := (isSome_lineTo?_iff dirs false).mp (Option.isSome_of_eq_some found)
  obtain ⟨inner, rfl, length, steps, -⟩ := lineTo?_eq_some found
  refine ⟨d, along_distance aligned heads, distance_pos aligned.1, fun i h => ?_⟩
  simp only [Bool.false_eq_true, if_false, List.append_nil, List.drop_succ_cons, List.drop_zero] at h ⊢
  exact ⟨(stepsToward_iff_along heads).mp (steps i h), by omega⟩

theorem mem_drop_lineTo?_iff (found : a.lineTo? b dirs false = some line) :
    u ∈ line.drop 1 ↔ a.StrictlyBetween b u := by
  obtain ⟨d, ends, positive, squares⟩ := drop_lineTo? found
  obtain ⟨inner, rfl, length, -, -⟩ := lineTo?_eq_some found
  simp only [Bool.false_eq_true, if_false, List.append_nil, List.drop_succ_cons, List.drop_zero]
    at squares ⊢
  rw [strictlyBetween_iff_along ends positive, List.mem_iff_getElem]
  constructor
  · rintro ⟨i, h, rfl⟩
    exact ⟨i + 1, by omega, (squares i h).2, (squares i h).1⟩
  · rintro ⟨j, low, high, reached⟩
    have h : j - 1 < inner.length := by omega
    refine ⟨j - 1, h, ?_⟩
    have step := (squares (j - 1) h).1
    rw [Nat.sub_add_cancel low, reached] at step
    exact (Option.some.inj step).symm

theorem mem_lineTo?_iff (found : a.lineTo? b dirs false = some line) :
    u ∈ line ↔ u = a ∨ a.StrictlyBetween b u := by
  rw [← mem_drop_lineTo?_iff found]
  obtain ⟨inner, rfl, -, -, -⟩ := lineTo?_eq_some found
  simp

theorem nodup_drop_lineTo? (found : a.lineTo? b dirs false = some line) : (line.drop 1).Nodup := by
  obtain ⟨d, -, -, squares⟩ := drop_lineTo? found
  refine List.nodup_iff_injective_get.mpr fun i j same => Fin.ext ?_
  have first := (squares i i.isLt).1
  have second := (squares j j.isLt).1
  simp only [List.get_eq_getElem] at same
  rw [same] at first
  have := along_inj first second
  omega

end Square

namespace Board

variable {b : Board} {them : Color}

theorem foldl_pinScanStep_blocked (pinned : Option PieceId) :
    ∀ l : List Square, l.foldl (b.pinScanStep them) (pinned, true) = (pinned, true)
  | [] => rfl
  | _ :: l => foldl_pinScanStep_blocked pinned l

theorem foldl_pinScanStep_found (p : PieceId) :
    ∀ l : List Square,
      l.foldl (b.pinScanStep them) (some p, false) = (some p, !(l.filterMap b.occupant).isEmpty)
  | [] => rfl
  | s :: l => by
    rw [List.foldl_cons, List.filterMap_cons]
    cases held : b.occupant s with
    | none =>
      simp only [pinScanStep, held]
      exact foldl_pinScanStep_found p l
    | some q =>
      simp only [pinScanStep, held, Option.isSome_some, true_or, if_true, List.isEmpty_cons,
        Bool.not_false]
      exact foldl_pinScanStep_blocked _ l

theorem pinScan_eq_some_iff {p : PieceId} : ∀ {l : List Square},
    b.pinScan them l = (some p, false) ↔
      l.filterMap b.occupant = [p] ∧ (b.piece p).color ≠ them
  | [] => by simp [pinScan]
  | s :: l => by
    unfold pinScan
    rw [List.foldl_cons, List.filterMap_cons]
    cases held : b.occupant s with
    | none =>
      simp only [pinScanStep, held]
      exact pinScan_eq_some_iff
    | some q =>
      simp only [pinScanStep, held, Option.isSome_none, Bool.false_eq_true, false_or, List.cons.injEq]
      by_cases color : (b.piece q).color = them
      · rw [if_pos color, foldl_pinScanStep_blocked]
        simp only [Prod.mk.injEq, reduceCtorEq, Bool.true_eq_false, and_false, false_iff, not_and]
        rintro ⟨rfl, -⟩
        exact absurd color
      · rw [if_neg color, foldl_pinScanStep_found]
        simp only [Prod.mk.injEq, Option.some.injEq, Bool.not_eq_false', List.isEmpty_iff]
        constructor
        · rintro ⟨rfl, empty⟩
          exact ⟨⟨rfl, empty⟩, color⟩
        · rintro ⟨⟨rfl, empty⟩, -⟩
          exact ⟨rfl, empty⟩

theorem pinOf?_eq_some_iff {κ : Square} {e p : PieceId} {line : List Square} :
    b.pinOf? κ them e = some (p, line) ↔ ∃ x, (b.piece e).square = some x ∧
      (b.piece e).kind.slides = true ∧ x.lineTo? κ (b.piece e).kind.directions false = some line ∧
      (line.drop 1).filterMap b.occupant = [p] ∧ (b.piece p).color ≠ them := by
  simp only [pinOf?]
  cases square : (b.piece e).square with
  | none => simp
  | some x =>
    simp only [Option.some.injEq, exists_eq_left']
    cases slides : (b.piece e).kind.slides with
    | false => simp
    | true =>
      simp only [Bool.not_true, Bool.false_eq_true, if_false, true_and]
      cases found : x.lineTo? κ (b.piece e).kind.directions false with
      | none => simp
      | some line' =>
        simp only [Option.some.injEq]
        rw [← pinScan_eq_some_iff]
        constructor
        · intro named
          split at named
          · rename_i pinned scan
            obtain ⟨rfl, rfl⟩ := Prod.mk.inj (Option.some.inj named)
            exact ⟨rfl, scan⟩
          · cases named
        · rintro ⟨rfl, scan⟩
          rw [scan]

theorem strictlyBetween_of_pinOf? {κ : Square} {e p : PieceId} {line : List Square}
    (found : b.pinOf? κ them e = some (p, line)) :
    ∃ x u, (b.piece e).square = some x ∧ x.StrictlyBetween κ u ∧ b.occupant u = some p := by
  obtain ⟨x, square, -, line', alone, -⟩ := pinOf?_eq_some_iff.mp found
  have listed : p ∈ (line.drop 1).filterMap b.occupant := by rw [alone]; exact List.mem_singleton_self p
  obtain ⟨u, member, held⟩ := List.mem_filterMap.mp listed
  exact ⟨x, u, square, (Square.mem_drop_lineTo?_iff line').mp member, held⟩

variable (coherent : b.Coherent)
include coherent

theorem pinOf?_ne_of_occupant {κ : Square} {K e p : PieceId} {line : List Square}
    (king : b.occupant κ = some K) (found : b.pinOf? κ them e = some (p, line)) : p ≠ K := by
  rintro rfl
  obtain ⟨x, u, -, between, held⟩ := strictlyBetween_of_pinOf? found
  rw [coherent.square_eq_of_occupant held king] at between
  exact Square.not_strictlyBetween_right between

variable {κ x o w : Square} {e id : PieceId}

theorem exists_pinOf?_iff_pins (held : b.occupant x = some e) (color : (b.piece e).color = b.side.opponent)
    (at_ : b.occupant o = some id) (own : (b.piece id).color = b.side) :
    (∃ line, b.pinOf? κ b.side.opponent e = some (id, line)) ↔ b.Pins κ x o := by
  have square := coherent.piece_square_of_occupant held
  have on : b.pieceOn x = some ((b.piece e).kind, b.side.opponent) := by simp [pieceOn, held, color]
  constructor
  · rintro ⟨line, found⟩
    obtain ⟨x', square', slides, line', alone, -⟩ := pinOf?_eq_some_iff.mp found
    cases (Option.some.inj (square.symm.trans square'))
    obtain ⟨aligned, d, dir, heads⟩ :=
      (Square.isSome_lineTo?_iff _ false).mp (Option.isSome_of_eq_some line')
    have occupied (u : Square) (between : x.StrictlyBetween κ u) : u = o ∨ b.occupant u = none := by
      cases holds : b.occupant u with
      | none => exact Or.inr rfl
      | some q =>
        have listed : q ∈ (line.drop 1).filterMap b.occupant :=
          List.mem_filterMap.mpr ⟨u, (Square.mem_drop_lineTo?_iff line').mpr between, holds⟩
        rw [alone, List.mem_singleton] at listed
        subst listed
        exact Or.inl (coherent.square_eq_of_occupant holds at_)
    have between : x.StrictlyBetween κ o := by
      obtain ⟨u, member, holds⟩ :=
        List.mem_filterMap.mp (show id ∈ (line.drop 1).filterMap b.occupant by
          rw [alone]
          exact List.mem_singleton_self id)
      rw [← coherent.square_eq_of_occupant holds at_]
      exact (Square.mem_drop_lineTo?_iff line').mp member
    refine ⟨_, on, slides, Or.inl ⟨d, dir, Square.sees_iff_strictlyBetween.mpr ⟨?_, fun u inside => ?_⟩⟩,
      between⟩
    · exact Square.mem_ray_iff.mpr ⟨_, Square.distance_pos aligned.1, Square.along_distance aligned heads⟩
    · rcases occupied u inside with rfl | empty
      · simp
      · simp [contains_occupancy, empty]
  · rintro ⟨k, on', slides, attacks, between⟩
    rw [on, Option.some.injEq, Prod.mk.injEq] at on'
    obtain ⟨rfl, -⟩ := on'
    obtain ⟨d, dir, sees⟩ := (PieceKind.attacks_iff_of_slides slides).mp attacks
    have reach := sees
    obtain ⟨n, positive, ends, -⟩ := reach
    obtain ⟨aligned, heads, -⟩ := Square.aligned_of_along ends positive
    obtain ⟨line, line'⟩ := Option.isSome_iff_exists.mp
      ((Square.isSome_lineTo?_iff (b.piece e).kind.directions false).mpr ⟨aligned, d, dir, heads⟩)
    have notThem : (b.piece id).color ≠ b.side.opponent := by
      rw [own]
      exact Color.ne_opponent _
    refine ⟨line, pinOf?_eq_some_iff.mpr ⟨x, square, slides, line', ?_, notThem⟩⟩
    refine List.filterMap_eq_singleton (Square.nodup_drop_lineTo? line')
      ((Square.mem_drop_lineTo?_iff line').mpr between) at_ fun u member differ => ?_
    have clear := (Square.sees_iff_strictlyBetween.mp sees).2 u
      ((Square.mem_drop_lineTo?_iff line').mp member)
    simpa [contains_occupancy, differ] using clear

theorem unpinned_iff (at_ : b.occupant o = some id) (own : (b.piece id).color = b.side) :
    ((b.roster b.side.opponent).toList.all fun e =>
        (b.pinOf? κ b.side.opponent e).all fun pin => pin.1 ≠ id || pin.2.contains w) = true ↔
      ∀ x, b.Pins κ x o → w = x ∨ x.StrictlyBetween κ w := by
  rw [List.all_eq_true]
  constructor
  · intro kept x pins
    rcases pins with ⟨k, on, slides, attacks, between⟩
    obtain ⟨e, held, -⟩ := Option.map_eq_some_iff.mp on
    have color : (b.piece e).color = b.side.opponent := by
      simp only [pieceOn, held, Option.map_some, Option.some.injEq, Prod.mk.injEq] at on
      exact on.2
    have member := (coherent.mem_roster_iff_of_occupant held _).mpr color
    obtain ⟨line, found⟩ :=
      (exists_pinOf?_iff_pins coherent held color at_ own).mpr ⟨k, on, slides, attacks, between⟩
    have stays := kept e (Array.mem_toList_iff.mpr member)
    rw [found] at stays
    simp only [Option.all_some, ne_eq, not_true_eq_false, decide_false, Bool.false_or,
      List.contains_iff_mem] at stays
    obtain ⟨x', square, -, line', -⟩ := pinOf?_eq_some_iff.mp found
    cases Option.some.inj ((coherent.piece_square_of_occupant held).symm.trans square)
    exact (Square.mem_lineTo?_iff line').mp stays
  · intro lined e member
    cases found : b.pinOf? κ b.side.opponent e with
    | none => rfl
    | some pin =>
      obtain ⟨p, line⟩ := pin
      by_cases named : p = id
      · subst named
        obtain ⟨x, square, -, line', -⟩ := pinOf?_eq_some_iff.mp found
        have held := coherent.occupant_of_square square
        have color := coherent.color_of_roster (Array.mem_toList_iff.mp member)
        have pins := (exists_pinOf?_iff_pins coherent held color at_ own).mp ⟨line, found⟩
        simp only [Option.all_some, ne_eq, not_true_eq_false, decide_false, Bool.false_or,
          List.contains_iff_mem]
        exact (Square.mem_lineTo?_iff line').mpr (lined x pins)
      · simp [named]

end Board

end Chess
