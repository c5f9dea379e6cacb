import Chess.Proofs.Move.Listed

namespace Chess

/-! Telling a piece apart from its rivals. The rivals of a piece for a destination are the
other uncaptured pieces of its kind and colour on the board that reach it. The flags of
`disambiguation` are true to the rivals: with the file flag up every rival stands on another
file, with the rank flag up on another rank, and with both up there is none. A move text
names the origin file when the rank flag is down and the origin rank when the file flag is
down, so `getOrigin` finds exactly the piece again. -/

theorem List.foldl_keeps_seen {α β : Type} {P : List α → β → Prop} {f : β → α → β}
    (step : ∀ seen r a, P seen r → P (seen ++ [a]) (f r a)) :
    ∀ (l seen : List α) (r : β), P seen r → P (seen ++ l) (l.foldl f r)
  | [], seen, r, start => by simpa using start
  | a :: l, seen, r, start => by
    have rest := List.foldl_keeps_seen step l (seen ++ [a]) (f r a) (step seen r a start)
    simpa using rest

theorem List.filter_eq_singleton {α : Type} {l : List α} {P : α → Bool} {a : α} (nodup : l.Nodup)
    (mem : a ∈ l) (passes : P a = true) (only : ∀ x ∈ l, P x = true → x = a) : l.filter P = [a] := by
  induction l with
  | nil => cases mem
  | cons x rest ih =>
    obtain ⟨fresh, nodup⟩ := List.nodup_cons.mp nodup
    rcases List.mem_cons.mp mem with rfl | later
    · have none_ : rest.filter P = [] := List.filter_eq_nil_iff.mpr fun y member passed =>
        fresh (only y (List.mem_cons_of_mem _ member) passed ▸ member)
      rw [List.filter_cons_of_pos passes, none_]
    · have skipped : P x = false := by
        by_contra passed
        have same := only x List.mem_cons_self (by simpa using passed)
        exact fresh (same ▸ later)
      rw [List.filter_cons_of_neg (by simp [skipped]), ih nodup later fun y member =>
        only y (List.mem_cons_of_mem _ member)]

theorem File.eq_of_index {f g : File} (same : (f.index.val : Int) = g.index.val) : f = g := by
  obtain ⟨⟨i, _⟩⟩ := f
  obtain ⟨⟨j, _⟩⟩ := g
  dsimp only at same
  simp only [File.mk.injEq, Fin.mk.injEq]
  omega

theorem Rank.eq_of_index {r q : Rank} (same : (r.index.val : Int) = q.index.val) : r = q := by
  obtain ⟨⟨i, _⟩⟩ := r
  obtain ⟨⟨j, _⟩⟩ := q
  dsimp only at same
  simp only [Rank.mk.injEq, Fin.mk.injEq]
  omega

theorem Square.file_of_ahead {origin one : Square} {d : Int} (ahead : origin.offset? 0 d = some one) :
    one.file = origin.file :=
  File.eq_of_index (by simpa using Square.file_of_offset? ahead)

theorem Square.file_ne_of_mem_pawnAttacks {s t : Square} {c : Color}
    (member : (s.pawnAttacks c).contains t = true) : t.file ≠ s.file := by
  intro same
  rcases Square.file_of_mem_pawnAttacks member with shifted | shifted <;> rw [same] at shifted <;>
    omega

namespace Board

variable {b : Board} {id : PieceId} {t o : Square}

/-- A rival of piece `id` for destination `t`, standing on `rs`: another uncaptured piece of
its kind that reaches `t`. -/
structure Rival (b : Board) (id : PieceId) (t : Square) (other : PieceId) (rs : Square) : Prop where
  ne : other ≠ id
  kind : (b.piece other).kind = (b.piece id).kind
  standing : (b.piece other).captured = false
  at_ : (b.piece other).square = some rs
  reaches : (b.piece other).targets.contains t = true

/-- What a pair of flags says of the rivals among `seen` of a piece on `o`: with the file flag
up each stands on another file than `o`, with the rank flag up on another rank, and with both
up there is none. -/
structure Separates (b : Board) (id : PieceId) (t o : Square) (seen : List PieceId)
    (flags : Bool × Bool) : Prop where
  file : flags.1 = true → ∀ other ∈ seen, ∀ rs, Rival b id t other rs → rs.file ≠ o.file
  rank : flags.2 = true → ∀ other ∈ seen, ∀ rs, Rival b id t other rs → rs.rank ≠ o.rank
  none_ : flags.1 = true → flags.2 = true → ∀ other ∈ seen, ∀ rs, ¬Rival b id t other rs

theorem separates_nil : Separates b id t o [] (true, true) where
  file _ _ member := nomatch member
  rank _ _ member := nomatch member
  none_ _ _ _ member := nomatch member

theorem Separates.snoc {seen : List PieceId} {flags next : Bool × Bool}
    (sep : Separates b id t o seen flags) {other : PieceId}
    (file : next.1 = true → flags.1 = true ∧ ∀ rs, Rival b id t other rs → rs.file ≠ o.file)
    (rank : next.2 = true → flags.2 = true ∧ ∀ rs, Rival b id t other rs → rs.rank ≠ o.rank)
    (both : next.1 = true → next.2 = true →
      flags.1 = true ∧ flags.2 = true ∧ ∀ rs, ¬Rival b id t other rs) :
    Separates b id t o (seen ++ [other]) next := by
  refine ⟨fun up q member rs rival => ?_, fun up q member rs rival => ?_,
    fun up up' q member rs rival => ?_⟩
  all_goals rcases List.mem_append.mp member with earlier | here
  · exact sep.file (file up).1 q earlier rs rival
  · rw [List.mem_singleton.mp here] at rival
    exact (file up).2 rs rival
  · exact sep.rank (rank up).1 q earlier rs rival
  · rw [List.mem_singleton.mp here] at rival
    exact (rank up).2 rs rival
  · obtain ⟨fileUp, rankUp, -⟩ := both up up'
    exact sep.none_ fileUp rankUp q earlier rs rival
  · rw [List.mem_singleton.mp here] at rival
    exact (both up up').2.2 rs rival

theorem Separates.snoc_other {seen : List PieceId} {flags : Bool × Bool}
    (sep : Separates b id t o seen flags) {other : PieceId} (none_ : ∀ rs, ¬Rival b id t other rs) :
    Separates b id t o (seen ++ [other]) flags :=
  sep.snoc (fun up => ⟨up, fun rs rival => (none_ rs rival).elim⟩)
    (fun up => ⟨up, fun rs rival => (none_ rs rival).elim⟩) fun up up' => ⟨up, up', none_⟩

theorem separates_disambiguation (t : Square) (at_ : (b.piece id).square = some o) :
    Separates b id t o (b.roster (b.piece id).color).toList (b.disambiguation id t) := by
  unfold disambiguation
  simp only [at_]
  rw [← Array.foldl_toList]
  show Separates b id t o ([] ++ _) _
  refine List.foldl_keeps_seen (P := Separates b id t o) ?_ _ [] (true, true) separates_nil
  rintro seen ⟨fu, ru⟩ other sep
  dsimp only
  split
  · rename_i excluded
    refine sep.snoc_other fun rs rival => ?_
    rcases excluded with same | kind | captured
    · exact rival.ne same
    · exact kind rival.kind
    · rw [rival.standing] at captured
      cases captured
  · rename_i included
    simp only [not_or, Bool.not_eq_true] at included
    split
    · rename_i rs found
      split
      · rename_i reaches
        have only : ∀ rs', Rival b id t other rs' → rs' = rs := fun rs' rival => by
          rw [rival.at_] at found
          exact Option.some.inj found
        split
        · rename_i both
          simp only [Bool.and_eq_true, decide_eq_true_eq] at both
          refine sep.snoc (fun _ => ⟨both.1.1, fun rs' rival => ?_⟩) (fun down => by cases down)
            (fun _ down => by cases down)
          rw [only rs' rival]
          exact both.1.2
        · rename_i notBoth
          refine sep.snoc (fun up => ?_) (fun up => ?_) (fun up up' => ?_)
          · simp only [Bool.and_eq_true, decide_eq_true_eq] at up
            exact ⟨up.1, fun rs' rival => only rs' rival ▸ up.2⟩
          · simp only [Bool.and_eq_true, decide_eq_true_eq] at up
            exact ⟨up.1, fun rs' rival => only rs' rival ▸ up.2⟩
          · exact absurd (by simp only [Bool.and_eq_true] at up up' ⊢; exact ⟨up, up'⟩) notBoth
      · rename_i misses
        refine sep.snoc_other fun rs' rival => misses rival.reaches
    · rename_i off
      refine sep.snoc_other fun rs rival => ?_
      rw [rival.at_] at off
      cases off

def fileHint (flags : Bool × Bool) (o : Square) : Option File := if flags.2 then none else some o.file

def rankHint (flags : Bool × Bool) (o : Square) : Option Rank := if flags.1 then none else some o.rank

/-! Pawns. A pawn's move text names its origin file exactly when the pawn changes file: a
capture goes to a diagonal and a push stays on its file, and no two pawns of the side to move
reach a square in the same way. -/

theorem enPassantVictim?_spec {origin target s : Square} {c : Color}
    (found : b.enPassantVictim? origin target c = some s) :
    origin.rank = Rank.enPassantFrom c ∧ s = Square.make target.file origin.rank ∧
      ∃ p, b.pieceAt? s = some p ∧ p.color ≠ c := by
  unfold enPassantVictim? at found
  split at found
  · cases found
  · rename_i allowed
    simp only [not_or, not_not] at allowed
    dsimp only at found
    split at found
    · rename_i p held
      split at found
      · rename_i victim
        cases found
        exact ⟨allowed.1, rfl, p, held, victim.2⟩
      · cases found
    · cases found

theorem PawnReaches.rank_of_file_ne {x t : Square} {c : Color} (reach : PawnReaches b x c t)
    (off : t.file ≠ x.file) : (t.rank.index.val : Int) = x.rank.index.val + c.forward := by
  cases reach with
  | push ahead _ => exact absurd (Square.file_of_ahead ahead) off
  | double ahead _ _ beyond _ =>
    exact absurd ((Square.file_of_ahead beyond).trans (Square.file_of_ahead ahead)) off
  | take diagonal _ _ => exact Square.rank_of_mem_pawnAttacks diagonal
  | passant diagonal _ _ => exact Square.rank_of_mem_pawnAttacks diagonal

theorem PawnReaches.eq_of_file_ne {q o t : Square} {c : Color} (byQ : PawnReaches b q c t)
    (byO : PawnReaches b o c t) (off : t.file ≠ o.file) (file : q.file = o.file) : q = o := by
  have rankQ := byQ.rank_of_file_ne (file ▸ off)
  have rankO := byO.rank_of_file_ne off
  exact Square.eq_of_file_rank file (Rank.eq_of_index (by omega))

theorem PawnReaches.push_cases {x t : Square} {c : Color} (reach : PawnReaches b x c t)
    (straight : t.file = x.file) :
    b.occupant t = none ∧ ((t.rank.index.val : Int) = x.rank.index.val + c.forward ∨
      (x.rank = Rank.pawnStart c ∧ (t.rank.index.val : Int) = x.rank.index.val + 2 * c.forward ∧
        ∃ one, x.offset? 0 c.forward = some one ∧ b.occupant one = none)) := by
  cases reach with
  | push ahead empty => exact ⟨empty, Or.inl (Square.rank_of_offset? ahead)⟩
  | double ahead empty start beyond emptyTwo =>
    have first := Square.rank_of_offset? ahead
    have second := Square.rank_of_offset? beyond
    exact ⟨emptyTwo, Or.inr ⟨start, by omega, _, ahead, empty⟩⟩
  | take diagonal _ _ => exact absurd straight (Square.file_ne_of_mem_pawnAttacks diagonal)
  | passant diagonal _ _ => exact absurd straight (Square.file_ne_of_mem_pawnAttacks diagonal)

/-- A pawn standing on `o` that pushes to `t` is the only pawn of its colour, the side to move,
that reaches `t`: another one pushing would stand on the same square or in its way, and a
capture onto `t` would need an enemy there or beside `o`. -/
theorem PawnReaches.eq_of_straight {q o t : Square} {c : Color} {id idq : PieceId}
    (side : b.side = c) (byQ : PawnReaches b q c t) (byO : PawnReaches b o c t)
    (straight : t.file = o.file) (heldO : b.occupant o = some id) (color : (b.piece id).color = c)
    (heldQ : b.occupant q = some idq) : q = o := by
  obtain ⟨emptyT, pushO⟩ := byO.push_cases straight
  by_cases fileQ : t.file = q.file
  · obtain ⟨-, pushQ⟩ := byQ.push_cases fileQ
    have file : q.file = o.file := fileQ.symm.trans straight
    have passesOver : ∀ {x y : Square} {idy : PieceId}, x.file = y.file →
        (∃ one, x.offset? 0 c.forward = some one ∧ b.occupant one = none) →
        (y.rank.index.val : Int) = x.rank.index.val + c.forward → b.occupant y = some idy → False := by
      intro x y idy sameFile ⟨one, ahead, empty⟩ rank held
      have oneIsY : one = y := Square.eq_of_file_rank ((Square.file_of_ahead ahead).trans sameFile)
        (Rank.eq_of_index (by have := Square.rank_of_offset? ahead; omega))
      rw [oneIsY, held] at empty
      cases empty
    rcases pushQ with rankQ | ⟨-, rankQ, passQ⟩ <;> rcases pushO with rankO | ⟨-, rankO, passO⟩
    · exact Square.eq_of_file_rank file (Rank.eq_of_index (by omega))
    · exact (passesOver file.symm passO (by omega) heldQ).elim
    · exact (passesOver file passQ (by omega) heldO).elim
    · exact Square.eq_of_file_rank file (Rank.eq_of_index (by omega))
  · cases byQ with
    | push ahead _ => exact absurd (Square.file_of_ahead ahead) fileQ
    | double ahead _ _ beyond _ =>
      exact absurd ((Square.file_of_ahead beyond).trans (Square.file_of_ahead ahead)) fileQ
    | take _ held _ =>
      simp [Board.pieceAt?, emptyT] at held
    | passant diagonal _ open_ =>
      obtain ⟨v, found⟩ := Option.isSome_iff_exists.mp (open_.resolve_left (not_not.mpr side))
      obtain ⟨fromRank, rfl, p, standing, enemy⟩ := enPassantVictim?_spec found
      have rankT := Square.rank_of_mem_pawnAttacks diagonal
      rcases pushO with rankO | ⟨start, rankO, -⟩
      · have onVictim : o = Square.make t.file q.rank :=
          Square.eq_of_file_rank (by rw [Square.file_make, straight])
            (by rw [Square.rank_make]; exact Rank.eq_of_index (by omega))
        rw [← onVictim, Board.pieceAt?, heldO, Option.map_some, Option.some.injEq] at standing
        exact (enemy (standing ▸ color)).elim
      · rw [fromRank] at rankT
        rw [start] at rankO
        cases c <;> simp only [Rank.enPassantFrom, Rank.pawnStart, Color.forward] at rankT rankO <;>
          omega

theorem occupant_of_square (coherent : b.Coherent) {c : Color} {q : PieceId} {s : Square}
    (member : q ∈ b.roster c) (at_ : (b.piece q).square = some s) : b.occupant s = some q := by
  obtain ⟨p, found, -⟩ := coherent.enrolled c q member
  rw [piece_eq_of_piece? b found] at at_
  exact (coherent.occupant_iff s q).mpr ⟨p, found, at_⟩

variable (coherent : b.Coherent) (settled : b.Settled)
include coherent settled

theorem rival_of_candidate (listed : id ∈ b.roster b.side) {q : PieceId} {rs : Square}
    (member : q ∈ b.roster b.side) (ne : q ≠ id) (at_ : (b.piece q).square = some rs)
    (kind : (b.piece q).kind = (b.piece id).kind)
    (reaches : (b.piece q).destinations.contains t = true) : Rival b id t q rs := by
  have standing : (b.piece q).captured = false := by
    obtain ⟨p, found, -⟩ := coherent.enrolled _ q member
    rw [piece_eq_of_piece? b found] at at_ ⊢
    exact (coherent.standing q p rs found at_).1
  refine ⟨ne, kind, standing, at_, ?_⟩
  by_cases king : b.king b.side = some q
  · have kingKind := ((coherent.king_iff b.side q).mp king).2
    exact absurd (coherent.one_king b.side q id member listed kingKind (kind ▸ kingKind)) ne
  · rwa [settled.destinations_eq_targets (tracks_of_roster member) king] at reaches

theorem getOrigin_eq_ok (listed : id ∈ b.roster b.side) (at_ : (b.piece id).square = some o)
    (reaches : (b.piece id).targets.contains t = true) :
    b.getOrigin (b.piece id).kind (fileHint (b.disambiguation id t) o)
      (rankHint (b.disambiguation id t) o) t = .ok id := by
  have sep := separates_disambiguation t at_
  rw [coherent.color_of_roster listed] at sep
  unfold getOrigin
  rw [List.filter_eq_singleton ((coherent.nodup _)) (Array.mem_toList_iff.mpr listed) ?passes ?only]
  case passes =>
    simp only [at_, fileHint, rankHint, Piece.destinations, SquareSet.contains_union, reaches]
    split <;> split <;> simp
  case only =>
    intro q member picked
    rw [Array.mem_toList_iff] at member
    dsimp only at picked
    split at picked
    · rename_i rs at'
      simp only [Bool.and_eq_true, decide_eq_true_eq] at picked
      obtain ⟨⟨⟨kind, destination⟩, file⟩, rank⟩ := picked
      by_contra ne
      have rival := rival_of_candidate coherent settled listed member ne at' kind destination
      have seen : q ∈ (b.roster b.side).toList := Array.mem_toList_iff.mpr member
      have sameSquare : rs = o := by
        unfold fileHint at file
        unfold rankHint at rank
        split at file <;> split at rank
        · exact absurd rival (sep.none_ ‹_› ‹_› q seen rs)
        · exact absurd (by simpa using rank) (sep.rank ‹_› q seen rs rival)
        · exact absurd (by simpa using file) (sep.file ‹_› q seen rs rival)
        · simp only [Option.all_some, decide_eq_true_eq] at file rank
          exact Square.eq_of_file_rank file rank
      subst sameSquare
      exact ne (Option.some.inj ((occupant_of_square coherent member at').symm.trans
        (occupant_of_square coherent listed at_)))
    · cases picked

theorem getOrigin_pawn (listed : id ∈ b.roster b.side) (at_ : (b.piece id).square = some o)
    (pawn : (b.piece id).kind = .pawn) (reaches : (b.piece id).targets.contains t = true) :
    b.getOrigin .pawn (if t.file = o.file then none else some o.file) none t = .ok id := by
  have color := coherent.color_of_roster listed
  have byO := settled.pawnReaches (tracks_of_roster listed) pawn at_ reaches
  rw [color] at byO
  unfold getOrigin
  rw [List.filter_eq_singleton ((coherent.nodup _)) (Array.mem_toList_iff.mpr listed) ?passes ?only]
  case passes =>
    simp only [at_, pawn, Piece.destinations, SquareSet.contains_union, reaches]
    split <;> simp
  case only =>
    intro q member picked
    rw [Array.mem_toList_iff] at member
    dsimp only at picked
    split at picked
    · rename_i rs at'
      simp only [Bool.and_eq_true, decide_eq_true_eq, Option.all_none, and_true] at picked
      obtain ⟨⟨kindQ, destination⟩, file⟩ := picked
      have notKing : b.king b.side ≠ some q := fun king => by
        rw [((coherent.king_iff b.side q).mp king).2] at kindQ
        cases kindQ
      rw [settled.destinations_eq_targets (tracks_of_roster member) notKing] at destination
      have byQ := settled.pawnReaches (tracks_of_roster member) kindQ at' destination
      rw [coherent.color_of_roster member] at byQ
      have heldQ := occupant_of_square coherent member at'
      have heldO := occupant_of_square coherent listed at_
      have same : rs = o := by
        split at file
        · rename_i straight
          exact byQ.eq_of_straight rfl byO straight heldO color heldQ
        · rename_i off
          simp only [Option.all_some, decide_eq_true_eq] at file
          exact byQ.eq_of_file_ne byO off file
      subst same
      exact Option.some.inj (heldQ.symm.trans heldO)
    · cases picked

end Board

end Chess
