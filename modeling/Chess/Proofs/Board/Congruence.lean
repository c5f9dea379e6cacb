import Chess.Proofs.Board.Agree
import Chess.Proofs.Board.Edit

namespace Chess

namespace Board

/-! Regeneration is a function of what boards agree on. Each pass of `regenerate` reads the
pieces a board tracks, the grid, the rosters, the kings, the side, the en-passant file and the
status, and changes only tracked pieces and the status; so boards that are the same to the
rules stay so pass after pass, and boards that merely agree regenerate to the same. -/

theorem piece?_withRawReach (b : Board) (id : PieceId) :
    b.withRawReach.piece? id = (b.piece? id).map fun p =>
      { p with targets := (b.rawReach p).targets, guards := (b.rawReach p).guards,
               quiet := (b.rawReach p).quiet, castleTargets := SquareSet.empty } := by
  simp [Board.piece?, Board.withRawReach]

theorem rawReach_of_bare (b : Board) {p q : Piece} (same : p.bare = q.bare) :
    b.rawReach p = b.rawReach q := by
  obtain ⟨kind, color, captured, -, square⟩ := (Piece.bare_eq_iff p q).mp same
  simp [Board.rawReach, kind, color, captured, square]

@[simp] theorem tracks_modifyPiece (b : Board) (id : PieceId) (f : Piece → Piece) (t : PieceId) :
    (b.modifyPiece id f).Tracks t ↔ b.Tracks t := by
  simp [Tracks]

/-- Two boards the rules cannot tell apart: they agree, have the same status, and their
tracked pieces are equal, caches included. -/
structure Same (x y : Board) : Prop extends Agree x y where
  status : x.status = y.status
  piece?_eq : ∀ id, x.Tracks id → x.piece? id = y.piece? id

namespace Same

variable {x y z : Board}

theorem refl (b : Board) : Same b b :=
  ⟨Agree.refl b, rfl, fun _ _ => rfl⟩

theorem symm (same : Same x y) : Same y x :=
  ⟨same.toAgree.symm, same.status.symm,
    fun id tracked => (same.piece?_eq id ((same.tracks_iff id).mpr tracked)).symm⟩

theorem trans (first : Same x y) (second : Same y z) : Same x z :=
  ⟨first.toAgree.trans second.toAgree, first.status.trans second.status,
    fun id tracked => (first.piece?_eq id tracked).trans
      (second.piece?_eq id ((first.tracks_iff id).mp tracked))⟩

theorem piece_eq (same : Same x y) {id : PieceId} (tracked : x.Tracks id) :
    x.piece id = y.piece id := by
  simp [Board.piece, same.piece?_eq id tracked]

theorem pieceAt? (same : Same x y) (s : Square) : x.pieceAt? s = y.pieceAt? s := by
  cases held : x.occupant s with
  | none => simp [Board.pieceAt?, held, ← same.occupant s]
  | some id => simp [Board.pieceAt?, held, ← same.occupant s, same.piece_eq (tracks_of_occupant held)]

theorem modifyPiece (same : Same x y) (id : PieceId) (f : Piece → Piece) :
    Same (x.modifyPiece id f) (y.modifyPiece id f) := by
  refine ⟨⟨same.grid, fun c => by simp [same.roster], fun c => by simp [same.king], same.side,
    same.enPassant, fun t tracked' => ?_⟩, same.status, fun t tracked' => ?_⟩
  · rw [tracks_modifyPiece] at tracked'
    simp [same.piece?_eq t tracked']
  · rw [tracks_modifyPiece] at tracked'
    simp [same.piece?_eq t tracked']

theorem setStatus (same : Same x y) (st : Status) :
    Same { x with status := st } { y with status := st } :=
  ⟨(Agree.of_bare (bare_setStatus x st)).trans
      (same.toAgree.trans (Agree.of_bare (bare_setStatus y st)).symm),
    rfl, fun id tracked => same.piece?_eq id ((Agree.of_bare (bare_setStatus x st)).tracks_iff id |>.mp tracked)⟩

theorem foldl {F : Board → PieceId → Board} (frame : ∀ a id t, (F a id).Tracks t ↔ a.Tracks t)
    (step : ∀ a b id, a.Tracks id → Same a b → Same (F a id) (F b id)) :
    ∀ (ids : List PieceId) {x y : Board}, (∀ id ∈ ids, x.Tracks id) → Same x y →
      Same (ids.foldl F x) (ids.foldl F y)
  | [], _, _, _, same => same
  | id :: rest, x, y, tracked, same =>
    foldl frame step rest (fun t member => (frame x id t).mpr (tracked t (List.mem_cons_of_mem _ member)))
      (step x y id (tracked id List.mem_cons_self) same)

theorem foldl_roster {F : Board → PieceId → Board} (frame : ∀ a id t, (F a id).Tracks t ↔ a.Tracks t)
    (step : ∀ a b id, a.Tracks id → Same a b → Same (F a id) (F b id)) (same : Same x y) (c : Color) :
    Same ((x.roster c).foldl F x) ((y.roster c).foldl F y) := by
  rw [← same.roster, ← Array.foldl_toList, ← Array.foldl_toList]
  exact foldl frame step _ (fun id member => tracks_of_roster (Array.mem_toList_iff.mp member)) same

private theorem any_congr {l : List PieceId} {p q : PieceId → Bool} (pointwise : ∀ a ∈ l, p a = q a) :
    l.any p = l.any q := by
  induction l with
  | nil => rfl
  | cons a rest ih =>
    simp only [List.any_cons, pointwise a List.mem_cons_self,
      ih fun b member => pointwise b (List.mem_cons_of_mem _ member)]

private theorem filterMap_congr {l : List PieceId} {f g : PieceId → Option Square}
    (pointwise : ∀ a ∈ l, f a = g a) : l.filterMap f = l.filterMap g := by
  induction l with
  | nil => rfl
  | cons a rest ih =>
    simp only [List.filterMap_cons, pointwise a List.mem_cons_self,
      ih fun b member => pointwise b (List.mem_cons_of_mem _ member)]

theorem isThreatened (same : Same x y) (s : Square) (by_ : Color) :
    x.isThreatened s by_ = y.isThreatened s by_ := by
  unfold Board.isThreatened
  rw [← same.roster, ← Array.any_toList, ← Array.any_toList]
  exact any_congr fun id member => by
    rw [same.piece_eq (tracks_of_roster (Array.mem_toList_iff.mp member))]

theorem isGuarded (same : Same x y) (s : Square) (by_ : Color) :
    x.isGuarded s by_ = y.isGuarded s by_ := by
  unfold Board.isGuarded
  rw [← same.roster, ← Array.any_toList, ← Array.any_toList]
  exact any_congr fun id member => by
    rw [same.piece_eq (tracks_of_roster (Array.mem_toList_iff.mp member))]

theorem threatsTo (same : Same x y) (s : Square) (by_ : Color) :
    x.threatsTo s by_ = y.threatsTo s by_ := by
  unfold Board.threatsTo
  rw [← same.roster]
  exact List.filter_congr fun id member => by
    rw [same.piece_eq (tracks_of_roster (Array.mem_toList_iff.mp member))]

theorem countLegal (same : Same x y) : x.countLegal = y.countLegal := by
  unfold Board.countLegal
  dsimp only
  rw [← same.side, ← same.roster, same.status]
  congr 2
  exact List.map_congr_left fun id member => by
    rw [same.piece_eq (tracks_of_roster (Array.mem_toList_iff.mp member))]

theorem threatSquares (same : Same x y) (s : Square) (by_ : Color) :
    (x.threatsTo s by_).filterMap (fun id => (x.piece id).square) =
      (y.threatsTo s by_).filterMap (fun id => (y.piece id).square) := by
  rw [← same.threatsTo]
  apply filterMap_congr
  intro id member
  simp only [Board.threatsTo, List.mem_filter] at member
  rw [same.piece_eq (tracks_of_roster (Array.mem_toList_iff.mp member.1))]

theorem pinScan (same : Same x y) (line : List Square) (them : Color) (init : Option PieceId × Bool) :
    line.foldl (fun (acc : Option PieceId × Bool) s =>
        match acc with
        | (_, true) => acc
        | (pinned, false) =>
          match x.occupant s with
          | some id =>
            if pinned.isSome ∨ (x.piece id).color = them then (pinned, true)
            else (some id, false)
          | none => acc) init =
      line.foldl (fun (acc : Option PieceId × Bool) s =>
        match acc with
        | (_, true) => acc
        | (pinned, false) =>
          match y.occupant s with
          | some id =>
            if pinned.isSome ∨ (y.piece id).color = them then (pinned, true)
            else (some id, false)
          | none => acc) init := by
  congr 1
  funext acc s
  split
  · rfl
  · rw [same.occupant]
    split
    · rename_i id held
      rw [same.piece_eq (tracks_of_occupant ((same.occupant s).trans held))]
    · rfl

/-! ### The passes of regeneration -/

theorem keepKingSafe (same : Same x y) {king : PieceId} (tracked : x.Tracks king) (them : Color) :
    Same (x.keepKingSafe king them) (y.keepKingSafe king them) := by
  unfold Board.keepKingSafe
  simp only [same.piece_eq tracked, same.isThreatened, same.isGuarded]
  exact same.modifyPiece king _

theorem freezeAllBut (same : Same x y) (king : PieceId) :
    Same (x.freezeAllBut king) (y.freezeAllBut king) := by
  unfold Board.freezeAllBut
  rw [← same.side]
  apply same.foldl_roster
  · intro a id t
    split <;> simp
  · intro a b id _ same'
    split
    · exact same'
    · exact same'.modifyPiece id _

theorem restrictToCheckResolutions (same : Same x y) (king : PieceId) (kingSq checker : Square) :
    Same (x.restrictToCheckResolutions king kingSq checker)
      (y.restrictToCheckResolutions king kingSq checker) := by
  unfold Board.restrictToCheckResolutions
  dsimp only
  rw [← same.side, same.pieceAt? checker]
  apply same.foldl_roster
  · intro a id t
    split
    · split <;> simp
    · rfl
  · intro a b id tracked same'
    rw [same'.piece_eq tracked]
    split
    · split
      · exact same'
      · simp only [same'.occupant, same'.toAgree.enPassantVictim?]
        exact same'.modifyPiece id _
    · exact same'

theorem dropExposingEnPassant (same : Same x y) (kingSq : Square) :
    Same (x.dropExposingEnPassant kingSq) (y.dropExposingEnPassant kingSq) := by
  unfold Board.dropExposingEnPassant
  dsimp only
  rw [← same.side, same.occupancy]
  apply same.foldl_roster
  · intro a id t
    split
    · split <;> simp
    · rfl
  · intro a b id tracked same'
    rw [same'.piece_eq tracked]
    split
    · split
      · exact same'
      · simp only [same'.occupant, same'.toAgree.enPassantVictim?, same'.toAgree.isAttackedWith]
        exact same'.modifyPiece id _
    · exact same'

theorem foldl_of_step {α : Type} {F : Board → α → Board} (step : ∀ a b i, Same a b → Same (F a i) (F b i)) :
    ∀ (items : List α) {x y : Board}, Same x y → Same (items.foldl F x) (items.foldl F y)
  | [], _, _, same => same
  | i :: rest, x, y, same => foldl_of_step step rest (step x y i same)

theorem addCastles (same : Same x y) (king : PieceId) :
    Same (x.addCastles king) (y.addCastles king) := by
  unfold Board.addCastles
  refine foldl_of_step (fun a b side same' => ?_) _ same
  dsimp only
  have plan : a.castlePlan? a.side side = b.castlePlan? b.side side := by
    rw [same'.side, same'.toAgree.castlePlan?]
  rw [plan]
  split
  · rename_i plan _
    have legal : a.castleIsLegal plan a.side = b.castleIsLegal plan b.side := by
      rw [same'.side, same'.toAgree.castleIsLegal]
    rw [legal]
    split
    · rw [same'.status]
      cases side <;> dsimp only <;> exact (same'.setStatus _).modifyPiece king _
    · exact same'
  · exact same'

theorem restrictPins (same : Same x y) (kingSq : Square) (them : Color) :
    Same (x.restrictPins kingSq them) (y.restrictPins kingSq them) := by
  unfold Board.restrictPins
  apply same.foldl_roster
  · intro a enemy t
    dsimp only
    split
    · split
      · rfl
      · split
        · split <;> simp
        · rfl
    · rfl
  · intro a b enemy tracked same'
    dsimp only
    rw [same'.piece_eq tracked]
    split
    · split
      · exact same'
      · split
        · rename_i line _
          have key := same'.pinScan (line.drop 1) them (none, false)
          split <;> split
          · rename_i pinned scanA _ pinned' scanB
            cases scanA.symm.trans (key.trans scanB)
            exact same'.modifyPiece pinned _
          · rename_i pinned scanA _ notPinned
            exact absurd (key.symm.trans scanA) (notPinned pinned)
          · rename_i notPinned _ pinned' scanB
            exact absurd (key.trans scanB) (notPinned pinned')
          · exact same'
        · exact same'
    · exact same'

theorem withRawReach (agree : Agree x y) :
    Same { x.withRawReach with status := {} } { y.withRawReach with status := {} } := by
  have left : Agree { x.withRawReach with status := {} } x :=
    Agree.of_bare (by rw [bare_setStatus, bare_withRawReach])
  have right : Agree y { y.withRawReach with status := {} } :=
    (Agree.of_bare (by rw [bare_setStatus, bare_withRawReach])).symm
  refine ⟨left.trans (agree.trans right), rfl, fun id tracked => ?_⟩
  have bareEq := agree.piece id ((left.tracks_iff id).mp tracked)
  change x.withRawReach.piece? id = y.withRawReach.piece? id
  rw [piece?_withRawReach, piece?_withRawReach]
  cases hx : x.piece? id <;> cases hy : y.piece? id <;> simp only [hx, hy, Option.map_none,
    Option.map_some, Option.some.injEq, reduceCtorEq] at bareEq ⊢
  rename_i p q
  rw [agree.rawReach, rawReach_of_bare y bareEq]
  obtain ⟨kind, color, captured, moveCount, square⟩ := (Piece.bare_eq_iff p q).mp bareEq
  cases p
  cases q
  simp_all

private theorem regenerate_tail {a b : Board} (same : Same a b) (kingSq : Square) (king : PieceId)
    (checkers : SquareSet) :
    Same
      (let d := a.dropExposingEnPassant kingSq
       let e := if checkers.isEmpty then d.addCastles king else d
       { e with status := { e.status with legalCount := e.countLegal } })
      (let d := b.dropExposingEnPassant kingSq
       let e := if checkers.isEmpty then d.addCastles king else d
       { e with status := { e.status with legalCount := e.countLegal } }) := by
  have dropped := same.dropExposingEnPassant kingSq
  have castled : Same (if checkers.isEmpty then (a.dropExposingEnPassant kingSq).addCastles king
      else a.dropExposingEnPassant kingSq)
      (if checkers.isEmpty then (b.dropExposingEnPassant kingSq).addCastles king
      else b.dropExposingEnPassant kingSq) := by
    split
    · exact dropped.addCastles king
    · exact dropped
  dsimp only
  rw [castled.status, castled.countLegal]
  exact castled.setStatus _

theorem regenerate (agree : Agree x y) : Same x.regenerate y.regenerate := by
  have raw := withRawReach agree
  unfold Board.regenerate
  dsimp -proj only
  generalize { x.withRawReach with status := {} } = a at raw ⊢
  generalize { y.withRawReach with status := {} } = b at raw ⊢
  have kingEq : a.king a.side = b.king b.side := by rw [raw.side, raw.king]
  rw [kingEq]
  split
  · rw [raw.countLegal]
    exact raw.setStatus _
  · rename_i king held
    have tracked : a.Tracks king := (raw.tracks_iff king).mpr (tracks_of_king held)
    rw [raw.piece_eq tracked]
    split
    · rw [raw.countLegal]
      exact raw.setStatus _
    · rename_i kingSq _
      have pins : Same ((a.keepKingSafe king a.side.opponent).restrictPins kingSq a.side.opponent)
          ((b.keepKingSafe king b.side.opponent).restrictPins kingSq b.side.opponent) := by
        rw [← raw.side]
        exact (raw.keepKingSafe tracked _).restrictPins kingSq _
      generalize (a.keepKingSafe king a.side.opponent).restrictPins kingSq a.side.opponent = a' at pins ⊢
      generalize (b.keepKingSafe king b.side.opponent).restrictPins kingSq b.side.opponent = b' at pins ⊢
      have threats :
          SquareSet.ofList ((a'.threatsTo kingSq a.side.opponent).filterMap fun id => (a'.piece id).square) =
            SquareSet.ofList ((b'.threatsTo kingSq b.side.opponent).filterMap fun id => (b'.piece id).square) := by
        rw [← raw.side, pins.threatSquares]
      rw [threats, pins.status]
      generalize SquareSet.ofList ((b'.threatsTo kingSq b.side.opponent).filterMap
        fun id => (b'.piece id).square) = checkers
      have marked := pins.setStatus { b'.status with hasKing := true, checkers := checkers }
      generalize checkers.toList = found
      rcases found with _ | ⟨checker, _ | ⟨other, rest⟩⟩ <;> dsimp only
      · exact regenerate_tail marked kingSq king checkers
      · exact regenerate_tail (marked.restrictToCheckResolutions king kingSq checker) kingSq king checkers
      · exact regenerate_tail (marked.freezeAllBut king) kingSq king checkers

end Same

end Board

end Chess
