import Chess.Proofs.Board.Rename
import Chess.Proofs.Move.Prepare

namespace Chess

/-! The arena of a board only grows. Playing adds at most the piece a pawn promotes to and
taking back adds none, and no piece of the arena ever changes its kind or colour. A move that
fits a board, its piece in the arena, therefore fits every board the arena grows into: a move
kept from a position left long ago fits the board when play comes back to that position. -/

namespace Board

/-- The arena of `y` grows out of that of `x`: it holds every piece of `x`, of the same kind
and colour. -/
structure ArenaGrows (x y : Board) : Prop where
  size : x.pieces.size ≤ y.pieces.size
  kind : ∀ id : PieceId, id.index < x.pieces.size → (y.piece id).kind = (x.piece id).kind
  color : ∀ id : PieceId, id.index < x.pieces.size → (y.piece id).color = (x.piece id).color

namespace ArenaGrows

variable {x y z : Board}

theorem refl (x : Board) : x.ArenaGrows x := ⟨le_refl _, fun _ _ => rfl, fun _ _ => rfl⟩

theorem trans (first : x.ArenaGrows y) (second : y.ArenaGrows z) : x.ArenaGrows z :=
  ⟨first.size.trans second.size,
    fun id old => (second.kind id (lt_of_lt_of_le old first.size)).trans (first.kind id old),
    fun id old => (second.color id (lt_of_lt_of_le old first.size)).trans (first.color id old)⟩

theorem of_pieces (size : x.pieces.size = y.pieces.size)
    (kind : ∀ id, (y.piece id).kind = (x.piece id).kind)
    (color : ∀ id, (y.piece id).color = (x.piece id).color) : x.ArenaGrows y :=
  ⟨size.le, fun id _ => kind id, fun id _ => color id⟩

end ArenaGrows

end Board

namespace Move

variable {m : Move} {b x y : Board}

section Breed

/-! Each step of playing and of taking back keeps the kind and colour of every piece. -/

theorem color_piece_promote {id : PieceId} (old : id.index < x.pieces.size) :
    ((m.promote x).2.piece id).color = (x.piece id).color := by
  cases promotion : m.promotion with
  | none => simp [promote_of_promotion_none promotion]
  | some kind =>
    rw [promote_of_promotion_some promotion]
    rw [Board.piece_replaceInRoster, Board.color_piece_modifyPiece _ _ _ (fun p => { p with moveCount := 1 }) fun _ => rfl,
      Board.color_piece_put, Board.color_piece_lift]
    rcases promotedPiece_cases (m := m) (x := x) kind with same | created
    · rw [same]
    · simp [created, Board.piece, Nat.ne_of_lt old]

theorem color_playSteps {hop : Option RookHop} {id : PieceId} (old : id.index < x.pieces.size) :
    ((m.playSteps x hop).2.piece id).color = (x.piece id).color := by
  unfold playSteps
  rw [color_piece_promote (by rw [size_place]; exact old), color_piece_place, piece_advanceClocks]

@[simp] theorem kind_piece_uncapture (id other : PieceId) (s : Square) :
    ((x.uncapture id s).piece other).kind = (x.piece other).kind := by
  simp only [Board.piece, Board.piece?_uncapture]
  split <;> cases x.piece? other <;> rfl

@[simp] theorem color_piece_uncapture (id other : PieceId) (s : Square) :
    ((x.uncapture id s).piece other).color = (x.piece other).color := by
  simp only [Board.piece, Board.piece?_uncapture]
  split <;> cases x.piece? other <;> rfl

@[simp] theorem kind_piece_unpromote (id : PieceId) :
    ((m.unpromote x).piece id).kind = (x.piece id).kind := by
  unfold unpromote
  split <;> simp

@[simp] theorem color_piece_unpromote (id : PieceId) :
    ((m.unpromote x).piece id).color = (x.piece id).color := by
  unfold unpromote
  split <;> simp

@[simp] theorem kind_piece_unplace (id : PieceId) : ((m.unplace x).piece id).kind = (x.piece id).kind := by
  unfold unplace restoreCasualty returnPieces
  split <;> split <;>
    simp [Board.kind_piece_modifyPiece _ _ _ (fun p => { p with moveCount := p.moveCount - 1 })
      fun _ => rfl]

@[simp] theorem color_piece_unplace (id : PieceId) :
    ((m.unplace x).piece id).color = (x.piece id).color := by
  unfold unplace restoreCasualty returnPieces
  split <;> split <;>
    simp [Board.color_piece_modifyPiece _ _ _ (fun p => { p with moveCount := p.moveCount - 1 })
      fun _ => rfl]

end Breed

@[simp] theorem size_passTurn : (m.passTurn b).pieces.size = b.pieces.size := by
  unfold passTurn
  split <;> rfl

theorem arenaGrows_execute {r : Move × Board} (run : m.execute b = .ok r) : b.ArenaGrows r.2 := by
  obtain ⟨hop, -, board, -⟩ := execute_eq_ok run
  have stepped : b.ArenaGrows (m.playSteps b hop).2 :=
    ⟨(size_playSteps hop).1, fun _ old => kind_playSteps old, fun _ old => color_playSteps old⟩
  refine stepped.trans (board ▸ Board.ArenaGrows.of_pieces (by simp) (fun id => ?_) (fun id => ?_))
  · simpa [Board.piece, Board.piece?] using Board.kind_piece_regenerate (b := (m.playSteps b hop).1.passTurn
      (m.playSteps b hop).2) id
  · simpa [Board.piece, Board.piece?] using Board.color_piece_regenerate (b := (m.playSteps b hop).1.passTurn
      (m.playSteps b hop).2) id

theorem arenaGrows_unexecute {t : Move × Board} (run : m.unexecute b = .ok t) : b.ArenaGrows t.2 := by
  obtain ⟨-, -, -, rfl⟩ := unexecute_eq_ok.mp run
  refine Board.ArenaGrows.of_pieces (by simp) (fun id => ?_) (fun id => ?_)
  · rw [Board.kind_piece_regenerate]
    exact (kind_piece_unplace id).trans (kind_piece_unpromote id)
  · rw [Board.color_piece_regenerate]
    exact (color_piece_unplace id).trans (color_piece_unpromote id)

theorem piece_execute {r : Move × Board} (run : m.execute b = .ok r) : r.1.piece = m.piece := by
  obtain ⟨hop, -, -, outcome, move⟩ := execute_eq_ok run
  obtain ⟨promoted, fields⟩ := playSteps_fst (m := m) (w := b) hop
  rw [move, fields]
  simp

theorem Fits.grow (fits : m.Fits x) (inArena : m.piece.index < x.pieces.size)
    (grows : x.ArenaGrows y) : m.Fits y :=
  ⟨(grows.kind _ inArena).trans fits.kind, (grows.color _ inArena).trans fits.color, fits.castle,
    fits.promotion, fits.promoted⟩

theorem Fits.executed (fits : m.Fits b) (v : Bool) : { m with executed := v }.Fits b :=
  ⟨fits.kind, fits.color, fits.castle, fits.promotion, fits.promoted⟩

theorem Fits.played (fits : m.Fits b) {r : Move × Board} (run : m.execute b = .ok r) : r.1.Fits b := by
  obtain ⟨hop, -, -, outcome, move⟩ := execute_eq_ok run
  obtain ⟨promoted, fields⟩ := playSteps_fst (m := m) (w := b) hop
  rw [move, fields]
  refine ⟨by simpa using fits.kind, by simpa using fits.color, by simpa using fits.castle,
    fun k promotes => by simpa using promotion_complete_eq_some fits promotes, fun held => ?_⟩
  cases promotes : (m.complete b hop).promotion with
  | some k => rfl
  | none =>
    have kept : (m.playSteps b hop).1.promoted = none := by
      rw [playSteps, promote_of_promotion_none promotes, promoted_complete,
        promoted_eq_none fits promotes]
    rw [fields] at kept
    have none_ : promoted = none := kept
    simp [none_] at held

theorem Fits.execute (coherent : b.Coherent) (fits : m.Fits b) {r : Move × Board}
    (run : m.execute b = .ok r) : r.1.Fits r.2 ∧ r.1.piece.index < r.2.pieces.size := by
  have held := occupant_origin_of_execute run
  have inArena : r.1.piece.index < b.pieces.size :=
    (piece_execute run) ▸ coherent.lt_size_of_tracks (Board.tracks_of_occupant held)
  have grows := arenaGrows_execute run
  exact ⟨(fits.played run).grow inArena grows, lt_of_lt_of_le inArena grows.size⟩

theorem prepare_eq_ok {o t : Square} {promo : Option PieceKind}
    (prepared : prepare b o t promo = .ok m) :
    ∃ id, b.occupant o = some id ∧
      ((∃ side kingTo, (b.piece id).kind = .king ∧ m = build b id o kingTo none (some side)) ∨
        (m = build b id o t promo none ∧ ∀ k, promo = some k →
          k.isPromotionTarget = true ∧ (b.piece id).kind = .pawn ∧
            t.rank = Rank.promotion (b.piece id).color)) := by
  unfold Move.prepare at prepared
  cases held : b.occupant o with
  | none => simp [held] at prepared
  | some id =>
    refine ⟨id, rfl, ?_⟩
    simp only [held] at prepared
    have named : ∀ k, promo = some k → k.isPromotionTarget = true ∧ (b.piece id).kind = .pawn ∧
        t.rank = Rank.promotion (b.piece id).color := by
      rintro k rfl
      by_cases target : k.isPromotionTarget = true
      · by_cases last : (b.piece id).kind = .pawn ∧ t.rank = Rank.promotion (b.piece id).color
        · exact ⟨target, last⟩
        · simp only [target, Bool.not_true, Bool.false_eq_true, if_false] at prepared
          rw [if_pos (not_and_or.mp last)] at prepared
          cases prepared
      · simp [target] at prepared
    rcases promo with _ | k
    · by_cases king : (b.piece id).kind = .king
      · cases intent : castleIntent? b id o t with
        | some plan => exact .inl ⟨plan.1, plan.2, king, by simpa [king, intent] using prepared.symm⟩
        | none => exact .inr ⟨by simpa [king, intent] using prepared.symm, named⟩
      · exact .inr ⟨by simpa [king] using prepared.symm, named⟩
    · obtain ⟨target, pawn, last⟩ := named k rfl
      simp [target, pawn, last] at prepared
      exact .inr ⟨by simpa using prepared.symm, named⟩

theorem Fits.prepare {o t : Square} {promo : Option PieceKind} (prepared : prepare b o t promo = .ok m) :
    m.Fits b ∧ b.occupant o = some m.piece := by
  obtain ⟨id, held, ⟨side, kingTo, king, rfl⟩ | ⟨rfl, named⟩⟩ := prepare_eq_ok prepared
  · exact ⟨⟨by simp, by simp, fun _ => by simpa using king, by simp, by simp⟩, by simpa using held⟩
  · exact ⟨⟨by simp, by simp, by simp, by simpa using named, by simp⟩, by simpa using held⟩

theorem Fits.new (coherent : b.Coherent) {o t : Square} {promo : Option PieceKind} {n : Move}
    (made : Move.new b o t promo = .ok n) : n.Fits b ∧ n.piece.index < b.pieces.size := by
  obtain ⟨m, prepared, rehearsed⟩ := Except.bind_eq_ok.mp made
  obtain ⟨trial, tried, result⟩ := Except.bind_eq_ok.mp rehearsed
  cases result
  obtain ⟨fits, held⟩ := Fits.prepare prepared
  obtain ⟨r, run, undone⟩ := Except.bind_eq_ok.mp tried
  obtain ⟨u, unrun, taken⟩ := Except.bind_eq_ok.mp undone
  cases taken
  obtain ⟨-, -, -, rfl⟩ := unexecute_eq_ok.mp unrun
  have played := fits.played run
  refine ⟨⟨played.kind, played.color, played.castle, played.promotion, fun held => ?_⟩, ?_⟩
  · simp [Trial.result] at held
  · simpa [Trial.result, piece_execute run] using coherent.lt_size_of_tracks (Board.tracks_of_occupant held)

end Move

end Chess
