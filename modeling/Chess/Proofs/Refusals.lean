import Chess.Proofs.History.Refused
import Chess.Proofs.Board.Edit

namespace Chess

/-! Refusals are decided on the state as it was given. The board's setup edits and a move's
play and take-back check the board first and change it only once every check has passed: after
play has begun every setup edit is refused; granting a castling right, which marks the wing's
other rooks as moved before its checks, is refused only when the wing has no rook at all, so
that marking touched nothing; and a move is refused exactly when its checks refuse it, with
nothing journaled. The history's operations keep the whole history when they fail. -/

namespace Board

variable {b : Board} {α : Type}

theorem ensureSetup_bind_of_started (started : b.started = true) (rest : Unit → Except MoveError α) :
    (b.ensureSetup >>= rest) = .error (.illegalState "position setup after play has begun") := by
  simp only [ensureSetup, started, if_true]
  rfl

theorem king_of_wingRooks {c : Color} {side : CastleSide} (rooks : b.wingRooks c side ≠ []) :
    (b.king c).isSome := by
  unfold wingRooks at rooks
  cases found : b.kingSquare c with
  | none => simp [found] at rooks
  | some ks =>
    unfold kingSquare at found
    cases king : b.king c <;> simp_all

theorem king_foldl_modifyPiece (f : Piece → Piece) (rooks : List PieceId) (c : Color) :
    (rooks.foldl (fun b r => b.modifyPiece r f) b).king c = b.king c := by
  induction rooks generalizing b with
  | nil => rfl
  | cons r rest ih => simp [ih]

/-- Granting or withdrawing a castling right is refused only when a right is granted on a wing
with no rook, so the rooks it marks as moved before its checks are none; a missing king never
refuses it, for a wing has rooks only beside its king. -/
theorem applyCastleRights_error_iff {c : Color} {side : CastleSide} {allowed : Bool} {e : MoveError} :
    b.applyCastleRights c side allowed = .error e ↔ allowed = true ∧ b.wingRooks c side = [] ∧
      e = .illegalState (c.name ++ " has no rook to castle " ++ side.name) := by
  unfold applyCastleRights
  cases allowed with
  | false => simp [pure, Except.pure]
  | true =>
    cases rooks : b.wingRooks c side with
    | nil => simp [throw, throwThe, MonadExceptOf.throw, eq_comm]
    | cons r rest =>
      have listed : b.wingRooks c side ≠ [] := by simp [rooks]
      obtain ⟨k, found⟩ := Option.isSome_iff_exists.mp (king_of_wingRooks listed)
      simp [king_foldl_modifyPiece, found, pure, Except.pure]

end Board

namespace Move

variable {m : Move} {b : Board} {e : MoveError}

theorem execute_error_iff : m.execute b = .error e ↔ m.checkPlayable b = .error e := by
  unfold execute
  cases m.checkPlayable b <;> simp [bind, Except.bind, pure, Except.pure]

theorem run_executeNoted_of_error (refused : m.execute b = .error e) (j : Array Entry) :
    (m.executeNoted b).run j = (.error e, j) := by
  unfold executeNoted
  rw [refused]
  rfl

theorem run_unexecuteNoted_of_error (refused : m.unexecute b = .error e) (j : Array Entry) :
    (m.unexecuteNoted b).run j = (.error e, j) := by
  unfold unexecuteNoted
  rw [refused]
  rfl

end Move

/-- A refused operation changes nothing. Every setup edit of a board is refused once play has
begun; a castling right is refused only on a wing with no rook, before any rook is marked; a
move is refused exactly when its checks on the board refuse it, and then playing or taking it
back journals nothing. On every history reached from a coherent, settled board, adding a move,
adding a piece's move, promoting a variation, removing a node and going to a node keep the
whole history when they fail, and journal records only. -/
theorem refused_operations_change_nothing :
    (∀ b : Board, b.started = true →
      let refusal : MoveError := .illegalState "position setup after play has begun"
      (∀ kind color s, b.placePiece kind color s = .error refusal) ∧
      (∀ s, b.removePiece s = .error refusal) ∧ (∀ s id, b.setOccupant s id = .error refusal) ∧
      (∀ c, b.setSide c = .error refusal) ∧ (∀ f, b.setEnPassant f = .error refusal) ∧
      (∀ n, b.setHalfmove n = .error refusal) ∧ (∀ n, b.setFullmove n = .error refusal) ∧
      ∀ c side allowed, b.setCastleRights c side allowed = .error refusal) ∧
    (∀ (b : Board) c side allowed e, b.applyCastleRights c side allowed = .error e ↔
      allowed = true ∧ b.wingRooks c side = [] ∧
        e = .illegalState (c.name ++ " has no rook to castle " ++ side.name)) ∧
    (∀ (m : Move) b e, m.execute b = .error e ↔ m.checkPlayable b = .error e) ∧
    (∀ (m : Move) b e j, m.execute b = .error e → (m.executeNoted b).run j = (.error e, j)) ∧
    (∀ (m : Move) b e j, m.unexecute b = .error e → (m.unexecuteNoted b).run j = (.error e, j)) ∧
    ∀ (b0 : Board) (h : History), b0.Coherent → b0.Settled → History.Reachable b0 h →
      (∀ mv, Refuses (History.add mv) h) ∧ (∀ o t p, Refuses (History.addMove o t p) h) ∧
      (∀ id, Refuses (History.promote id) h) ∧ (∀ id, Refuses (History.remove id) h) ∧
      ∀ target, Refuses (History.goTo target) h := by
  refine ⟨fun b started => ?_, fun b c side allowed e => Board.applyCastleRights_error_iff,
    fun m b e => Move.execute_error_iff, fun m b e j refused => Move.run_executeNoted_of_error refused j,
    fun m b e j refused => Move.run_unexecuteNoted_of_error refused j,
    fun b0 h coherent settled reached => ?_⟩
  · exact ⟨fun _ _ _ => Board.ensureSetup_bind_of_started started _,
      fun _ => Board.ensureSetup_bind_of_started started _,
      fun _ _ => Board.ensureSetup_bind_of_started started _,
      fun _ => Board.ensureSetup_bind_of_started started _,
      fun _ => Board.ensureSetup_bind_of_started started _,
      fun _ => Board.ensureSetup_bind_of_started started _,
      fun _ => Board.ensureSetup_bind_of_started started _,
      fun _ _ _ => Board.ensureSetup_bind_of_started started _⟩
  · have anchored := reached.anchored coherent settled
    exact ⟨fun mv => History.refuses_add mv h, fun o t p => History.refuses_addMove o t p h,
      fun id => History.refuses_promote id h, fun id => History.refuses_remove anchored id,
      fun target => History.refuses_goTo anchored target⟩

/-- After 1. e4 the board refuses to change the side to move; on the standard board Black's
d-pawn is refused out of turn and journals nothing; a lone king is refused a castling right; and
a history holding 1. e4 refuses to remove a node it does not hold, keeping itself. -/
theorem refused_operations_change_nothing_standard :
    let e4 := Move.knownLegal Board.standard ⟨9⟩ (Square.ofNat 12) (Square.ofNat 28) none none
    let d5 := Move.knownLegal Board.standard ⟨23⟩ (Square.ofNat 51) (Square.ofNat 35) none none
    (∃ played, e4.execute Board.standard = .ok played ∧
      played.2.setSide .white = .error (.illegalState "position setup after play has begun")) ∧
    (d5.execute Board.standard = .error (.outOfTurn .black) ∧
      (d5.executeNoted Board.standard).run #[] = (.error (.outOfTurn .black), #[])) ∧
    (∃ b, Board.ofFen "4k3/8/8/8/8/8/8/4K3 w - - 0 1" = .ok b ∧ b.wingRooks .white .kingside = [] ∧
      b.applyCastleRights .white .kingside true =
        .error (.illegalState "white has no rook to castle Kingside")) ∧
    ∃ h, History.Reachable Board.standard h ∧
      (((History.remove ⟨5⟩).run.run h).run #[]).1 = (.error (History.missing ⟨5⟩), h) := by
  intro e4 d5
  obtain ⟨setup, castles, plays, noted, -, histories⟩ := refused_operations_change_nothing
  refine ⟨?_, ?_, ?_, ?_⟩
  · have started : ((e4.execute Board.standard).toOption.map fun p => p.2.started) = some true := by
      decide +kernel
    obtain ⟨p, played, started⟩ := Except.ok_of_toOption_map started
    exact ⟨p, played, (setup p.2 started).2.2.2.1 .white⟩
  · have checked : d5.checkPlayable Board.standard = .error (.outOfTurn .black) := by decide +kernel
    have refused := (plays d5 Board.standard _).mpr checked
    exact ⟨refused, noted d5 Board.standard _ #[] refused⟩
  · have rooks : (Board.ofFen "4k3/8/8/8/8/8/8/4K3 w - - 0 1").toOption.map
        (fun b => b.wingRooks .white .kingside) = some [] := by decide +kernel
    obtain ⟨b, read, none⟩ := Except.ok_of_toOption_map rooks
    exact ⟨b, read, none, (castles b .white .kingside true _).mpr ⟨rfl, none, rfl⟩⟩
  · have reached : History.Reachable Board.standard _ :=
      .step (.addMove (Square.ofNat 12) (Square.ofNat 28) none) #[] .new trivial
    suffices kept : ∀ h, History.Reachable Board.standard h →
        (((History.remove ⟨5⟩).run.run h).run #[]).1.1 = .error (History.missing ⟨5⟩) →
        (((History.remove ⟨5⟩).run.run h).run #[]).1 = (.error (History.missing ⟨5⟩), h) from
      ⟨_, reached, kept _ reached (by decide +kernel)⟩
    intro h reached failed
    exact Prod.ext failed ((histories _ _ Board.WellFormed.standard.toCoherent Board.Settled.standard
      reached).2.2.2.1 ⟨5⟩ #[] _ failed).1

end Chess
