import Chess.Proofs.Board.Setup
import Chess.Proofs.Move.TakeBack

namespace Chess

namespace Board

/-! The representation invariant across the library. Every board the library builds is well
formed, and every successful edit before play, every move played and every take-back of the
move last played keeps it so. Standing a piece on a square is the exception: it keeps the
four views coherent, but nothing stops it from standing a pawn on its first or last rank. -/

variable {w y : Board} {m : Move} {r : Move × Board}

theorem Agree.pawnsOffEdge (agree : Agree w y) (pawns : w.PawnsOffEdge) : y.PawnsOffEdge := by
  intro s id held pawn
  have tracked : w.Tracks id := tracks_of_occupant (by rw [agree.occupant]; exact held)
  rw [← agree.occupant] at held
  rw [← Coherent.kind_piece_of_bare_views (agree.piece id tracked)] at pawn
  exact pawns s id held pawn

theorem WellFormed.unexecute (wellFormed : w.WellFormed) (settled : w.Settled) (fits : m.Fits w)
    (run : m.execute w = .ok r) (restores : r.2.Restores y) (wellFormedY : y.WellFormed) :
    ∃ t, r.1.unexecute y = .ok t ∧ t.2.WellFormed := by
  obtain ⟨t, undone, -, restoresT, -, -, coherentT⟩ :=
    (Move.undoable_execute wellFormed.toCoherent settled fits run).unexecute wellFormed.toCoherent
      settled restores
  exact ⟨t, undone, coherentT wellFormedY.toCoherent,
    restoresT.toAgree.pawnsOffEdge wellFormed.pawns⟩

/-- What the library's operations do to the invariant from a board `b`: every successful edit
before play gives a well-formed board, and so do playing a move and taking back the move last
played, from any well-formed board that restores the one it was played to. Standing a piece
on a square keeps the views coherent, and keeps the board well formed exactly when the piece
is not a pawn sent to the first or last rank. -/
def OperationsWellFormed (b : Board) : Prop :=
  (∀ kind color s r, b.placePiece kind color s = .ok r → r.1.WellFormed) ∧
  (∀ s r, b.removePiece s = .ok r → r.1.WellFormed) ∧
  (∀ s id b', b.setOccupant s id = .ok b' → b'.Coherent ∧
    (b'.WellFormed ↔ ¬((b.piece id).kind = .pawn ∧
      (s.rank = Rank.back .white ∨ s.rank = Rank.back .black)))) ∧
  (∀ c b', b.setSide c = .ok b' → b'.WellFormed) ∧
  (∀ f b', b.setEnPassant f = .ok b' → b'.WellFormed) ∧
  (∀ n b', b.setHalfmove n = .ok b' → b'.WellFormed) ∧
  (∀ n b', b.setFullmove n = .ok b' → b'.WellFormed) ∧
  (∀ c side allowed b', b.setCastleRights c side allowed = .ok b' → b'.WellFormed) ∧
  (b.Settled → ∀ (m : Move) r, m.Fits b → m.execute b = .ok r → r.2.WellFormed ∧
    ∀ y, r.2.Restores y → y.WellFormed → ∃ t, r.1.unexecute y = .ok t ∧ t.2.WellFormed)

/-- The representation invariant holds of the empty board, the standard start and every board
built from a setup or a FEN text, and every operation of the library on a well-formed board
keeps it, but standing a pawn on an edge rank. -/
theorem wellFormed_preserved (st : Setup) (text : String) {b : Board} (wellFormed : b.WellFormed) :
    Board.empty.WellFormed ∧ Board.standard.WellFormed ∧
      (∀ x, Board.ofSetup st = .ok x → x.WellFormed) ∧
      (∀ x, Board.ofFen text = .ok x → x.WellFormed) ∧ b.OperationsWellFormed := by
  refine ⟨WellFormed.empty, WellFormed.standard, fun _ built => WellFormed.ofSetup built,
    fun _ built => WellFormed.ofFen built, ?_⟩
  refine ⟨fun _ _ _ ⟨_, _⟩ placed => wellFormed.placePiece placed,
    fun _ ⟨_, _⟩ removed => wellFormed.removePiece removed,
    fun _ _ _ set => ?_, fun _ _ set => wellFormed.setSide set,
    fun _ _ set => wellFormed.setEnPassant set, fun _ _ set => wellFormed.setHalfmove set,
    fun _ _ set => wellFormed.setFullmove set, fun _ _ _ _ set => wellFormed.setCastleRights set,
    fun settled _ _ fits run => ⟨wellFormed.execute settled fits run,
      fun _ restores wellFormedY => wellFormed.unexecute settled fits run restores wellFormedY⟩⟩
  have coherent := wellFormed.toCoherent.setOccupant set
  exact ⟨coherent, ⟨fun wellFormed' => (pawnsOffEdge_setOccupant_iff wellFormed set).mp wellFormed'.pawns,
    fun allowed => ⟨coherent, (pawnsOffEdge_setOccupant_iff wellFormed set).mpr allowed⟩⟩⟩

theorem wellFormed_preserved_standard : Board.standard.WellFormed ∧
    Board.empty.WellFormed ∧ Board.standard.WellFormed ∧
      (∀ x, Board.ofSetup Setup.standard = .ok x → x.WellFormed) ∧
      (∀ x, Board.ofFen Fen.standard = .ok x → x.WellFormed) ∧
      Board.standard.OperationsWellFormed :=
  ⟨WellFormed.standard, wellFormed_preserved Setup.standard Fen.standard WellFormed.standard⟩

end Board

end Chess
