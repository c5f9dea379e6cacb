import Chess.Proofs.Quiet
import Chess.Proofs.History.Replay

namespace Chess

namespace History

/-! Refused calls on a history change nothing. Adding a move, adding the move of a piece and
promoting a variation fail only before they change the history, and what they journal first
are records: a rejected move is reported, never announced. Going to a node and removing one
fail only on a node missing from the tree, before any announcement: on an anchored history the
walk they make goes through. -/

variable {b0 : Board} {h : History}

theorem quiet_journal {α : Type} {act : Noted α} (records : act.Records) (h : History) :
    Quiet (journal act) h :=
  quiet_lift records h

theorem refuses_stepInto (id : NodeId) (h : History) : Refuses (stepInto id) h := by
  unfold stepInto
  refine Refuses.get_bind ?_
  split
  · refine Refuses.bind_quiet (quiet_journal (Move.records_executeNoted _ _) h) fun r => ?_
    split
    · exact Refuses.of_ok fun _ => ⟨_, rfl⟩
    · exact (quiet_throw _ h).refuses
  · exact (quiet_throw _ h).refuses

theorem refuses_add (mv : Move) (h : History) : Refuses (add mv) h := by
  unfold add
  refine Refuses.get_bind ?_
  dsimp only
  split
  · exact (refuses_stepInto _ h).bind_ok fun _ _ _ => ⟨_, rfl⟩
  · refine Refuses.bind_quiet (quiet_journal (Move.records_executeNoted _ _) h) fun r => ?_
    split
    · exact Refuses.bind_quiet (quiet_journal (Noted.records_log _ _) h) fun _ =>
        (quiet_throw _ h).refuses
    · exact Refuses.of_ok fun _ => ⟨_, rfl⟩

theorem refuses_addMove (o t : Square) (p : Option PieceKind) (h : History) :
    Refuses (addMove o t p) h := by
  unfold addMove
  refine Refuses.get_bind ?_
  refine Refuses.bind_quiet (quiet_journal (Move.records_newNoted _ _ _ _) h) fun r => ?_
  split
  · exact refuses_add _ h
  · exact (quiet_throw _ h).refuses

theorem refuses_promote (id : NodeId) (h : History) : Refuses (promote id) h := by
  unfold promote
  refine Refuses.get_bind ?_
  split
  · split
    · split
      · exact Refuses.of_ok fun _ => ⟨_, rfl⟩
      · exact (quiet_pure _ h).refuses
    · exact (quiet_throw _ h).refuses
  · exact (quiet_throw _ h).refuses

theorem refuses_goTo (anchored : Anchored b0 h) (target : Option NodeId) :
    Refuses (goTo target) h := by
  by_cases present : ∀ id, target = some id → h.contains id = true
  · exact Refuses.of_ok fun j => ⟨⟨⟩, (triple_goTo_anchored anchored present h j rfl).1⟩
  · obtain ⟨id, rfl, absent⟩ : ∃ id, target = some id ∧ h.contains id = false := by
      simpa using present
    unfold goTo
    refine Refuses.get_bind ?_
    rw [absent]
    exact refuses_throw_bind _ _ h

theorem refuses_remove (anchored : Anchored b0 h) (id : NodeId) : Refuses (remove id) h := by
  cases present : h.contains id with
  | true => exact Refuses.of_ok fun j => ⟨⟨⟩, (triple_remove_anchored anchored id h j rfl).2 present⟩
  | false =>
    have missing : h.node? id = none := by simpa [contains] using present
    unfold remove
    refine Refuses.get_bind ?_
    rw [missing]
    exact (quiet_throw _ h).refuses

end History

end Chess
