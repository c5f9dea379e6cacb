import Chess.Proofs.History.Steps

namespace Chess

namespace History

/-! Histories reachable from a new history by any sequence of calls, each of which may succeed
or fail. Every call keeps a history in step with the board it started from, so every reachable
history is: its tree is well formed, exactly the moves of its current line are marked played,
its board looks like the start board with the moves of the current line replayed on it, and
its board's side and move number are those of the current node. -/

/-- A call on a history, with its arguments. -/
inductive Call where
  | add (mv : Move)
  | addMove (origin target : Square) (promotion : Option PieceKind)
  | next
  | nextVariation (index : Nat)
  | prev
  | goTo (target : Option NodeId)
  | rewind
  | fastforward
  | promote (id : NodeId)
  | remove (id : NodeId)
  | truncate

def Call.act : Call → HistoryM Unit
  | .add mv => discard (History.add mv)
  | .addMove origin target promotion => discard (History.addMove origin target promotion)
  | .next => discard History.next
  | .nextVariation index => discard (History.nextVariation index)
  | .prev => discard History.prev
  | .goTo target => History.goTo target
  | .rewind => History.rewind
  | .fastforward => History.fastforward
  | .promote id => History.promote id
  | .remove id => History.remove id
  | .truncate => History.truncate

/-- The calls the library makes. A move added to a history is one the library built: when it
comes from the line of the history's board, its piece has the kind and colour the move says,
on that board. -/
def Call.Allowed : Call → History → Prop
  | .add mv, h => mv.lineage = h.board.lineage → mv.Fits h.board
  | _, _ => True

/-- The histories reachable from a new history over `b0`, each call succeeding or failing, with
any journal. -/
inductive Reachable (b0 : Board) : History → Prop
  | new : Reachable b0 (History.new b0)
  | step {h : History} (c : Call) (j : Array Entry) (reached : Reachable b0 h) (allowed : c.Allowed h) :
      Reachable b0 ((History.run c.act h).run j).1.2

variable {b0 : Board} {h : History}

theorem Triple.discard_sound {α : Type} {P : History → Prop} {x : HistoryM α}
    (spec : Triple P x fun _ h => Sound b0 h) : Triple P (Functor.discard x) fun _ h => Sound b0 h :=
  spec.discard (fun _ _ post => post) fun _ _ post => post

theorem triple_call (c : Call) :
    Triple (fun h => Sound b0 h ∧ c.Allowed h) c.act fun _ h => Sound b0 h := by
  have pre : ∀ h, Sound b0 h ∧ c.Allowed h → Sound b0 h := fun _ start => start.1
  cases c with
  | add mv => exact Triple.discard_sound (triple_add mv)
  | addMove origin target promotion =>
    exact (Triple.discard_sound (triple_addMove origin target promotion)).mono pre fun _ _ post => post
  | next => exact (Triple.discard_sound triple_next).mono pre fun _ _ post => post
  | nextVariation index =>
    exact (Triple.discard_sound (triple_nextVariation index)).mono pre fun _ _ post => post
  | prev =>
    exact Triple.of_each fun _ start =>
      (triple_prev start.1).discard (fun _ _ post => post.1) fun _ _ post => post.1
  | goTo target =>
    exact Triple.of_each fun _ start =>
      (triple_goTo start.1 target).mono (fun _ same => same) fun _ _ post => post.1
  | rewind => exact triple_rewind.mono pre fun _ _ post => post
  | fastforward => exact triple_fastforward.mono pre fun _ _ post => post
  | promote id => exact (triple_promote id).mono pre fun _ _ post => post
  | remove id => exact (triple_remove id).mono pre fun _ _ post => post
  | truncate => exact triple_truncate.mono pre fun _ _ post => post

theorem Reachable.sound (coherent : b0.Coherent) (settled : b0.Settled) (reached : Reachable b0 h) :
    Sound b0 h := by
  induction reached with
  | new => exact sound_new coherent settled
  | step c j _ allowed sound => exact triple_call c _ j ⟨sound, allowed⟩

end History

end Chess
