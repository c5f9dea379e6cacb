import Chess.Proofs.History.Edit
import Chess.Proofs.Move.Again

namespace Chess

namespace History

/-! Every node of a history plays again. The board of a history returns to a position for
every node: the position its node's move was first played to. A node's move was played from a
board returning to its parent's position, and the board a walk finds at the parent returns to
that position too; two boards returning to one position return to each other, so the move
plays again on the board the walk finds, gives back the same move, and leaves a board
returning to the node's position. Taking the current move back likewise returns to its
parent's position. So walking the tree never fails. -/

variable {h : History} {base : Option NodeId → Board}

/-- A fitting move played on a coherent, settled board that returns to the position `a`. -/
structure PlayFrom (a v : Board) (m : Move) (r : Move × Board) : Prop where
  returns : a.Returns v
  coherent : v.Coherent
  settled : v.Settled
  fits : m.Fits v
  run : m.execute v = .ok r

/-- The play that anchors a node: from a board returning to its parent's position to its own
position, the move it gave back held by the node, and the arena grown since up to `board`. -/
def Anchor (base : Option NodeId → Board) (board : Board) (x : NodeId) (n : Node) : Prop :=
  ∃ v m r, PlayFrom (base n.parent) v m r ∧ r.2 = base (some x) ∧ r.2.ArenaGrows board ∧
    n.move = { r.1 with executed := n.move.executed }

/-- The positions `base` anchor the history: its board returns to the current node's, and
every node has its anchoring play. -/
structure Anchors (h : History) (base : Option NodeId → Board) : Prop where
  board : (base h.current).Returns h.board
  node : ∀ x n, h.node? x = some n → Anchor base h.board x n

namespace Anchor

variable {board board' : Board} {x : NodeId} {n : Node}

theorem grow (anchor : Anchor base board x n) (grows : board.ArenaGrows board') :
    Anchor base board' x n := by
  obtain ⟨v, m, r, play, at_, grown, stored⟩ := anchor
  exact ⟨v, m, r, play, at_, grown.trans grows, stored⟩

theorem congr {base' : Option NodeId → Board} (anchor : Anchor base board x n)
    (parent : base' n.parent = base n.parent) (self : base' (some x) = base (some x)) :
    Anchor base' board x n := by
  obtain ⟨v, m, r, play, at_, grown, stored⟩ := anchor
  exact ⟨v, m, r, parent ▸ play, self ▸ at_, grown, stored⟩

end Anchor

namespace Anchors

theorem new (b0 : Board) : Anchors (new b0) fun _ => b0 :=
  ⟨Board.Returns.refl b0, fun x n found => by simp [History.new, node?] at found⟩

theorem of_edit (anchors : Anchors h base) {h' : History}
    (back : ∀ x n', h'.node? x = some n' →
      ∃ n, h.node? x = some n ∧ n'.move = n.move ∧ n'.parent = n.parent)
    (board : h'.board = h.board) (current : h'.current = h.current) : Anchors h' base := by
  refine ⟨board ▸ current ▸ anchors.board, fun x n' found' => ?_⟩
  obtain ⟨n, found, move, parent⟩ := back x n' found'
  obtain ⟨v, m, r, play, at_, grown, stored⟩ := anchors.node x n found
  exact ⟨v, m, r, parent ▸ play, at_, board ▸ grown, by rw [move]; exact stored⟩

theorem modifyContinuations (anchors : Anchors h base) (o : Option NodeId)
    (f : Array NodeId → Array NodeId) : Anchors (h.modifyContinuations o f) base :=
  anchors.of_edit (fun _ _ found => node?_modifyContinuations_eq_some o f found) (by simp) (by simp)

theorem dropSubtree_go (anchors : Anchors h base) (pending : List NodeId) :
    Anchors (dropSubtree.go pending h) base := by
  refine anchors.of_edit (fun x n' found' => ⟨n', ?_, rfl, rfl⟩) (by rw [dropSubtree_go_eq])
    (by rw [dropSubtree_go_eq])
  by_cases gone : ∃ p ∈ pending, h.Below p x
  · rw [(node?_dropSubtree_go pending h x).1 gone] at found'
    cases found'
  · rwa [(node?_dropSubtree_go pending h x).2 gone] at found'

theorem relocate (anchors : Anchors h base) {id : NodeId} {m : Move} {b : Board}
    {c : Option NodeId} (grows : h.board.ArenaGrows b) (board : (base c).Returns b)
    (moved : ∀ n, h.node? id = some n → Anchor base b id { n with move := m }) :
    Anchors (h.relocate id m b c) base := by
  refine ⟨board, fun x n' found' => ?_⟩
  rw [node?_relocate, node?_setMove] at found'
  split at found'
  · rename_i here
    subst here
    obtain ⟨n, found, rfl⟩ := Option.map_eq_some_iff.mp found'
    exact moved n found
  · exact (anchors.node x n' found').grow grows

variable {b0 : Board}

/-- A child of the current node plays again on the board: its move, not executed, gives back
the move its anchoring play gave, which is its own move played, and the board it leaves returns
to the child's position. -/
theorem stepInto (anchors : Anchors h base) (sound : Sound b0 h) {id : NodeId} {n : Node}
    (found : h.node? id = some n) (child : n.parent = h.current) :
    ∃ s, n.move.execute h.board = .ok s ∧ s.1 = { n.move with executed := true } ∧
      Anchors (h.relocate id s.1 s.2 (some id)) base := by
  obtain ⟨v, m, r, play, at_, grown, stored⟩ := anchors.node id n found
  have off : id ∉ h.currentLine := sound.shaped.not_mem_of_parent found (child ▸ sound.path)
  have unplayed : n.move.executed = false := by
    simpa [off] using sound.executed id n found
  rw [unplayed] at stored
  have returns : v.Returns h.board :=
    play.returns.sibling (child ▸ anchors.board) ((Move.arenaGrows_execute play.run).trans grown)
  obtain ⟨s, run, same, returned⟩ := Move.execute_again play.coherent play.settled play.fits
    play.run returns grown sound.coherent sound.settled
  refine ⟨s, stored ▸ run, by rw [same, stored, ← (Move.execute_records play.run).1],
    anchors.relocate (Move.arenaGrows_execute run) (by rw [← at_]; exact returned) fun n₁ found₁ => ?_⟩
  rw [found] at found₁
  cases found₁
  refine ⟨v, m, r, play, at_, grown.trans (Move.arenaGrows_execute run), ?_⟩
  rw [same]

theorem prev (anchors : Anchors h base) (sound : Sound b0 h) {id : NodeId} {n : Node}
    (current : h.current = some id) (found : h.node? id = some n) :
    ∃ t, n.move.unexecute h.board = .ok t ∧ Anchors (h.relocate id t.1 t.2 n.parent) base := by
  obtain ⟨v, m, r, play, at_, grown, stored⟩ := anchors.node id n found
  have onLine : id ∈ h.currentLine := by
    have last := sound.path.getLast?_eq
    rw [current] at last
    exact List.mem_of_getLast? last
  have played : n.move.executed = true := (sound.executed id n found).mpr onLine
  have move : n.move = r.1 := by
    rw [stored, played, ← (Move.execute_records play.run).1]
  have returns : r.2.Returns h.board := by
    rw [at_, ← current]
    exact anchors.board
  obtain ⟨t, undone, taken, returned⟩ :=
    Move.unexecute_again play.coherent play.settled play.fits play.run returns sound.coherent
  refine ⟨t, move ▸ undone, anchors.relocate (Move.arenaGrows_unexecute undone)
    (play.returns.trans returned) fun n₁ found₁ => ?_⟩
  rw [found] at found₁
  cases found₁
  refine ⟨v, m, r, play, at_, grown.trans (Move.arenaGrows_unexecute undone), ?_⟩
  rw [taken]

theorem attach (anchors : Anchors h base) (sound : Sound b0 h) {mv : Move} (fits : mv.Fits h.board)
    {r : Move × Board} (run : mv.execute h.board = .ok r) :
    Anchors (h.attach r.1 r.2) (Function.update base (some ⟨h.nodes.size⟩) r.2) := by
  have fresh := sound.current_lt
  have current := sound.current_ne_size
  refine ⟨by simp [Board.Returns.refl], fun x n' found' => ?_⟩
  rw [board_attach]
  rcases node?_attach_eq_some fresh found' with ⟨rfl, rfl⟩ | ⟨n, found, move, parent⟩
  · refine ⟨h.board, mv, r, ⟨?_, sound.coherent, sound.settled, fits, run⟩, by simp,
      Board.ArenaGrows.refl _, rfl⟩
    rw [Function.update_of_ne current]
    exact anchors.board
  · have old : x ≠ ⟨h.nodes.size⟩ := ne_size_of_node? found
    have parentOld := sound.shaped.parent_ne_size found
    have anchor : Anchor (Function.update base (some ⟨h.nodes.size⟩) r.2) r.2 x n :=
      ((anchors.node x n found).grow (Move.arenaGrows_execute run)).congr
        (Function.update_of_ne parentOld _ _) (Function.update_of_ne (by simpa using old) _ _)
    obtain ⟨v, m, r', play, at_, grown, stored⟩ := anchor
    exact ⟨v, m, r', parent ▸ play, at_, grown, by rw [move]; exact stored⟩

end Anchors

def Anchored (b0 : Board) (h : History) : Prop := Sound b0 h ∧ ∃ base, Anchors h base

end History

end Chess
