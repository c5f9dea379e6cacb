import Chess.Proofs.History.Prune
import Chess.Proofs.Move.Walk
import Chess.Proofs.Notation.ReadBack
import Chess.Proofs.Move.Guard

namespace Chess

namespace History

/-! A history in step with its board. From `History.new b0`, the tree stays shaped, the
current node lives, exactly the moves of the current line are marked played, and the board
stands where the current line leads: playing the line's moves from `b0` again gives the
board's position, clocks and record. Here is that invariant, `Sound b0`, and what entering a
node and going back from it do to it. -/

variable {h h' : History} {b0 : Board}

/-! ### Paths -/

namespace Ancestry

variable {target : Option NodeId} {line : List NodeId}

theorem getLast?_eq (path : Ancestry h target line) : line.getLast? = target := by
  cases path with
  | start => rfl
  | node found up => simp

theorem target_eq {target' : Option NodeId} (path : Ancestry h target line)
    (path' : Ancestry h target' line) : target = target' := by
  rw [← path.getLast?_eq, path'.getLast?_eq]

theorem of_append {x : NodeId} {rest : List NodeId} (path : Ancestry h target (line ++ x :: rest)) :
    ∃ n, h.node? x = some n ∧ Ancestry h n.parent line := by
  induction rest using List.reverseRecOn generalizing target with
  | nil =>
    generalize joined : line ++ [x] = whole at path
    cases path with
    | start => simp at joined
    | @node id n line' found up =>
      obtain ⟨rfl, same⟩ := List.append_inj' joined.symm rfl
      cases List.singleton_inj.mp same
      exact ⟨n, found, up⟩
  | append_singleton rest y ih =>
    generalize joined : line ++ x :: (rest ++ [y]) = whole at path
    cases path with
    | start => simp at joined
    | @node id n line' found up =>
      rw [← List.cons_append, ← List.append_assoc] at joined
      obtain ⟨rfl, -⟩ := List.append_inj' joined.symm rfl
      exact ih up

end Ancestry

namespace Shaped

variable (shaped : h.Shaped)
include shaped

theorem index_le_of_mem {t : NodeId} {line : List NodeId} (path : Ancestry h (some t) line) :
    ∀ x ∈ line, x.index ≤ t.index := by
  generalize reached : some t = target at path
  induction path generalizing t with
  | start => cases reached
  | @node id n line found up ih =>
    cases reached
    intro x member
    rcases List.mem_append.mp member with inner | last
    · cases parent : n.parent with
      | none =>
        rw [parent] at up
        cases up
        cases inner
      | some p =>
        have smaller := (shaped.parent id n found p parent).2
        have below := ih parent.symm x inner
        omega
    · rw [List.mem_singleton.mp last]

theorem not_mem_of_parent {id : NodeId} {n : Node} (found : h.node? id = some n)
    {line : List NodeId} (path : Ancestry h n.parent line) : id ∉ line := by
  intro member
  cases parent : n.parent with
  | none =>
    rw [parent] at path
    cases path
    cases member
  | some p =>
    rw [parent] at path
    have smaller := (shaped.parent id n found p parent).2
    have below := shaped.index_le_of_mem path id member
    omega

end Shaped

/-! ### Trees kept -/

/-- `h` keeps the tree of `h₀`: every node of `h₀` lives on in `h`, with its parent and its
continuations. -/
def KeepsTree (h₀ h : History) : Prop :=
  ∀ x n, h₀.node? x = some n →
    ∃ n', h.node? x = some n' ∧ n'.parent = n.parent ∧ n'.continuations = n.continuations

theorem KeepsTree.refl (h : History) : KeepsTree h h := fun _ n found => ⟨n, found, rfl, rfl⟩

theorem KeepsTree.trans {h₀ h₁ h₂ : History} (first : KeepsTree h₀ h₁) (second : KeepsTree h₁ h₂) :
    KeepsTree h₀ h₂ := by
  intro x n found
  obtain ⟨n₁, found₁, parent₁, continuations₁⟩ := first x n found
  obtain ⟨n₂, found₂, parent₂, continuations₂⟩ := second x n₁ found₁
  exact ⟨n₂, found₂, parent₂.trans parent₁, continuations₂.trans continuations₁⟩

theorem Move.playsSame_refl (m : Move) : m.playsSame m = true := by
  simp [Move.playsSame]

theorem Move.playsSame_executed (m : Move) (v : Bool) : { m with executed := v }.playsSame m = true := by
  simp [Move.playsSame, Move.promotionPiece]

theorem node?_setMove_eq_some {id x : NodeId} {m : Move} {n : Node}
    (found : (h.setMove id m).node? x = some n) :
    ∃ n₀, h.node? x = some n₀ ∧ n.parent = n₀.parent ∧ n.continuations = n₀.continuations := by
  rw [node?_setMove] at found
  split at found
  · obtain ⟨n₀, found₀, rfl⟩ := Option.map_eq_some_iff.mp found
    exact ⟨n₀, found₀, rfl, rfl⟩
  · exact ⟨n, found, rfl, rfl⟩

theorem keepsTree_setMove (id : NodeId) (m : Move) : KeepsTree h (h.setMove id m) := by
  intro x n found
  rw [node?_setMove, found]
  split <;> exact ⟨_, rfl, rfl, rfl⟩

theorem Ancestry.keep {target : Option NodeId} {line : List NodeId} (path : Ancestry h target line)
    (keeps : KeepsTree h h') : Ancestry h' target line :=
  path.transfer fun x _ n found =>
    let ⟨n', found', parent, _⟩ := keeps x n found
    ⟨n', found', parent⟩

/-! ### Moves replaced by moves playing the same -/

@[simp] theorem get?_setMove (id x : NodeId) (m : Move) :
    (h.setMove id m).get? x = if x = id then (h.get? x).map fun _ => m else h.get? x := by
  simp only [get?, node?_setMove]
  split <;> simp [Option.map_map, Function.comp_def]

@[simp] theorem contains_setMove (id x : NodeId) (m : Move) :
    (h.setMove id m).contains x = h.contains x := by
  simp only [contains, node?_setMove]
  split <;> simp

theorem Apart.of_playsSame
    (moves : ∀ x m', h'.get? x = some m' → ∃ m, h.get? x = some m ∧ m'.playsSame m = true)
    {a b : NodeId} (apart : h.Apart a b) : h'.Apart a b := by
  intro ma' mb' foundA foundB
  obtain ⟨ma, foundA₀, sameA⟩ := moves a ma' foundA
  obtain ⟨mb, foundB₀, sameB⟩ := moves b mb' foundB
  cases plays : ma'.playsSame mb' with
  | false => rfl
  | true =>
    have joined : ma.playsSame mb = true :=
      Move.playsSame_trans (by rw [Move.playsSame_comm]; exact sameA) (Move.playsSame_trans plays sameB)
    rw [apart ma mb foundA₀ foundB₀] at joined
    cases joined

theorem Shaped.setMove (shaped : h.Shaped) {id : NodeId} {m : Move}
    (same : ∀ n, h.node? id = some n → m.playsSame n.move = true) : (h.setMove id m).Shaped := by
  refine ⟨fun x n found p parent => ?_, fun x n found => ?_, fun owner list found e member => ?_,
    fun owner list found => ?_⟩
  · obtain ⟨n₀, found₀, parent₀, -⟩ := node?_setMove_eq_some found
    rw [contains_setMove]
    exact shaped.parent x n₀ found₀ p (parent₀ ▸ parent)
  · obtain ⟨n₀, found₀, parent₀, -⟩ := node?_setMove_eq_some found
    rw [continuations?_setMove, parent₀]
    exact shaped.listed x n₀ found₀
  · rw [continuations?_setMove] at found
    obtain ⟨n₀, found₀, parent₀⟩ := shaped.entries owner list found e member
    obtain ⟨n', found', parent', -⟩ := keepsTree_setMove id m e n₀ found₀
    exact ⟨n', found', parent'.trans parent₀⟩
  · rw [continuations?_setMove] at found
    refine (shaped.apart owner list found).imp fun apart => Apart.of_playsSame (fun x m' held => ?_) apart
    rw [get?_setMove] at held
    split at held
    · rename_i here
      subst here
      obtain ⟨m₀, found₀, rfl⟩ := Option.map_eq_some_iff.mp held
      obtain ⟨n, node, rfl⟩ := Option.map_eq_some_iff.mp found₀
      exact ⟨n.move, by simp [get?, node], same n node⟩
    · exact ⟨m', held, Move.playsSame_refl m'⟩

/-! ### The board and the current node -/

/-- The history with a node's move replaced, another board and another current node: what
entering a node or going back from one leaves. -/
def relocate (h : History) (id : NodeId) (m : Move) (b : Board) (c : Option NodeId) : History :=
  { h.setMove id m with board := b, current := c }

section Relocate

variable (id : NodeId) (m : Move) (b : Board) (c : Option NodeId)

@[simp] theorem node?_relocate (x : NodeId) : (h.relocate id m b c).node? x = (h.setMove id m).node? x :=
  rfl

@[simp] theorem get?_relocate (x : NodeId) : (h.relocate id m b c).get? x = (h.setMove id m).get? x :=
  rfl

@[simp] theorem contains_relocate (x : NodeId) :
    (h.relocate id m b c).contains x = (h.setMove id m).contains x := rfl

@[simp] theorem board_relocate : (h.relocate id m b c).board = b := rfl

@[simp] theorem current_relocate : (h.relocate id m b c).current = c := rfl

@[simp] theorem startSide_relocate : (h.relocate id m b c).startSide = h.startSide := rfl

@[simp] theorem startFullmove_relocate : (h.relocate id m b c).startFullmove = h.startFullmove := rfl

theorem Shaped.relocate (shaped : (h.setMove id m).Shaped) : (h.relocate id m b c).Shaped :=
  ⟨shaped.parent, shaped.listed, shaped.entries, shaped.apart⟩

theorem keepsTree_relocate : KeepsTree h (h.relocate id m b c) :=
  fun x n found => keepsTree_setMove id m x n found

variable {id m}

theorem Shaped.relocate_of_playsSame (shaped : h.Shaped) {n : Node} (found : h.node? id = some n)
    (same : m.playsSame n.move = true) : (h.relocate id m b c).Shaped :=
  (shaped.setMove fun n' found' => by
    rw [found] at found'
    cases found'
    exact same).relocate id m b c

theorem filterMap_get?_relocate {line : List NodeId} (off : id ∉ line) :
    line.filterMap (h.relocate id m b c).get? = line.filterMap h.get? :=
  List.filterMap_congr fun x member => by
    have other : x ≠ id := fun same => off (same ▸ member)
    simp [get?_setMove, other]

theorem fits_relocate
    (fits : ∀ x n, h.node? x = some n → n.move.Fits h.board ∧ n.move.piece.index < h.board.pieces.size)
    (grows : h.board.ArenaGrows b)
    (fitsNew : ∀ n, h.node? id = some n → m.Fits b ∧ m.piece.index < b.pieces.size) :
    ∀ x n', (h.relocate id m b c).node? x = some n' → n'.move.Fits b ∧ n'.move.piece.index < b.pieces.size := by
  intro x n' found'
  rw [node?_relocate, node?_setMove] at found'
  split at found'
  · rename_i here
    subst here
    obtain ⟨n, found, rfl⟩ := Option.map_eq_some_iff.mp found'
    exact fitsNew n found
  · obtain ⟨fitsX, inArena⟩ := fits x n' found'
    exact ⟨fitsX.grow inArena grows, lt_of_lt_of_le inArena grows.size⟩

end Relocate

/-! ### The invariant -/

def lineMoves (h : History) : List Move := h.currentLine.filterMap h.get?

/-- A history in step with the board `b0` it started from: its tree is shaped, its current
node lives, exactly the moves of the current line are marked played, the current line walks
from `b0` to the board, every stored move fits the board, and the start's side and full-move
number are those of `b0`. -/
structure Sound (b0 : Board) (h : History) : Prop where
  shaped : h.Shaped
  current : ∀ id, h.current = some id → h.contains id = true
  executed : ∀ id n, h.node? id = some n → (n.move.executed = true ↔ id ∈ h.currentLine)
  walk : Move.Walk b0 h.lineMoves h.board
  coherent : h.board.Coherent
  settled : h.board.Settled
  fits : ∀ id n, h.node? id = some n →
    n.move.Fits h.board ∧ n.move.piece.index < h.board.pieces.size
  startSide : h.startSide = b0.side
  startFullmove : h.startFullmove = b0.fullmove

theorem lineTo_none (h : History) : h.lineTo none = [] := by
  simp [lineTo, lineTo.go]

theorem sound_new (coherent : b0.Coherent) (settled : b0.Settled) : Sound b0 (new b0) where
  shaped := by
    have empty (x : NodeId) : (new b0).node? x = none := by simp [new, node?]
    refine ⟨fun x n found => by simp [empty] at found, fun x n found => by simp [empty] at found,
      fun owner list found e member => ?_, fun owner list found => ?_⟩
    all_goals
      cases owner with
      | none =>
        cases found
        simp_all [new]
      | some o => simp [continuations?, empty] at found
  current := by simp [new]
  executed := by simp [new, node?]
  walk := by
    rw [lineMoves, currentLine, show (new b0).current = none from rfl, lineTo_none]
    exact .here (Board.Restores.refl b0)
  coherent := coherent
  settled := settled
  fits := by simp [new, node?]
  startSide := rfl
  startFullmove := rfl

namespace Sound

variable (sound : Sound b0 h)
include sound

theorem path : Ancestry h h.current h.currentLine := by
  cases current : h.current with
  | none =>
    rw [currentLine, current, lineTo_none]
    exact .start
  | some id =>
    obtain ⟨n, found⟩ := Option.isSome_iff_exists.mp (sound.current id current)
    obtain ⟨line, path⟩ := sound.shaped.ancestry found
    rw [currentLine, current, sound.shaped.lineTo_eq path]
    exact path

theorem stepInto {id : NodeId} {n : Node} (found : h.node? id = some n) (child : n.parent = h.current)
    {r : Move × Board} (run : n.move.execute h.board = .ok r) :
    Sound b0 (h.relocate id r.1 r.2 (some id)) ∧
      (h.relocate id r.1 r.2 (some id)).currentLine = h.currentLine ++ [id] := by
  have shaped := sound.shaped.relocate_of_playsSame r.2 (some id) found (Move.playsSame_execute run)
  have keeps := keepsTree_relocate (h := h) id r.1 r.2 (some id)
  have fresh : id ∉ h.currentLine := sound.shaped.not_mem_of_parent found (child ▸ sound.path)
  have path : Ancestry (h.relocate id r.1 r.2 (some id)) (some id) (h.currentLine ++ [id]) :=
    .node (n := { n with move := r.1 }) (by simp [node?_setMove, found])
      ((child ▸ sound.path).keep keeps)
  have line := shaped.lineTo_eq path
  have moves : (h.relocate id r.1 r.2 (some id)).lineMoves = h.lineMoves ++ [r.1] := by
    rw [lineMoves, currentLine, current_relocate, line, List.filterMap_append, lineMoves,
      filterMap_get?_relocate _ _ fresh]
    simp [get?, found]
  have fits := sound.fits id n found
  refine ⟨⟨shaped, by simp [contains, found], fun x n' found' => ?_,
    moves ▸ sound.walk.snoc sound.coherent sound.settled fits.1 run,
    sound.coherent.execute sound.settled fits.1 run, Board.Settled.execute run,
    fits_relocate _ _ sound.fits (Move.arenaGrows_execute run) fun n' found' => ?_,
    sound.startSide, sound.startFullmove⟩, line⟩
  · rw [currentLine, current_relocate, line]
    rw [node?_relocate, node?_setMove] at found'
    split at found'
    · rename_i here
      subst here
      rw [found] at found'
      cases found'
      simp [(Move.execute_records run).1]
    · rename_i other
      rw [sound.executed x n' found']
      simp [other]
  · rw [found] at found'
    cases found'
    exact Move.Fits.execute sound.coherent fits.1 run

theorem prev {id : NodeId} (current : h.current = some id) :
    ∃ n t, h.node? id = some n ∧ n.move.unexecute h.board = .ok t ∧
      Sound b0 (h.relocate id t.1 t.2 n.parent) ∧
      (h.relocate id t.1 t.2 n.parent).currentLine = h.currentLine.dropLast := by
  have path := sound.path
  rw [current] at path
  generalize lineEq : h.currentLine = whole at path
  cases path with
  | @node id n line found up =>
    have fresh : id ∉ line := sound.shaped.not_mem_of_parent found up
    have lineMoves : h.lineMoves = line.filterMap h.get? ++ [n.move] := by
      rw [History.lineMoves, lineEq, List.filterMap_append]
      simp [get?, found]
    obtain ⟨t, undone, taken, walk, coherent⟩ :=
      (lineMoves ▸ sound.walk).unsnoc sound.coherent
    have same : t.1.playsSame n.move = true := by
      rw [taken]
      exact Move.playsSame_executed n.move false
    have shaped := sound.shaped.relocate_of_playsSame t.2 n.parent found same
    have keeps := keepsTree_relocate (h := h) id t.1 t.2 n.parent
    have line' := shaped.lineTo_eq (up.keep keeps)
    have grows := Move.arenaGrows_unexecute undone
    refine ⟨n, t, found, undone, ⟨shaped, fun p parent => ?_, fun x n' found' => ?_, ?_, coherent,
      ?_, fits_relocate _ _ sound.fits grows fun n' found' => ?_, sound.startSide,
      sound.startFullmove⟩, ?_⟩
    · obtain ⟨live, -⟩ := sound.shaped.parent id n found p parent
      simpa using live
    · rw [currentLine, current_relocate, line']
      rw [node?_relocate, node?_setMove] at found'
      split at found'
      · rename_i here
        subst here
        rw [found] at found'
        cases found'
        simp [taken, fresh]
      · rename_i other
        rw [sound.executed x n' found', lineEq]
        simp [other]
    · have moves : (h.relocate id t.1 t.2 n.parent).lineMoves = line.filterMap h.get? := by
        rw [History.lineMoves, currentLine, current_relocate, line', filterMap_get?_relocate _ _ fresh]
      rw [moves]
      exact walk
    · obtain ⟨-, -, -, rfl⟩ := Move.unexecute_eq_ok.mp undone
      exact Board.Settled.regenerate _
    · rw [found] at found'
      cases found'
      obtain ⟨fitsN, inArena⟩ := sound.fits id n found
      rw [taken]
      exact ⟨(fitsN.executed false).grow inArena grows, lt_of_lt_of_le inArena grows.size⟩
    · rw [currentLine, current_relocate, line']
      simp

end Sound

end History

end Chess
