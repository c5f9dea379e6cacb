import Chess.History.Basic

namespace Chess

/-! Changing a history: adding moves, walking the tree, and reshaping it. Each operation runs
on the history as state, may fail with a move error (keeping the state it reached), and adds
to the journal: the records of the board and the events `Move`, `Unmove`, `TraversalBegin`
and `TraversalEnd` of the history's board. -/

abbrev HistoryM := ExceptT MoveError (StateT History Noted)

namespace History

def run {α : Type} (act : HistoryM α) (h : History) : Noted (Except MoveError α × History) :=
  (act.run).run h

def journal {α : Type} (act : Noted α) : HistoryM α := liftM (m := Noted) act

def missing (id : NodeId) : MoveError := .illegalState ("no history node " ++ toString id.index)

def setMove (h : History) (id : NodeId) (m : Move) : History :=
  { h with nodes := h.nodes.modify id.index fun slot => slot.map fun n => { n with move := m } }

def stepInto (id : NodeId) : HistoryM Unit := do
  let h ← get
  let some n := h.node? id | throw (missing id)
  match ← journal (n.move.executeNoted h.board) with
  | .ok (m, b) =>
    set { h.setMove id m with board := b, current := some id }
    journal (Noted.add (.event .moved))
  | .error e => throw e

/-- Adds a move after the current node and plays it. A continuation that plays the same is
entered instead of adding a node; a move the board refuses is reported and not added. -/
def add (mv : Move) : HistoryM NodeId := do
  let h ← get
  let existing := (h.continuations? h.current).bind fun list =>
    list.find? fun id => match h.get? id with
      | some other => other.playsSame mv
      | none => false
  if let some id := existing then
    stepInto id
    return id
  match ← journal (mv.executeNoted h.board) with
  | .error e =>
    journal (Noted.log .warn ("rejected move " ++ mv.uci ++ ": " ++ e.message))
    throw e
  | .ok (m, b) =>
    journal (Noted.add (.event .moved))
    let id : NodeId := ⟨h.nodes.size⟩
    journal (Noted.log .debug ("adding " ++ m.san ++ " as node " ++ toString id.index))
    let h := { h with board := b, nodes := h.nodes.push (some { move := m, parent := h.current }) }
    let h := h.modifyContinuations h.current (·.push id)
    set { h with current := some id }
    return id

/-- Adds the move of the piece on `origin` to `target`, verified on the board first. -/
def addMove (origin target : Square) (promotion : Option PieceKind) : HistoryM NodeId := do
  let h ← get
  match ← journal (Move.newNoted h.board origin target promotion) with
  | .ok m => add m
  | .error e => throw e

/-- Moves a node to the front of its parent's continuations, making it the main line. -/
def promote (id : NodeId) : HistoryM Unit := do
  let h ← get
  let some n := h.node? id | throw (missing id)
  if let some list := h.continuations? n.parent then
    if list.contains id then
      set (h.modifyContinuations n.parent fun l => #[id] ++ l.filter (· ≠ id))
  else throw (missing id)

/-- Enters the continuation at an index after the current node, if there is one. -/
def nextVariation (index : Nat) : HistoryM (Option NodeId) := do
  let h ← get
  match (h.continuations? h.current).bind (·[index]?) with
  | some id =>
    stepInto id
    return some id
  | none => return none

/-- Enters the main-line continuation after the current node, if there is one. -/
def next : HistoryM (Option NodeId) := nextVariation 0

/-- Takes back the current node's move and goes to its parent; false at the start. -/
def prev : HistoryM Bool := do
  let h ← get
  let some id := h.current | return false
  let some n := h.node? id | throw (missing id)
  match ← journal (n.move.unexecuteNoted h.board) with
  | .ok (m, b) =>
    set { h.setMove id m with board := b, current := n.parent }
    journal (Noted.add (.event .unmoved))
    return true
  | .error e => throw e

/-- Walks from the current node to a target through their deepest common node. -/
def walkTo (target : Option NodeId) : HistoryM Unit := do
  let h ← get
  let behind := h.currentLine
  let ahead := h.lineTo target
  let common := ((behind.zip ahead).takeWhile fun (a, b) => a = b).length
  journal (Noted.log .debug ("traversing " ++ toString (behind.length - common) ++ " back and "
    ++ toString (ahead.length - common) ++ " forward"))
  for _ in [common:behind.length] do
    discard prev
  for id in ahead.drop common do
    stepInto id

def goTo (target : Option NodeId) : HistoryM Unit := do
  if let some id := target then
    if !(← get).contains id then throw (missing id)
  journal (Noted.add (.event .traversalBegin))
  try walkTo target
  finally journal (Noted.add (.event .traversalEnd))

def rewind : HistoryM Unit := goTo none

/-- Follows the main line from the current node to its end, announcing the traversal. -/
def fastforward : HistoryM Unit := do
  journal (Noted.add (.event .traversalBegin))
  try
    for _ in List.range ((← get).nodes.size + 1) do
      if (← next).isNone then break
  finally journal (Noted.add (.event .traversalEnd))

def liveCount (h : History) : Nat := h.nodes.countP Option.isSome

theorem liveCount_empty {h : History} {id : NodeId} {n : Node} (found : h.node? id = some n) :
    liveCount { h with nodes := h.nodes.modify id.index fun _ => none } < h.liveCount := by
  have slot : h.nodes.toList[id.index]? = some (some n) := by
    unfold node? at found
    cases slot : h.nodes[id.index]? with
    | none => simp [slot] at found
    | some s => simpa [slot] using found
  obtain ⟨bound, held⟩ := List.getElem?_eq_some_iff.mp slot
  unfold liveCount
  rw [← Array.countP_toList, ← Array.countP_toList, Array.toList_modify, List.modify_eq_set,
    List.countP_set bound, held]
  have positive : 0 < h.nodes.toList.countP Option.isSome :=
    List.countP_pos_iff.mpr ⟨some n, List.mem_of_getElem? slot, rfl⟩
  simp only [Option.isSome_some, Option.isSome_none, Bool.false_eq_true, ↓reduceIte]
  omega

def dropSubtree (h : History) (id : NodeId) : History :=
  go [id] h
where
  /-- Empties pending nodes and their descendants. Each step empties a slot that holds a node
  or drops a pending node whose slot is empty, so the walk ends. -/
  go : List NodeId → History → History
    | [], h => h
    | next :: pending, h =>
      match _found : h.node? next with
      | some n =>
        go (n.continuations.toList ++ pending)
          { h with nodes := h.nodes.modify next.index fun _ => none }
      | none => go pending h
  termination_by pending h => (h.liveCount, pending.length)
  decreasing_by
    · exact Prod.Lex.left _ _ (liveCount_empty _found)
    · exact Prod.Lex.right _ (by simp)

/-- Removes a node and every node below it, first going to its parent if the current node
is among them. -/
def remove (id : NodeId) : HistoryM Unit := do
  let h ← get
  let some n := h.node? id | throw (missing id)
  if h.currentLine.contains id then goTo n.parent
  let h ← get
  let h := h.modifyContinuations n.parent fun l => l.filter (· ≠ id)
  set (h.dropSubtree id)

def truncate : HistoryM Unit := do
  let h ← get
  let some lines := h.continuations? h.current | return
  let h := h.modifyContinuations h.current fun _ => #[]
  set (lines.foldl dropSubtree h)

end History

end Chess
