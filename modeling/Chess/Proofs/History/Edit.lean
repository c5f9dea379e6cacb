import Chess.Proofs.History.Sound

namespace Chess

namespace History

/-! Edits of the tree that keep a history in step: a new node after the current one, a
continuation brought to the front of its list, and subtrees cut off below a list whose
entries go. Each is stated on the history it leaves, for the operations to cite. -/

variable {h : History} {b0 : Board}

theorem Apart.of_get? {h' : History} {a b : NodeId} (sameA : h'.get? a = h.get? a)
    (sameB : h'.get? b = h.get? b) (apart : h.Apart a b) : h'.Apart a b := by
  unfold Apart
  rw [sameA, sameB]
  exact apart

theorem Apart.symm {a b : NodeId} (apart : h.Apart a b) : h.Apart b a := by
  intro mb ma foundB foundA
  rw [Move.playsSame_comm]
  exact apart ma mb foundA foundB

theorem node?_eq_none_of_size_le {x : NodeId} (outside : h.nodes.size ≤ x.index) : h.node? x = none := by
  simp [node?, Array.getElem?_eq_none outside]

theorem ne_size_of_node? {x : NodeId} {n : Node} (found : h.node? x = some n) : x ≠ ⟨h.nodes.size⟩ :=
  fun same => by
    rw [same, node?_eq_none_of_size_le (x := ⟨h.nodes.size⟩) le_rfl] at found
    cases found

theorem owner_ne_size {o : Option NodeId} {l : Array NodeId} (listed : h.continuations? o = some l) :
    o ≠ some ⟨h.nodes.size⟩ := fun same => by
  rw [same] at listed
  simp [continuations?, node?_eq_none_of_size_le (x := ⟨h.nodes.size⟩) le_rfl] at listed

theorem Shaped.entry_ne_size (shaped : h.Shaped) {o : Option NodeId} {l : Array NodeId}
    (listed : h.continuations? o = some l) {e : NodeId} (member : e ∈ l.toList) :
    e ≠ ⟨h.nodes.size⟩ := by
  obtain ⟨_, found, _⟩ := shaped.entries _ _ listed e member
  exact ne_size_of_node? found

theorem continuations?_current (live : ∀ c, h.current = some c → h.contains c = true) :
    ∃ l, h.continuations? h.current = some l := by
  cases current : h.current with
  | none => exact ⟨h.root, rfl⟩
  | some c =>
    obtain ⟨n, found⟩ := Option.isSome_iff_exists.mp (live c current)
    exact ⟨n.continuations, by simp [continuations?, found]⟩

/-! ### A new node after the current one -/

/-- The history with a new node holding `m` after the current node, which becomes current,
and the board `b`: what adding a move that plays leaves. -/
def attach (h : History) (m : Move) (b : Board) : History :=
  let grown : History :=
    { h with board := b, nodes := h.nodes.push (some { move := m, parent := h.current }) }
  { grown.modifyContinuations h.current (·.push ⟨h.nodes.size⟩) with current := some ⟨h.nodes.size⟩ }

section Attach

variable (m : Move) (b : Board)

theorem root_attach : (h.attach m b).root =
    if h.current = none then h.root.push ⟨h.nodes.size⟩ else h.root := by
  unfold attach
  cases h.current <;> rfl

@[simp] theorem current_attach : (h.attach m b).current = some ⟨h.nodes.size⟩ := rfl

@[simp] theorem board_attach : (h.attach m b).board = b := by
  unfold attach
  cases h.current <;> rfl

@[simp] theorem startSide_attach : (h.attach m b).startSide = h.startSide := by
  unfold attach
  cases h.current <;> rfl

@[simp] theorem startFullmove_attach : (h.attach m b).startFullmove = h.startFullmove := by
  unfold attach
  cases h.current <;> rfl

@[simp] theorem startFen_attach : (h.attach m b).startFen = h.startFen := by
  unfold attach
  cases h.current <;> rfl

variable {m b} (fresh : ∀ c, h.current = some c → c.index < h.nodes.size)
include fresh

theorem node?_attach (x : NodeId) : (h.attach m b).node? x =
    if x = ⟨h.nodes.size⟩ then some { move := m, parent := h.current }
    else (h.node? x).map fun n => { n with continuations := (if some x = h.current then
      n.continuations.push ⟨h.nodes.size⟩ else n.continuations) } := by
  unfold attach
  simp only [node?]
  cases current : h.current with
  | none =>
    simp only [modifyContinuations, Array.getElem?_push]
    by_cases new : x = ⟨h.nodes.size⟩
    · subst new
      simp
    · have index : x.index ≠ h.nodes.size := fun eq => new (by cases x; simp_all)
      simp [new, index]
  | some c =>
    have small := fresh c current
    simp only [modifyContinuations, Array.getElem?_modify, Array.getElem?_push]
    by_cases new : x = ⟨h.nodes.size⟩
    · subst new
      have apart : c.index ≠ h.nodes.size := by omega
      simp [apart]
    · have index : x.index ≠ h.nodes.size := fun eq => new (by cases x; simp_all)
      by_cases here : x = c
      · subst here
        simp [index]
        cases h.nodes[x.index]? <;> simp [new]
      · have other : c.index ≠ x.index := fun eq => here (by cases x; cases c; simp_all)
        simp [new, index, here, other]

theorem node?_attach_old {x : NodeId} {n : Node} (found : h.node? x = some n) :
    ∃ n', (h.attach m b).node? x = some n' ∧ n'.move = n.move ∧ n'.parent = n.parent := by
  rw [node?_attach fresh, if_neg (ne_size_of_node? found), found]
  exact ⟨_, rfl, rfl, rfl⟩

theorem node?_attach_eq_some {x : NodeId} {n' : Node} (found : (h.attach m b).node? x = some n') :
    (x = ⟨h.nodes.size⟩ ∧ n' = { move := m, parent := h.current }) ∨
      ∃ n, h.node? x = some n ∧ n'.move = n.move ∧ n'.parent = n.parent := by
  rw [node?_attach fresh] at found
  split at found
  · rename_i new
    exact .inl ⟨new, (Option.some.inj found).symm⟩
  · obtain ⟨n, found₀, rfl⟩ := Option.map_eq_some_iff.mp found
    exact .inr ⟨n, found₀, rfl, rfl⟩

theorem get?_attach (x : NodeId) :
    (h.attach m b).get? x = if x = ⟨h.nodes.size⟩ then some m else h.get? x := by
  simp only [get?, node?_attach fresh]
  split
  · rfl
  · rw [Option.map_map]
    rfl

theorem contains_attach (x : NodeId) :
    (h.attach m b).contains x = (decide (x = ⟨h.nodes.size⟩) || h.contains x) := by
  simp only [contains, node?_attach fresh]
  split <;> simp_all

theorem continuations?_attach (o : Option NodeId) : (h.attach m b).continuations? o =
    if o = some ⟨h.nodes.size⟩ then some #[]
    else (h.continuations? o).map fun l => if o = h.current then l.push ⟨h.nodes.size⟩ else l := by
  cases o with
  | none =>
    simp only [continuations?, root_attach, reduceCtorEq, if_false, Option.map_some]
    cases h.current <;> simp
  | some x =>
    simp only [continuations?, node?_attach fresh, Option.some.injEq]
    by_cases new : x = ⟨h.nodes.size⟩
    · simp [new]
    · simp only [new, if_false, Option.map_map]
      rfl


theorem Shaped.parent_attach (shaped : h.Shaped) (live : ∀ c, h.current = some c → h.contains c = true) :
    ∀ x n, (h.attach m b).node? x = some n → ∀ p, n.parent = some p →
      (h.attach m b).contains p = true ∧ p.index < x.index := by
  intro x n found p parent
  rw [node?_attach fresh] at found
  split at found
  · rename_i same
    cases found
    exact ⟨by simp [contains_attach fresh, live p parent], same ▸ fresh p parent⟩
  · obtain ⟨n₀, found₀, rfl⟩ := Option.map_eq_some_iff.mp found
    obtain ⟨liveP, smaller⟩ := shaped.parent x n₀ found₀ p parent
    exact ⟨by simp [contains_attach fresh, liveP], smaller⟩

theorem Shaped.listed_attach (shaped : h.Shaped) (live : ∀ c, h.current = some c → h.contains c = true) :
    ∀ x n, (h.attach m b).node? x = some n →
      ∃ list, (h.attach m b).continuations? n.parent = some list ∧ list.toList.count x = 1 := by
  intro x n found
  rw [node?_attach fresh] at found
  split at found
  · rename_i same
    cases found
    obtain ⟨l, listed⟩ := continuations?_current live
    have pushed : (h.attach m b).continuations? h.current = some (l.push ⟨h.nodes.size⟩) := by
      rw [continuations?_attach fresh, if_neg (owner_ne_size listed), listed]
      simp
    have absent : (⟨h.nodes.size⟩ : NodeId) ∉ l.toList := fun member =>
      shaped.entry_ne_size listed member rfl
    refine ⟨l.push ⟨h.nodes.size⟩, pushed, ?_⟩
    simp [same, Array.toList_push, List.count_append, List.count_eq_zero.mpr absent]
  · obtain ⟨n₀, found₀, rfl⟩ := Option.map_eq_some_iff.mp found
    obtain ⟨l, listed, count⟩ := shaped.listed x n₀ found₀
    have kept : (h.attach m b).continuations? n₀.parent =
        some (if n₀.parent = h.current then l.push ⟨h.nodes.size⟩ else l) := by
      rw [continuations?_attach fresh, if_neg (owner_ne_size listed), listed]
      rfl
    refine ⟨_, kept, ?_⟩
    split <;> simp [Array.toList_push, List.count_append, count, Ne.symm (ne_size_of_node? found₀)]

theorem Shaped.entries_attach (shaped : h.Shaped) :
    ∀ owner list, (h.attach m b).continuations? owner = some list →
      ∀ e ∈ list.toList, ∃ n, (h.attach m b).node? e = some n ∧ n.parent = owner := by
  intro owner list found e member
  rw [continuations?_attach fresh] at found
  split at found
  · cases found
    simp at member
  · obtain ⟨l, found₀, rfl⟩ := Option.map_eq_some_iff.mp found
    have kept : ∀ e ∈ l.toList, ∃ n, (h.attach m b).node? e = some n ∧ n.parent = owner :=
      fun e member => by
        obtain ⟨n₀, f₀, p₀⟩ := shaped.entries owner l found₀ e member
        obtain ⟨n', f', -, p'⟩ := node?_attach_old fresh f₀
        exact ⟨n', f', p'.trans p₀⟩
    split at member
    · rename_i atCurrent
      rw [Array.toList_push, List.mem_append, List.mem_singleton] at member
      rcases member with inner | rfl
      · exact kept e inner
      · refine ⟨{ move := m, parent := h.current }, ?_, atCurrent.symm⟩
        rw [node?_attach fresh, if_pos rfl]
    · exact kept e member

theorem Shaped.apart_attach (shaped : h.Shaped)
    (distinct : ∀ list, h.continuations? h.current = some list → ∀ x ∈ list.toList,
      ∀ other, h.get? x = some other → other.playsSame m = false) :
    ∀ owner list, (h.attach m b).continuations? owner = some list →
      list.toList.Pairwise (h.attach m b).Apart := by
  intro owner list found
  rw [continuations?_attach fresh] at found
  split at found
  · cases found
    simp
  · obtain ⟨l, found₀, rfl⟩ := Option.map_eq_some_iff.mp found
    have same : ∀ e ∈ l.toList, (h.attach m b).get? e = h.get? e := fun e member => by
      rw [get?_attach fresh, if_neg (shaped.entry_ne_size found₀ member)]
    have kept : l.toList.Pairwise (h.attach m b).Apart :=
      (shaped.apart owner l found₀).imp_of_mem fun inA inB apart =>
        Apart.of_get? (same _ inA) (same _ inB) apart
    split
    · rename_i atCurrent
      rw [Array.toList_push, List.pairwise_append]
      refine ⟨kept, List.pairwise_singleton _ _, fun a inA e inE => ?_⟩
      rw [List.mem_singleton.mp inE]
      intro ma mb foundA foundB
      rw [same a inA] at foundA
      rw [get?_attach fresh, if_pos rfl] at foundB
      cases foundB
      exact distinct l (atCurrent ▸ found₀) a inA ma foundA
    · exact kept

theorem Shaped.attach (shaped : h.Shaped) (live : ∀ c, h.current = some c → h.contains c = true)
    (distinct : ∀ list, h.continuations? h.current = some list → ∀ x ∈ list.toList,
      ∀ other, h.get? x = some other → other.playsSame m = false) :
    (h.attach m b).Shaped :=
  ⟨shaped.parent_attach fresh live, shaped.listed_attach fresh live, shaped.entries_attach fresh,
    shaped.apart_attach fresh distinct⟩

end Attach

theorem Sound.current_lt (sound : Sound b0 h) : ∀ c, h.current = some c → c.index < h.nodes.size :=
  fun c current => by
    obtain ⟨n, found⟩ := Option.isSome_iff_exists.mp (sound.current c current)
    exact index_lt_of_node? found

theorem Sound.current_ne_size (sound : Sound b0 h) : h.current ≠ some ⟨h.nodes.size⟩ :=
  fun same => Nat.lt_irrefl _ (sound.current_lt _ same)

theorem Shaped.parent_ne_size (shaped : h.Shaped) {x : NodeId} {n : Node}
    (found : h.node? x = some n) : n.parent ≠ some ⟨h.nodes.size⟩ := by
  intro same
  have below : h.nodes.size < x.index := (shaped.parent x n found _ same).2
  have bound : x.index < h.nodes.size := index_lt_of_node? found
  omega

theorem Sound.currentLine_attach (sound : Sound b0 h) {m : Move} {b : Board}
    (shaped : (h.attach m b).Shaped) :
    (h.attach m b).currentLine = h.currentLine ++ [⟨h.nodes.size⟩] := by
  have fresh := sound.current_lt
  have path : Ancestry (h.attach m b) (some ⟨h.nodes.size⟩) (h.currentLine ++ [⟨h.nodes.size⟩]) :=
    .node (n := { move := m, parent := h.current }) (by rw [node?_attach fresh, if_pos rfl])
      (sound.path.transfer fun x _ n found =>
        let ⟨n', found', _, parent⟩ := node?_attach_old fresh found
        ⟨n', found', parent⟩)
  rw [currentLine, current_attach, shaped.lineTo_eq path]

/-- Adding a move that plays, when no continuation of the current node plays the same, keeps
the history in step: the move's node is attached after the current node and becomes current,
one node further down the line. -/
theorem Sound.attach (sound : Sound b0 h) {mv : Move} (fits : mv.Fits h.board) {r : Move × Board}
    (run : mv.execute h.board = .ok r)
    (distinct : ∀ list, h.continuations? h.current = some list → ∀ x ∈ list.toList,
      ∀ other, h.get? x = some other → other.playsSame mv = false) :
    Sound b0 (h.attach r.1 r.2) := by
  have fresh := sound.current_lt
  have same : r.1.playsSame mv = true := Move.playsSame_execute run
  have distinct' : ∀ list, h.continuations? h.current = some list → ∀ x ∈ list.toList,
      ∀ other, h.get? x = some other → other.playsSame r.1 = false := by
    intro list listed x member other found
    cases plays : other.playsSame r.1 with
    | false => rfl
    | true =>
      have joined := distinct list listed x member other found
      rw [Move.playsSame_trans plays same] at joined
      cases joined
  have shaped : (h.attach r.1 r.2).Shaped := sound.shaped.attach fresh sound.current distinct'
  have old : ∀ x ∈ h.currentLine, x ≠ ⟨h.nodes.size⟩ := fun x member same => by
    obtain ⟨n, found⟩ := sound.path.live x member
    rw [same, node?_eq_none_of_size_le (x := ⟨h.nodes.size⟩) (le_refl _)] at found
    cases found
  have line := sound.currentLine_attach shaped
  have moves : (h.attach r.1 r.2).lineMoves = h.lineMoves ++ [r.1] := by
    rw [lineMoves, line, List.filterMap_append, lineMoves]
    congr 1
    · refine List.filterMap_congr fun x member => ?_
      rw [get?_attach fresh, if_neg (old x member)]
    · simp [get?_attach fresh]
  have grows := Move.arenaGrows_execute run
  refine ⟨shaped, fun c current => ?_, fun x n' found' => ?_, ?_, ?_, ?_, fun x n' found' => ?_,
    by simp [sound.startSide], by simp [sound.startFullmove]⟩
  · cases current
    simp [contains_attach fresh]
  · rw [line]
    rcases node?_attach_eq_some fresh found' with ⟨rfl, rfl⟩ | ⟨n, found, move, -⟩
    · simp [(Move.execute_records run).1]
    · have other : x ≠ ⟨h.nodes.size⟩ := fun same => by
        rw [same, node?_eq_none_of_size_le (x := ⟨h.nodes.size⟩) (le_refl _)] at found
        cases found
      rw [move, sound.executed x n found]
      simp [other]
  · rw [moves, board_attach]
    exact sound.walk.snoc sound.coherent sound.settled fits run
  · rw [board_attach]
    exact sound.coherent.execute sound.settled fits run
  · rw [board_attach]
    exact Board.Settled.execute run
  · rw [board_attach]
    rcases node?_attach_eq_some fresh found' with ⟨-, rfl⟩ | ⟨n, found, move, -⟩
    · exact Move.Fits.execute sound.coherent fits run
    · obtain ⟨fitsX, inArena⟩ := sound.fits x n found
      rw [move]
      exact ⟨fitsX.grow inArena grows, lt_of_lt_of_le inArena grows.size⟩

/-! ### Edits of the lists -/

/-- An edit that keeps the moves, the parents, the board and the start, drops no node of the
current line, and leaves a shaped tree keeps the history in step: only the shape needs a proof
of its own. -/
theorem Sound.of_edit (sound : Sound b0 h) {h' : History} (shaped : h'.Shaped)
    (back : ∀ x n', h'.node? x = some n' →
      ∃ n, h.node? x = some n ∧ n'.move = n.move ∧ n'.parent = n.parent)
    (line : ∀ x ∈ h.currentLine, ∀ n, h.node? x = some n →
      ∃ n', h'.node? x = some n' ∧ n'.move = n.move ∧ n'.parent = n.parent)
    (board : h'.board = h.board) (current : h'.current = h.current)
    (startSide : h'.startSide = h.startSide) (startFullmove : h'.startFullmove = h.startFullmove) :
    Sound b0 h' := by
  have path : Ancestry h' h.current h.currentLine :=
    sound.path.transfer fun x member n found =>
      let ⟨n', found', _, parent⟩ := line x member n found
      ⟨n', found', parent⟩
  have lineEq : h'.currentLine = h.currentLine := by
    rw [currentLine, current, shaped.lineTo_eq path]
  have moves : h'.lineMoves = h.lineMoves := by
    rw [lineMoves, lineEq, lineMoves]
    refine List.filterMap_congr fun x member => ?_
    obtain ⟨n, found⟩ := sound.path.live x member
    obtain ⟨n', found', move, -⟩ := line x member n found
    simp [get?, found, found', move]
  refine ⟨shaped, fun c atC => ?_, fun x n' found' => ?_, ?_, board ▸ sound.coherent,
    board ▸ sound.settled, fun x n' found' => ?_, startSide.trans sound.startSide,
    startFullmove.trans sound.startFullmove⟩
  · rw [current] at atC
    have last := sound.path.getLast?_eq
    rw [atC] at last
    obtain ⟨n, found⟩ := sound.path.live c (List.mem_of_getLast? last)
    obtain ⟨n', found', -⟩ := line c (List.mem_of_getLast? last) n found
    simp [contains, found']
  · obtain ⟨n, found, move, -⟩ := back x n' found'
    rw [move, sound.executed x n found, lineEq]
  · rw [moves, board]
    exact sound.walk
  · obtain ⟨n, found, move, -⟩ := back x n' found'
    rw [move, board]
    exact sound.fits x n found

section Modify

variable (o : Option NodeId) (f : Array NodeId → Array NodeId)

@[simp] theorem board_modifyContinuations : (h.modifyContinuations o f).board = h.board := by
  cases o <;> rfl

@[simp] theorem current_modifyContinuations : (h.modifyContinuations o f).current = h.current := by
  cases o <;> rfl

@[simp] theorem startSide_modifyContinuations :
    (h.modifyContinuations o f).startSide = h.startSide := by
  cases o <;> rfl

@[simp] theorem startFullmove_modifyContinuations :
    (h.modifyContinuations o f).startFullmove = h.startFullmove := by
  cases o <;> rfl

@[simp] theorem startFen_modifyContinuations : (h.modifyContinuations o f).startFen = h.startFen := by
  cases o <;> rfl

theorem node?_modifyContinuations_eq_some {x : NodeId} {n' : Node}
    (found : (h.modifyContinuations o f).node? x = some n') :
    ∃ n, h.node? x = some n ∧ n'.move = n.move ∧ n'.parent = n.parent := by
  cases o with
  | none => exact ⟨n', found, rfl, rfl⟩
  | some p =>
    rw [node?_modifyContinuations_some] at found
    split at found
    · obtain ⟨n, found₀, rfl⟩ := Option.map_eq_some_iff.mp found
      exact ⟨n, found₀, rfl, rfl⟩
    · exact ⟨n', found, rfl, rfl⟩

theorem node?_modifyContinuations_of_eq_some {x : NodeId} {n : Node} (found : h.node? x = some n) :
    ∃ n', (h.modifyContinuations o f).node? x = some n' ∧ n'.move = n.move ∧ n'.parent = n.parent := by
  cases o with
  | none => exact ⟨n, found, rfl, rfl⟩
  | some p =>
    rw [node?_modifyContinuations_some]
    split
    · rw [found]
      exact ⟨_, rfl, rfl, rfl⟩
    · exact ⟨n, found, rfl, rfl⟩

@[simp] theorem get?_modifyContinuations (x : NodeId) :
    (h.modifyContinuations o f).get? x = h.get? x := by
  cases found : h.node? x with
  | none =>
    have gone : (h.modifyContinuations o f).node? x = none := by
      cases held : (h.modifyContinuations o f).node? x with
      | none => rfl
      | some n' =>
        obtain ⟨n, found₀, -⟩ := node?_modifyContinuations_eq_some o f held
        rw [found] at found₀
        cases found₀
    simp [get?, found, gone]
  | some n =>
    obtain ⟨n', found', move, -⟩ := node?_modifyContinuations_of_eq_some o f found
    simp [get?, found, found', move]

@[simp] theorem contains_modifyContinuations (x : NodeId) :
    (h.modifyContinuations o f).contains x = h.contains x := by
  cases o with
  | none => rfl
  | some p =>
    simp only [contains, node?_modifyContinuations_some]
    split <;> simp

end Modify

theorem Shaped.relist (shaped : h.Shaped) {o : Option NodeId} {f : Array NodeId → Array NodeId}
    (perm : ∀ l, h.continuations? o = some l → (f l).toList.Perm l.toList) :
    (h.modifyContinuations o f).Shaped := by
  have lists : ∀ o' list', (h.modifyContinuations o f).continuations? o' = some list' →
      ∃ list, h.continuations? o' = some list ∧ list'.toList.Perm list.toList := by
    intro o' list' found
    rw [continuations?_modifyContinuations] at found
    split at found
    · rename_i same
      subst same
      obtain ⟨l, found₀, rfl⟩ := Option.map_eq_some_iff.mp found
      exact ⟨l, found₀, perm l found₀⟩
    · exact ⟨list', found, List.Perm.refl _⟩
  refine ⟨fun x n found p parent => ?_, fun x n found => ?_, fun owner list' found e member => ?_,
    fun owner list' found => ?_⟩
  · obtain ⟨n₀, found₀, -, parent₀⟩ := node?_modifyContinuations_eq_some o f found
    rw [contains_modifyContinuations]
    exact shaped.parent x n₀ found₀ p (parent₀ ▸ parent)
  · obtain ⟨n₀, found₀, -, parent₀⟩ := node?_modifyContinuations_eq_some o f found
    obtain ⟨l, listed, count⟩ := shaped.listed x n₀ found₀
    rw [parent₀]
    rw [continuations?_modifyContinuations]
    split
    · rename_i same
      subst same
      exact ⟨f l, by rw [listed]; rfl, (perm l listed).count_eq x ▸ count⟩
    · exact ⟨l, listed, count⟩
  · obtain ⟨list, found₀, reordered⟩ := lists owner list' found
    obtain ⟨n, found₁, parent⟩ := shaped.entries owner list found₀ e (reordered.mem_iff.mp member)
    obtain ⟨n', found', -, parent'⟩ := node?_modifyContinuations_of_eq_some o f found₁
    exact ⟨n', found', parent'.trans parent⟩
  · obtain ⟨list, found₀, reordered⟩ := lists owner list' found
    refine ((shaped.apart owner list found₀).perm reordered.symm Apart.symm).imp fun apart => ?_
    exact Apart.of_get? (get?_modifyContinuations o f _) (get?_modifyContinuations o f _) apart

theorem Sound.relist (sound : Sound b0 h) {o : Option NodeId} {f : Array NodeId → Array NodeId}
    (perm : ∀ l, h.continuations? o = some l → (f l).toList.Perm l.toList) :
    Sound b0 (h.modifyContinuations o f) :=
  sound.of_edit (sound.shaped.relist perm) (fun _ _ found => node?_modifyContinuations_eq_some o f found)
    (fun _ _ _ found => node?_modifyContinuations_of_eq_some o f found) (board_modifyContinuations o f)
    (current_modifyContinuations o f) (startSide_modifyContinuations o f)
    (startFullmove_modifyContinuations o f)

theorem perm_promoted {l : Array NodeId} {id : NodeId} (once : l.toList.count id = 1) :
    (#[id] ++ l.filter (· ≠ id)).toList.Perm l.toList := by
  rw [List.perm_iff_count]
  intro a
  by_cases same : a = id
  · subst same
    simp [once, List.count_eq_zero]
  · have keep : (fun x => !decide (x = id)) a = true := by simpa using same
    simp [Ne.symm same]
    rw [List.count_filter (p := fun x => !decide (x = id)) keep]
    simp

/-! ### Cutting subtrees -/

theorem Shaped.below_of_parent (shaped : h.Shaped) {x q p : NodeId} {n : Node}
    (found : h.node? x = some n) (parent : n.parent = some q) (below : h.Below p q) : h.Below p x := by
  obtain ⟨list, listed, count⟩ := shaped.listed x n found
  rw [parent] at listed
  obtain ⟨nq, foundQ, rfl⟩ := Option.map_eq_some_iff.mp listed
  exact below.tail ⟨nq, foundQ, List.count_pos_iff.mp (by omega)⟩

section Cut

variable {o : Option NodeId} {l : Array NodeId} {f : Array NodeId → Array NodeId}
  {pending : List NodeId}

/-- What a cut leaves: the owner `o` of the list `l` keeps the entries not in `pending`, and
the subtrees below the `pending` entries go. -/
structure Cut (h : History) (o : Option NodeId) (l : Array NodeId) (f : Array NodeId → Array NodeId)
    (pending : List NodeId) : Prop where
  listed : h.continuations? o = some l
  kept : (f l).toList = l.toList.filter fun x => decide (x ∉ pending)
  entries : ∀ p ∈ pending, p ∈ l.toList
  owner : ∀ p ∈ pending, ∀ q, o = some q → ¬h.Below p q

namespace Cut

variable (cut : Cut h o l f pending)
include cut

theorem below_iff {p x : NodeId} (member : p ∈ pending) :
    (h.modifyContinuations o f).Below p x ↔ h.Below p x :=
  below_modifyContinuations (cut.owner p member)

theorem node?_of_gone {x : NodeId} (gone : ∃ p ∈ pending, h.Below p x) :
    (dropSubtree.go pending (h.modifyContinuations o f)).node? x = none := by
  obtain ⟨p, member, below⟩ := gone
  exact (node?_dropSubtree_go pending _ x).1 ⟨p, member, (cut.below_iff member).mpr below⟩

theorem node?_of_kept {x : NodeId} (kept : ¬∃ p ∈ pending, h.Below p x) :
    (dropSubtree.go pending (h.modifyContinuations o f)).node? x = (h.modifyContinuations o f).node? x :=
  (node?_dropSubtree_go pending _ x).2 fun ⟨p, member, below⟩ =>
    kept ⟨p, member, (cut.below_iff member).mp below⟩

theorem node?_eq_some {x : NodeId} {n' : Node}
    (found : (dropSubtree.go pending (h.modifyContinuations o f)).node? x = some n') :
    (¬∃ p ∈ pending, h.Below p x) ∧
      ∃ n, h.node? x = some n ∧ n'.move = n.move ∧ n'.parent = n.parent := by
  have kept : ¬∃ p ∈ pending, h.Below p x := fun gone => by
    rw [cut.node?_of_gone gone] at found
    cases found
  rw [cut.node?_of_kept kept] at found
  exact ⟨kept, node?_modifyContinuations_eq_some o f found⟩

theorem get?_of_kept {x : NodeId} (kept : ¬∃ p ∈ pending, h.Below p x) :
    (dropSubtree.go pending (h.modifyContinuations o f)).get? x = h.get? x := by
  rw [get?, cut.node?_of_kept kept]
  exact get?_modifyContinuations o f x

theorem continuations?_of_kept {o' : Option NodeId} (kept : ∀ q, o' = some q → ¬∃ p ∈ pending, h.Below p q) :
    (dropSubtree.go pending (h.modifyContinuations o f)).continuations? o' =
      (h.modifyContinuations o f).continuations? o' := by
  cases o' with
  | none =>
    rw [dropSubtree_go_eq]
    rfl
  | some q => simp [continuations?, cut.node?_of_kept (kept q rfl)]

theorem lists {o' : Option NodeId} {list' : Array NodeId}
    (found : (dropSubtree.go pending (h.modifyContinuations o f)).continuations? o' = some list') :
    (∀ q, o' = some q → ¬∃ p ∈ pending, h.Below p q) ∧
      ∃ list, h.continuations? o' = some list ∧ list'.toList.Sublist list.toList ∧
        (o' = o → ∀ e ∈ list'.toList, e ∉ pending) := by
  have alive : ∀ q, o' = some q → ¬∃ p ∈ pending, h.Below p q := by
    rintro q rfl gone
    simp [continuations?, cut.node?_of_gone gone] at found
  rw [cut.continuations?_of_kept alive, continuations?_modifyContinuations] at found
  refine ⟨alive, ?_⟩
  split at found
  · rename_i same
    subst same
    obtain ⟨l', listed, rfl⟩ := Option.map_eq_some_iff.mp found
    rw [cut.listed] at listed
    cases listed
    refine ⟨l, cut.listed, by rw [cut.kept]; exact List.filter_sublist, fun _ e member => ?_⟩
    rw [cut.kept] at member
    simpa using (List.mem_filter.mp member).2
  · rename_i other
    exact ⟨list', found, List.Sublist.refl _, fun same => absurd same other⟩

theorem entry_kept (shaped : h.Shaped) {o' : Option NodeId} {list' : Array NodeId}
    (found : (dropSubtree.go pending (h.modifyContinuations o f)).continuations? o' = some list')
    {e : NodeId} (member : e ∈ list'.toList) : ¬∃ p ∈ pending, h.Below p e := by
  obtain ⟨alive, list, listed, sub, owned⟩ := cut.lists found
  obtain ⟨n₀, found₀, parent₀⟩ := shaped.entries o' list listed e (sub.subset member)
  rintro ⟨p, pending', below⟩
  rcases Relation.ReflTransGen.cases_tail below with same | ⟨y, above, child⟩
  · subst same
    obtain ⟨np, foundP, parentP⟩ := shaped.entries o l cut.listed e (cut.entries e pending')
    rw [found₀] at foundP
    cases foundP
    exact owned (parent₀.symm.trans parentP) e member pending'
  · obtain ⟨ne, foundE, parentE⟩ := shaped.parent_of_child child
    rw [found₀] at foundE
    cases foundE
    exact alive y (parent₀.symm.trans parentE) ⟨p, pending', above⟩

end Cut

theorem Shaped.cut (shaped : h.Shaped) (cut : Cut h o l f pending) :
    (dropSubtree.go pending (h.modifyContinuations o f)).Shaped := by
  refine ⟨fun x n found p parent => ?_, fun x n found => ?_, fun owner list' found e member => ?_,
    fun owner list' found => ?_⟩
  · obtain ⟨kept, n₀, found₀, -, parent₀⟩ := cut.node?_eq_some found
    obtain ⟨live, smaller⟩ := shaped.parent x n₀ found₀ p (parent₀ ▸ parent)
    refine ⟨?_, smaller⟩
    have keptP : ¬∃ q ∈ pending, h.Below q p := fun ⟨q, member, below⟩ =>
      kept ⟨q, member, shaped.below_of_parent found₀ (parent₀ ▸ parent) below⟩
    obtain ⟨np, foundP⟩ := Option.isSome_iff_exists.mp live
    obtain ⟨np', foundP', -⟩ := node?_modifyContinuations_of_eq_some o f foundP
    simp [contains, cut.node?_of_kept keptP, foundP']
  · obtain ⟨kept, n₀, found₀, -, parent₀⟩ := cut.node?_eq_some found
    obtain ⟨list, listed, count⟩ := shaped.listed x n₀ found₀
    have keptParent : ∀ q, n₀.parent = some q → ¬∃ p ∈ pending, h.Below p q :=
      fun q parent ⟨p, member, below⟩ => kept ⟨p, member, shaped.below_of_parent found₀ parent below⟩
    rw [parent₀, cut.continuations?_of_kept keptParent, continuations?_modifyContinuations]
    split
    · rename_i same
      rw [same, cut.listed] at listed ⊢
      cases listed
      refine ⟨f l, rfl, ?_⟩
      have out : x ∉ pending := fun member => kept ⟨x, member, .refl⟩
      rw [cut.kept, List.count_filter (by simpa using out)]
      exact count
    · exact ⟨list, listed, count⟩
  · obtain ⟨-, list, listed, sub, -⟩ := cut.lists found
    obtain ⟨n₀, found₀, parent₀⟩ := shaped.entries owner list listed e (sub.subset member)
    obtain ⟨n', found', -, parent'⟩ := node?_modifyContinuations_of_eq_some o f found₀
    refine ⟨n', ?_, parent'.trans parent₀⟩
    rw [cut.node?_of_kept (cut.entry_kept shaped found member)]
    exact found'
  · obtain ⟨-, list, listed, sub, -⟩ := cut.lists found
    refine ((shaped.apart owner list listed).sublist sub).imp_of_mem fun inA inB apart => ?_
    exact Apart.of_get? (cut.get?_of_kept (cut.entry_kept shaped found inA))
      (cut.get?_of_kept (cut.entry_kept shaped found inB)) apart

@[simp] theorem board_dropSubtree_go (h : History) : (dropSubtree.go pending h).board = h.board := by
  rw [dropSubtree_go_eq]

@[simp] theorem current_dropSubtree_go (h : History) :
    (dropSubtree.go pending h).current = h.current := by
  rw [dropSubtree_go_eq]

@[simp] theorem startSide_dropSubtree_go (h : History) :
    (dropSubtree.go pending h).startSide = h.startSide := by
  rw [dropSubtree_go_eq]

@[simp] theorem startFullmove_dropSubtree_go (h : History) :
    (dropSubtree.go pending h).startFullmove = h.startFullmove := by
  rw [dropSubtree_go_eq]

@[simp] theorem startFen_dropSubtree_go (h : History) :
    (dropSubtree.go pending h).startFen = h.startFen := by
  rw [dropSubtree_go_eq]

theorem Sound.cut (sound : Sound b0 h) (cut : Cut h o l f pending)
    (line : ∀ p ∈ pending, ∀ x ∈ h.currentLine, ¬h.Below p x) :
    Sound b0 (dropSubtree.go pending (h.modifyContinuations o f)) :=
  sound.of_edit (sound.shaped.cut cut) (fun _ _ found => (cut.node?_eq_some found).2)
    (fun x member n found => by
      have kept : ¬∃ p ∈ pending, h.Below p x := fun ⟨p, inPending, below⟩ =>
        line p inPending x member below
      rw [cut.node?_of_kept kept]
      exact node?_modifyContinuations_of_eq_some o f found)
    (by simp) (by simp) (by simp) (by simp)

theorem Shaped.cut_remove (shaped : h.Shaped) {id : NodeId} {n : Node} (found : h.node? id = some n) :
    ∃ l, Cut h n.parent l (fun l => l.filter (· ≠ id)) [id] := by
  obtain ⟨l, listed, count⟩ := shaped.listed id n found
  refine ⟨l, listed, by simp, fun p member => ?_, fun p member q parent below => ?_⟩
  · rw [List.mem_singleton.mp member]
    exact List.count_pos_iff.mp (by omega)
  · rw [List.mem_singleton.mp member] at below
    have smaller := (shaped.parent id n found q parent).2
    have le := shaped.index_le_of_below below
    omega

theorem Shaped.index_lt_of_listed (shaped : h.Shaped) {o : Option NodeId} {l : Array NodeId}
    (listed : h.continuations? o = some l) {p : NodeId} (member : p ∈ l.toList) {c : NodeId}
    (owner : o = some c) : c.index < p.index := by
  obtain ⟨np, foundP, parentP⟩ := shaped.entries _ _ listed p member
  exact (shaped.parent p np foundP c (parentP.trans owner)).2

theorem Shaped.cut_empty (shaped : h.Shaped) {o : Option NodeId} {lines : Array NodeId}
    (listed : h.continuations? o = some lines) : Cut h o lines (fun _ => #[]) lines.toList := by
  refine ⟨listed, by simp [List.filter_eq_nil_iff], fun p member => member,
    fun p member c owner below => ?_⟩
  have le := shaped.index_le_of_below below
  have smaller := shaped.index_lt_of_listed listed member owner
  omega

theorem Sound.remove (sound : Sound b0 h) {id : NodeId} {n : Node} (found : h.node? id = some n)
    (off : id ∉ h.currentLine) :
    Sound b0 ((h.modifyContinuations n.parent fun l => l.filter (· ≠ id)).dropSubtree id) := by
  obtain ⟨l, cut⟩ := sound.shaped.cut_remove found
  refine sound.cut cut fun p member x onLine below => off ?_
  rw [List.mem_singleton.mp member] at below
  obtain ⟨pre, path, leading⟩ := sound.path.of_mem onLine
  exact leading.subset (sound.shaped.mem_of_below below path)

theorem Sound.truncate (sound : Sound b0 h) {lines : Array NodeId}
    (listed : h.continuations? h.current = some lines) :
    Sound b0 (lines.foldl dropSubtree (h.modifyContinuations h.current fun _ => #[])) := by
  rw [← Array.foldl_toList, foldl_dropSubtree]
  refine sound.cut (sound.shaped.cut_empty listed) fun p member x onLine below => ?_
  obtain ⟨pre, path, leading⟩ := sound.path.of_mem onLine
  have onCurrent := leading.subset (sound.shaped.mem_of_below below path)
  have pathCurrent := sound.path
  cases current : h.current with
  | none =>
    rw [currentLine, current, lineTo_none] at onCurrent
    cases onCurrent
  | some c =>
    rw [current] at pathCurrent
    have le := sound.shaped.index_le_of_mem pathCurrent p onCurrent
    have smaller := sound.shaped.index_lt_of_listed listed member current
    omega

end Cut

end History

end Chess
