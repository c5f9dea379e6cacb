import Chess.Proofs.History.Anchors
import Chess.Proofs.History.Reachable
import Chess.Proofs.History.Events

namespace Chess

namespace History

/-! Walking a history never fails. On an anchored history, entering a child of the current
node plays its move again and going back takes the current move back, both keeping the history
anchored and its tree; so a walk to any node of the tree, or to the start, goes through, firing
a take-back for each node it leaves and a move for each node it enters. Every call keeps a
history anchored, so every history the calls reach from a coherent, settled board is. -/

variable {b0 : Board} {h h' h'' : History}

/-! ### Trees kept -/

/-- `h'` has the tree of `h`: the same list of continuations after every node and after the
start, so the same nodes, the same parents, and the same moves, played or not, in as many slots;
and every assignment of positions that anchors `h` anchors `h'`. -/
structure SameTree (h h' : History) : Prop where
  lists : ∀ o, h'.continuations? o = h.continuations? o
  parents : ∀ x, h'.parent? x = h.parent? x
  moves : ∀ x n', h'.node? x = some n' →
    ∃ n, h.node? x = some n ∧ n'.move = { n.move with executed := n'.move.executed }
  size : h'.nodes.size = h.nodes.size
  anchors : ∀ base, Anchors h base → Anchors h' base

namespace SameTree

theorem refl (h : History) : SameTree h h :=
  ⟨fun _ => rfl, fun _ => rfl, fun _ n' found => ⟨n', found, rfl⟩, rfl, fun _ anchors => anchors⟩

theorem trans (first : SameTree h h') (second : SameTree h' h'') : SameTree h h'' := by
  refine ⟨fun o => (second.lists o).trans (first.lists o),
    fun x => (second.parents x).trans (first.parents x), fun x n'' found'' => ?_,
    second.size.trans first.size, fun base anchors => second.anchors base (first.anchors base anchors)⟩
  obtain ⟨n', found', move'⟩ := second.moves x n'' found''
  obtain ⟨n, found, move⟩ := first.moves x n' found'
  rw [move] at move'
  exact ⟨n, found, move'⟩

theorem keepsTree (same : SameTree h h') : KeepsTree h h' := by
  intro x n found
  have lists := same.lists (some x)
  have parents := same.parents x
  simp only [continuations?, found, Option.map_some] at lists
  obtain ⟨n', found', continuations⟩ := Option.map_eq_some_iff.mp lists
  simp only [parent?, found, found', Option.bind_some] at parents
  exact ⟨n', found', parents, continuations⟩

theorem contains (same : SameTree h h') (x : NodeId) : h'.contains x = h.contains x := by
  have lists := congrArg Option.isSome (same.lists (some x))
  unfold History.contains
  simpa [continuations?] using lists

end SameTree

theorem sameTree_relocate {id : NodeId} {m : Move} {b : Board} {c : Option NodeId}
    (move : ∀ n, h.node? id = some n → m = { n.move with executed := m.executed })
    (anchors : ∀ base, Anchors h base → Anchors (h.relocate id m b c) base) :
    SameTree h (h.relocate id m b c) := by
  refine ⟨fun o => continuations?_setMove (h := h) id m o, fun x => ?_, fun x n' found' => ?_,
    size_setMove id m, anchors⟩
  · simp only [parent?, node?_relocate, node?_setMove]
    split <;> simp [Option.bind_map]
  · rw [node?_relocate, node?_setMove] at found'
    split at found'
    · rename_i here
      subst here
      obtain ⟨n, found, rfl⟩ := Option.map_eq_some_iff.mp found'
      exact ⟨n, found, move n found⟩
    · exact ⟨n', found', rfl⟩

namespace Anchored

theorem stepInto (anchored : Anchored b0 h) {id : NodeId} {n : Node} (found : h.node? id = some n)
    (child : n.parent = h.current) :
    ∃ s, n.move.execute h.board = .ok s ∧ Anchored b0 (h.relocate id s.1 s.2 (some id)) ∧
      SameTree h (h.relocate id s.1 s.2 (some id)) ∧
      (h.relocate id s.1 s.2 (some id)).currentLine = h.currentLine ++ [id] := by
  obtain ⟨sound, base, anchors⟩ := anchored
  obtain ⟨s, run, move, anchors'⟩ := anchors.stepInto sound found child
  obtain ⟨sound', line⟩ := sound.stepInto found child run
  have every : ∀ base', Anchors h base' → Anchors (h.relocate id s.1 s.2 (some id)) base' := by
    intro base' anchors₁
    obtain ⟨s', run', -, anchors₁'⟩ := anchors₁.stepInto sound found child
    rw [run] at run'
    cases run'
    exact anchors₁'
  refine ⟨s, run, ⟨sound', base, anchors'⟩, sameTree_relocate (fun n₁ found₁ => ?_) every, line⟩
  rw [found] at found₁
  cases found₁
  rw [move]

theorem prev (anchored : Anchored b0 h) {id : NodeId} (current : h.current = some id) :
    ∃ n t, h.node? id = some n ∧ n.move.unexecute h.board = .ok t ∧
      Anchored b0 (h.relocate id t.1 t.2 n.parent) ∧ SameTree h (h.relocate id t.1 t.2 n.parent) ∧
      (h.relocate id t.1 t.2 n.parent).currentLine = h.currentLine.dropLast := by
  obtain ⟨sound, base, anchors⟩ := anchored
  obtain ⟨n, t, found, undone, sound', line⟩ := sound.prev current
  have every : ∀ base', Anchors h base' → Anchors (h.relocate id t.1 t.2 n.parent) base' := by
    intro base' anchors₁
    obtain ⟨t', undone', anchors₁'⟩ := anchors₁.prev sound current found
    rw [undone] at undone'
    cases undone'
    exact anchors₁'
  have taken : t.1 = { n.move with executed := false } := by
    rw [(Move.unexecute_eq_ok.mp undone).2.2.2]
  refine ⟨n, t, found, undone, ⟨sound', base, every base anchors⟩,
    sameTree_relocate (fun n₁ found₁ => ?_) every, line⟩
  rw [found] at found₁
  cases found₁
  rw [taken]

end Anchored

theorem anchored_new (coherent : b0.Coherent) (settled : b0.Settled) : Anchored b0 (new b0) :=
  ⟨sound_new coherent settled, _, Anchors.new b0⟩

/-! ### Walking -/

theorem fires_stepInto (anchored : Anchored b0 h) {id : NodeId} {n : Node} (found : h.node? id = some n)
    (child : n.parent = h.current) :
    Fires (stepInto id) h fun r h' e => r = .ok ⟨⟩ ∧ e = [.moved] ∧ Anchored b0 h' ∧ SameTree h h' ∧
      h'.currentLine = h.currentLine ++ [id] := by
  obtain ⟨s, run, anchored', same, line⟩ := anchored.stepInto found child
  unfold stepInto
  refine fires_get_bind ?_
  rw [found]
  dsimp only
  refine fires_journal_bind (Move.records_executeNoted n.move h.board)
    (fun j => Move.executeNoted_run n.move h.board j) ?_
  rw [run]
  exact fires_set_bind _ (fires_announce _ ⟨rfl, rfl, anchored', same, line⟩)

theorem fires_prev (anchored : Anchored b0 h) {c : NodeId} (current : h.current = some c) :
    Fires prev h fun r h' e => r = .ok true ∧ e = [.unmoved] ∧ Anchored b0 h' ∧ SameTree h h' ∧
      h'.currentLine = h.currentLine.dropLast := by
  obtain ⟨n, t, found, undone, anchored', same, line⟩ := anchored.prev current
  unfold prev
  refine fires_get_bind ?_
  rw [current]
  dsimp only
  rw [found]
  dsimp only
  refine fires_journal_bind (Move.records_unexecuteNoted n.move h.board)
    (fun j => Move.unexecuteNoted_run n.move h.board j) ?_
  rw [undone]
  exact fires_set_bind _ (fires_announce_bind _ (fires_pure _
    ⟨rfl, rfl, anchored', same, line⟩))

theorem fires_walkBack {h₀ : History} (common : Nat) (xs : List Nat) (h : History)
    (start : Anchored b0 h ∧ SameTree h₀ h ∧ common + xs.length ≤ h₀.currentLine.length ∧
      h.currentLine = h₀.currentLine.take (common + xs.length)) :
    Fires (forIn xs PUnit.unit fun _ _ => do discard prev; pure (ForInStep.yield PUnit.unit) : HistoryM PUnit)
      h fun r h' e => r = .ok ⟨⟩ ∧ e = List.replicate xs.length .unmoved ∧ Anchored b0 h' ∧
        SameTree h₀ h' ∧ h'.currentLine = h₀.currentLine.take common := by
  refine (fires_forIn_yield (fun rest h => Anchored b0 h ∧ SameTree h₀ h ∧
      common + rest.length ≤ h₀.currentLine.length ∧
      h.currentLine = h₀.currentLine.take (common + rest.length)) .unmoved (fun _ => discard prev)
    (fun _ rest h₁ inv => ?_) xs h start).mono
    fun r h' e post => ⟨post.1, post.2.1, post.2.2.1, post.2.2.2.1, by simpa using post.2.2.2.2.2⟩
  obtain ⟨anchored₁, same₁, bound, line₁⟩ := inv
  have bound' : common + rest.length + 1 ≤ h₀.currentLine.length := by
    simpa [← Nat.add_assoc] using bound
  obtain ⟨c, current⟩ : ∃ c, h₁.current = some c := by
    cases current : h₁.current with
    | none =>
      rw [currentLine, current, lineTo_none] at line₁
      have lengths := congrArg List.length line₁
      simp only [List.length_nil, List.length_take, List.length_cons] at lengths
      omega
    | some c => exact ⟨c, rfl⟩
  refine (fires_prev anchored₁ current).discard
    (fun _ h' e post => ⟨rfl, post.2.1, post.2.2.1, same₁.trans post.2.2.2.1, by omega, ?_⟩)
    fun _ _ _ post => absurd post.1 (by simp)
  rw [post.2.2.2.2, line₁, List.length_cons, ← Nat.add_assoc, dropLast_take_of_le bound',
    Nat.add_sub_cancel]

theorem fires_walkForward {h₀ : History} {target : Option NodeId} {line : List NodeId}
    (path : Ancestry h₀ target line) (ahead : List NodeId) (h : History)
    (start : Anchored b0 h ∧ SameTree h₀ h ∧ h.currentLine ++ ahead = line) :
    Fires (forIn ahead PUnit.unit fun id _ => do stepInto id; pure (ForInStep.yield PUnit.unit) : HistoryM PUnit)
      h fun r h' e => r = .ok ⟨⟩ ∧ e = List.replicate ahead.length .moved ∧ Anchored b0 h' ∧
        SameTree h₀ h' ∧ h'.current = target := by
  refine (fires_forIn_yield (fun rest h => Anchored b0 h ∧ SameTree h₀ h ∧ h.currentLine ++ rest = line)
    .moved stepInto (fun x rest h₁ inv => ?_) ahead h start).mono
    fun r h' e post => ⟨post.1, post.2.1, post.2.2.1, post.2.2.2.1, ?_⟩
  · obtain ⟨anchored₁, same₁, line₁⟩ := inv
    obtain ⟨n, found, up⟩ := Ancestry.of_append (line₁ ▸ path)
    obtain ⟨n', found', parent, -⟩ := same₁.keepsTree x n found
    have child : n'.parent = h₁.current := by
      rw [parent]
      exact (up.keep same₁.keepsTree).target_eq anchored₁.1.path
    exact (fires_stepInto anchored₁ found' child).mono fun r h' e step =>
      ⟨step.1, step.2.1, step.2.2.1, same₁.trans step.2.2.2.1, by simp [step.2.2.2.2, ← line₁]⟩
  · obtain ⟨-, -, anchored', same', line'⟩ := post
    rw [List.append_nil] at line'
    exact anchored'.1.path.target_eq (line' ▸ path.keep same'.keepsTree)

def sharedLength (xs ys : List NodeId) : Nat := ((xs.zip ys).takeWhile fun x => decide (x.1 = x.2)).length

theorem fires_walkTo (anchored : Anchored b0 h) {target : Option NodeId} {line : List NodeId}
    (path : Ancestry h target line) :
    Fires (walkTo target) h fun r h' e => r = .ok ⟨⟩ ∧
      e = List.replicate (h.currentLine.length - sharedLength h.currentLine line) .unmoved ++
        List.replicate (line.length - sharedLength h.currentLine line) .moved ∧
      Anchored b0 h' ∧ SameTree h h' ∧ h'.current = target := by
  unfold walkTo sharedLength
  refine fires_get_bind ?_
  rw [anchored.1.shaped.lineTo_eq path]
  refine fires_journal_bind (Noted.records_log _ _) (fun _ => rfl) ?_
  have agree := take_agreeing h.currentLine line
  have within := length_agreeing_le h.currentLine line
  generalize ((h.currentLine.zip line).takeWhile fun x => decide (x.1 = x.2)).length = common
    at agree within ⊢
  rw [forIn_range_eq_range']
  have lengths : common + (List.range' common (h.currentLine.length - common)).length =
      h.currentLine.length := by
    simp only [List.length_range']
    omega
  refine (fires_walkBack common _ h ⟨anchored, SameTree.refl h, le_of_eq lengths,
      by rw [lengths, List.take_of_length_le le_rfl]⟩).bind (fun _ h₁ e₁ back => ?_)
    fun _ _ _ post => absurd post.1 (by simp)
  obtain ⟨-, fired₁, anchored₁, same₁, line₁⟩ := back
  refine (fires_walkForward path _ h₁ ⟨anchored₁, same₁, by rw [line₁, agree, List.take_append_drop]⟩).bind
    (fun _ h₂ e₂ forward => fires_pure _ ?_) fun _ _ _ post => absurd post.1 (by simp)
  obtain ⟨-, fired₂, anchored₂, same₂, target₂⟩ := forward
  refine ⟨rfl, ?_, anchored₂, same₂, target₂⟩
  rw [List.append_nil, fired₁, fired₂, List.length_range', List.length_drop]

theorem fires_goTo (anchored : Anchored b0 h) {target : Option NodeId}
    (present : ∀ id, target = some id → h.contains id = true) :
    Fires (goTo target) h fun r h' e => r = .ok ⟨⟩ ∧
      e = .traversalBegin :: (List.replicate (h.currentLine.length - sharedLength h.currentLine (h.lineTo target)) .unmoved ++
        List.replicate ((h.lineTo target).length - sharedLength h.currentLine (h.lineTo target)) .moved) ++
          [.traversalEnd] ∧
      Anchored b0 h' ∧ SameTree h h' ∧ h'.current = target := by
  obtain ⟨line, path⟩ : ∃ line, Ancestry h target line := by
    cases target with
    | none => exact ⟨[], .start⟩
    | some id =>
      obtain ⟨n, found⟩ := Option.isSome_iff_exists.mp (present id rfl)
      exact anchored.1.shaped.ancestry found
  rw [anchored.1.shaped.lineTo_eq path]
  have walk := (fires_walkTo anchored path).mono fun r h' e post =>
    (⟨post.1, by rw [post.2.1, List.cons_append], post.2.2⟩ : r = .ok ⟨⟩ ∧
      .traversalBegin :: (e ++ [.traversalEnd]) = .traversalBegin ::
        (List.replicate (h.currentLine.length - sharedLength h.currentLine line) .unmoved ++
          List.replicate (line.length - sharedLength h.currentLine line) .moved) ++ [.traversalEnd] ∧
      Anchored b0 h' ∧ SameTree h h' ∧ h'.current = target)
  unfold goTo
  cases target with
  | none => exact fires_announce_bind _ (Fires.tryFinally _ walk)
  | some id =>
    refine fires_get_bind ?_
    rw [present id rfl]
    exact fires_announce_bind _ (Fires.tryFinally _ walk)

/-! ### The walks as triples -/

theorem triple_stepInto_anchored {h₀ : History} (anchored : Anchored b0 h₀) {id : NodeId}
    {n : Node} (found : h₀.node? id = some n) (child : n.parent = h₀.current) :
    Triple (· = h₀) (stepInto id) fun r h =>
      r = .ok ⟨⟩ ∧ Anchored b0 h ∧ KeepsTree h₀ h ∧ h.currentLine = h₀.currentLine ++ [id] :=
  (fires_stepInto anchored found child).triple.mono (fun _ same => same) fun _ _ post =>
    post.elim fun _ step => ⟨step.1, step.2.2.1, step.2.2.2.1.keepsTree, step.2.2.2.2⟩

theorem triple_prev_anchored {h₀ : History} (anchored : Anchored b0 h₀) :
    Triple (· = h₀) prev fun r h =>
      (∃ v, r = .ok v) ∧ Anchored b0 h ∧ KeepsTree h₀ h ∧ h.currentLine = h₀.currentLine.dropLast := by
  unfold prev
  refine triple_get_bind fun h start => ?_
  subst start
  cases current : h.current with
  | none =>
    refine triple_pure _ fun h' start => ?_
    subst start
    refine ⟨⟨_, rfl⟩, anchored, KeepsTree.refl _, ?_⟩
    rw [currentLine, current, lineTo_none]
    rfl
  | some id =>
    obtain ⟨n, t, found, undone, anchored', -, line⟩ := anchored.prev current
    dsimp only
    rw [found]
    dsimp only
    refine triple_journal_bind (fun j => Move.unexecuteNoted_run n.move h.board j) ?_
    rw [undone]
    refine triple_set_bind _ (triple_announce_bind _ (triple_pure _ fun h' start => ?_))
    subst start
    exact ⟨⟨_, rfl⟩, anchored', keepsTree_relocate id _ _ n.parent, line⟩

theorem triple_goTo_anchored {h₀ : History} (anchored : Anchored b0 h₀) {target : Option NodeId}
    (present : ∀ id, target = some id → h₀.contains id = true) :
    Triple (· = h₀) (goTo target) fun r h =>
      r = .ok ⟨⟩ ∧ Anchored b0 h ∧ KeepsTree h₀ h ∧ h.current = target :=
  (fires_goTo anchored present).triple.mono (fun _ same => same) fun _ _ post =>
    post.elim fun _ walk => ⟨walk.1, walk.2.2.1, walk.2.2.2.1.keepsTree, walk.2.2.2.2⟩

/-! ### Every call -/

theorem triple_nextVariation_anchored (index : Nat) :
    Triple (Anchored b0) (nextVariation index) fun _ h => Anchored b0 h := by
  unfold nextVariation
  refine triple_get_bind fun h₀ anchored => ?_
  split
  · rename_i id found
    obtain ⟨list, listed, entry⟩ := Option.bind_eq_some_iff.mp found
    obtain ⟨n, found', parent⟩ := anchored.1.child_of_mem listed
      (Array.mem_toList_iff.mpr (Array.mem_of_getElem? entry))
    exact (triple_stepInto_anchored anchored found' parent).bind
      (fun _ => triple_pure _ fun _ post => post.2.1) fun _ _ post => post.2.1
  · exact triple_pure _ fun h start => start ▸ anchored

theorem triple_add_anchored (mv : Move) :
    Triple (fun h => Anchored b0 h ∧ (mv.lineage = h.board.lineage → mv.Fits h.board)) (add mv)
      fun _ h => Anchored b0 h := by
  unfold add
  refine triple_get_bind fun h₀ ⟨anchored, admits⟩ => ?_
  dsimp only
  split
  · rename_i id found
    obtain ⟨list, listed, first⟩ := Option.bind_eq_some_iff.mp found
    obtain ⟨n, found', parent⟩ := anchored.1.child_of_mem listed
      (Array.mem_toList_iff.mpr (Array.mem_of_find?_eq_some first))
    exact (triple_stepInto_anchored anchored found' parent).bind
      (fun _ => triple_pure _ fun _ post => post.2.1) fun _ _ post => post.2.1
  · rename_i absent
    refine triple_journal_bind (fun j => Move.executeNoted_run mv h₀.board j) ?_
    split
    · exact triple_journal_bind (fun _ => rfl) (triple_throw _ fun h start => start ▸ anchored)
    · rename_i m b run
      have lineage := Move.lineage_of_execute run
      have distinct := playsSame_false_of_unfound absent fun x other found => by rw [found]
      obtain ⟨sound, base, anchors⟩ := anchored
      refine triple_announce_bind _ (triple_journal_bind (fun _ => rfl) ?_)
      exact triple_set_bind (h₀.attach m b) (triple_pure _ fun h start => start ▸
        ⟨sound.attach (admits lineage) run distinct, _, anchors.attach sound (admits lineage) run⟩)

theorem triple_addMove_anchored (o t : Square) (p : Option PieceKind) :
    Triple (Anchored b0) (addMove o t p) fun _ h => Anchored b0 h := by
  unfold addMove
  refine triple_get_bind fun h₀ anchored => ?_
  refine triple_journal_bind (fun j => Move.newNoted_run h₀.board o t p j) ?_
  split
  · rename_i m made
    refine (triple_add_anchored m).mono (fun h start => ?_) fun _ _ post => post
    subst start
    exact ⟨anchored, fun _ => (Move.Fits.new anchored.1.coherent made).1⟩
  · exact triple_throw _ fun h start => start ▸ anchored

theorem triple_promote_anchored (id : NodeId) :
    Triple (Anchored b0) (promote id) fun _ h => Anchored b0 h := by
  unfold promote
  refine triple_get_bind fun h₀ ⟨sound, base, anchors⟩ => ?_
  split
  · rename_i n found
    split
    · rename_i list listed
      split
      · refine triple_set _ fun _ _ =>
          ⟨sound.relist fun l listed' => ?_, base, anchors.modifyContinuations _ _⟩
        obtain ⟨l', listed'', once⟩ := sound.shaped.listed id n found
        rw [listed'] at listed''
        cases listed''
        exact perm_promoted once
      · exact triple_pure _ fun h start => start ▸ ⟨sound, base, anchors⟩
    · exact triple_throw _ fun h start => start ▸ ⟨sound, base, anchors⟩
  · exact triple_throw _ fun h start => start ▸ ⟨sound, base, anchors⟩

theorem triple_goTo_anchored_any (target : Option NodeId) :
    Triple (Anchored b0) (goTo target) fun _ h => Anchored b0 h := by
  refine Triple.of_each fun h₀ anchored => ?_
  by_cases present : ∀ id, target = some id → h₀.contains id = true
  · exact (triple_goTo_anchored anchored present).mono (fun _ same => same) fun _ _ post => post.2.1
  · obtain ⟨id, rfl, absent⟩ : ∃ id, target = some id ∧ h₀.contains id = false := by
      simpa using present
    unfold goTo
    refine triple_get_bind fun h start => ?_
    subst start
    rw [absent]
    exact triple_throw_bind _ fun h start => start ▸ anchored

theorem triple_fastforward_anchored : Triple (Anchored b0) fastforward fun _ h => Anchored b0 h := by
  unfold fastforward
  refine triple_announce_bind _ (triple_tryFinally (triple_get_bind fun h₀ anchored => ?_) _)
  refine Triple.bind (R := fun _ h => Anchored b0 h)
    ((triple_forIn (fun _ h => Anchored b0 h) _ _ (fun _ _ => ?_) fun _ post => post).mono
      (fun _ same => same ▸ anchored) fun _ _ post => post)
    (fun _ => triple_pure _ fun _ post => post) fun _ _ post => post
  refine (triple_nextVariation_anchored 0).bind (fun r => ?_) fun _ _ post => ⟨nofun, nofun, fun _ _ => post⟩
  split
  · exact triple_pure _ fun _ post => ⟨nofun, fun _ => post, nofun⟩
  · exact triple_pure _ fun _ post => ⟨fun _ => post, nofun, nofun⟩

/-- Removing a node and the nodes below it keeps the history anchored: going to the node's
parent first, when the current node is among them, goes through, and so does the removal of a
node of the tree. -/
theorem triple_remove_anchored {h₀ : History} (anchored : Anchored b0 h₀) (id : NodeId) :
    Triple (· = h₀) (remove id) fun r h => Anchored b0 h ∧ (h₀.contains id = true → r = .ok ⟨⟩) := by
  unfold remove
  refine triple_get_bind fun h start => ?_
  subst start
  split
  · rename_i n found
    have edit : Triple (fun h' => Anchored b0 h' ∧ KeepsTree h h' ∧ id ∉ h'.currentLine)
        (get >>= fun h' => set ((h'.modifyContinuations n.parent fun l => l.filter (· ≠ id)).dropSubtree id))
        fun r h' => Anchored b0 h' ∧ (h.contains id = true → r = .ok ⟨⟩) := by
      refine triple_get_bind fun h₁ ⟨⟨sound₁, base, anchors₁⟩, keeps, off⟩ => ?_
      obtain ⟨n', found', parent, -⟩ := keeps id n found
      refine triple_set _ fun _ _ => ⟨?_, fun _ => rfl⟩
      rw [← parent]
      exact ⟨sound₁.remove found' off, base, (anchors₁.modifyContinuations _ _).dropSubtree_go [id]⟩
    split
    · have present : ∀ p, n.parent = some p → h.contains p = true := fun p parent =>
        (anchored.1.shaped.parent id n found p parent).1
      refine (triple_goTo_anchored anchored present).bind
        (fun _ => edit.mono (fun h' post => ?_) fun _ _ post => post)
        fun _ _ post => absurd post.1 (by simp)
      obtain ⟨-, anchored', keeps', reached⟩ := post
      obtain ⟨n', found', parent, -⟩ := keeps' id n found
      refine ⟨anchored', keeps', anchored'.1.shaped.not_mem_of_parent found' ?_⟩
      rw [parent, ← reached]
      exact anchored'.1.path
    · rename_i on
      refine edit.mono (fun h' start => ?_) fun _ _ post => post
      subst start
      exact ⟨anchored, KeepsTree.refl _, by simpa using on⟩
  · rename_i missing
    refine triple_throw _ fun h' start => ⟨start ▸ anchored, fun present => ?_⟩
    obtain ⟨n, found⟩ := Option.isSome_iff_exists.mp present
    exact (missing n found).elim

theorem triple_truncate_anchored : Triple (Anchored b0) truncate fun _ h => Anchored b0 h := by
  unfold truncate
  refine triple_get_bind fun h₀ ⟨sound, base, anchors⟩ => ?_
  split
  · rename_i lines listed
    refine triple_set _ fun _ _ => ⟨sound.truncate listed, base, ?_⟩
    rw [← Array.foldl_toList, foldl_dropSubtree]
    exact (anchors.modifyContinuations _ _).dropSubtree_go _
  · exact triple_pure _ fun _ start => start ▸ ⟨sound, base, anchors⟩

theorem triple_call_anchored (c : Call) :
    Triple (fun h => Anchored b0 h ∧ c.Allowed h) c.act fun _ h => Anchored b0 h := by
  have pre : ∀ h, Anchored b0 h ∧ c.Allowed h → Anchored b0 h := fun _ start => start.1
  have discarded : ∀ {β : Type} {P : History → Prop} {x : HistoryM β},
      Triple P x (fun _ h => Anchored b0 h) → Triple P (Functor.discard x) fun _ h => Anchored b0 h :=
    fun spec => spec.discard (fun _ _ post => post) fun _ _ post => post
  cases c with
  | add mv => exact discarded (triple_add_anchored mv)
  | addMove origin target promotion =>
    exact (discarded (triple_addMove_anchored origin target promotion)).mono pre fun _ _ post => post
  | next => exact (discarded (triple_nextVariation_anchored 0)).mono pre fun _ _ post => post
  | nextVariation index =>
    exact (discarded (triple_nextVariation_anchored index)).mono pre fun _ _ post => post
  | prev =>
    exact Triple.of_each fun _ start =>
      (triple_prev_anchored start.1).discard (fun _ _ post => post.2.1) fun _ _ post => post.2.1
  | goTo target => exact (triple_goTo_anchored_any target).mono pre fun _ _ post => post
  | rewind => exact (triple_goTo_anchored_any none).mono pre fun _ _ post => post
  | fastforward => exact triple_fastforward_anchored.mono pre fun _ _ post => post
  | promote id => exact (triple_promote_anchored id).mono pre fun _ _ post => post
  | remove id =>
    exact Triple.of_each fun _ start =>
      (triple_remove_anchored start.1 id).mono (fun _ same => same) fun _ _ post => post.1
  | truncate => exact triple_truncate_anchored.mono pre fun _ _ post => post

theorem Reachable.anchored (coherent : b0.Coherent) (settled : b0.Settled) (reached : Reachable b0 h) :
    Anchored b0 h := by
  induction reached with
  | new => exact anchored_new coherent settled
  | step c j _ allowed anchored => exact triple_call_anchored c _ j ⟨anchored, allowed⟩

end History

end Chess
