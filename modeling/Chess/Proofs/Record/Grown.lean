import Chess.Proofs.Pgn.Reading

namespace Chess

namespace History

/-! Histories a game record keeps. A history grown from a new one by calls, each succeeding or
failing, whose added moves play as moves listed on the board do, stays recorded: every node
holds a listed move played on a board returning to its parent's position. Every call also keeps
the FEN text of the start, which a record writes. -/

/-- The calls a record keeps track of: a move added plays, where it plays at all, as a move
listed on the history's board does. -/
def Call.Records : Call → History → Prop
  | .add mv, h => ∀ r, mv.execute h.board = .ok r → ∃ n ∈ h.board.legalMoves, n.execute h.board = .ok r
  | _, _ => True

/-- The histories grown from a new history over `b0` by calls a record keeps track of, each
succeeding or failing, with any journal. -/
inductive Grown (b0 : Board) : History → Prop
  | new : Grown b0 (History.new b0)
  | step {h : History} (c : Call) (j : Array Entry) (grown : Grown b0 h) (records : c.Records h) :
      Grown b0 ((History.run c.act h).run j).1.2

variable {b0 : Board} {h : History}

theorem node?_dropSubtree_go_eq_some {pending : List NodeId} {x : NodeId} {n' : Node}
    (found : (dropSubtree.go pending h).node? x = some n') : h.node? x = some n' := by
  by_cases gone : ∃ p ∈ pending, h.Below p x
  · rw [(node?_dropSubtree_go pending h x).1 gone] at found
    cases found
  · rwa [(node?_dropSubtree_go pending h x).2 gone] at found

/-! ### The start kept -/

section Start

variable {s : String}

theorem triple_stepInto_startFen (id : NodeId) :
    Triple (·.startFen = s) (stepInto id) fun _ h => h.startFen = s := by
  unfold stepInto
  refine triple_get_bind fun h start => ?_
  cases h.node? id with
  | none => exact triple_throw _ fun _ same => same ▸ start
  | some n =>
    dsimp only
    refine triple_journal_bind (fun j => Move.executeNoted_run n.move h.board j) ?_
    split
    · exact triple_set_announce _ _ start
    · exact triple_throw _ fun _ same => same ▸ start

theorem triple_prev_startFen : Triple (·.startFen = s) prev fun _ h => h.startFen = s := by
  unfold prev
  refine triple_get_bind fun h start => ?_
  cases h.current with
  | none => exact triple_pure _ fun _ same => same ▸ start
  | some id =>
    dsimp only
    cases h.node? id with
    | none => exact triple_throw _ fun _ same => same ▸ start
    | some n =>
      dsimp only
      refine triple_journal_bind (fun j => Move.unexecuteNoted_run n.move h.board j) ?_
      split
      · exact triple_set_bind _ (triple_announce_bind _ (triple_pure _ fun _ same => by
          subst same
          exact start))
      · exact triple_throw _ fun _ same => same ▸ start

theorem triple_walkTo_startFen (target : Option NodeId) :
    Triple (·.startFen = s) (walkTo target) fun _ h => h.startFen = s := by
  unfold walkTo
  refine triple_get_bind fun h start => ?_
  refine triple_journal_bind (fun _ => rfl) ?_
  rw [Std.Legacy.Range.forIn_eq_forIn_range']
  refine Triple.bind (R := fun _ h' => h'.startFen = s)
    ((triple_forIn_yield (fun _ h' => h'.startFen = s) _ (fun _ => discard prev) (fun _ _ => ?_)
      fun _ post => post).mono (fun _ same => same ▸ start) fun _ _ post => post)
    (fun _ => Triple.bind (R := fun _ h' => h'.startFen = s)
      (triple_forIn_yield (fun _ h' => h'.startFen = s) _ stepInto (fun id _ => ?_) fun _ post => post)
      (fun _ => triple_pure _ fun _ post => post) fun _ _ post => post) fun _ _ post => post
  · exact triple_prev_startFen.discard (fun _ _ post => ⟨fun _ => post, nofun⟩) fun _ _ post =>
      ⟨nofun, fun _ _ => post⟩
  · exact (triple_stepInto_startFen id).mono (fun _ post => post) fun r _ post =>
      ⟨fun _ => post, fun _ _ => post⟩

theorem triple_goTo_startFen (target : Option NodeId) :
    Triple (·.startFen = s) (goTo target) fun _ h => h.startFen = s := by
  have walk : Triple (·.startFen = s)
      (journal (Noted.add (.event .traversalBegin)) >>= fun _ =>
        tryFinally (walkTo target) (journal (Noted.add (.event .traversalEnd))))
      fun _ h => h.startFen = s :=
    triple_announce_bind _ (triple_tryFinally (triple_walkTo_startFen target) _)
  unfold goTo
  cases target with
  | none => exact walk
  | some id =>
    refine triple_get_bind fun h start => ?_
    split
    · exact triple_throw_bind _ fun _ same => same ▸ start
    · exact walk.mono (fun _ same => same ▸ start) fun _ _ post => post

theorem triple_nextVariation_startFen (index : Nat) :
    Triple (·.startFen = s) (nextVariation index) fun _ h => h.startFen = s := by
  unfold nextVariation
  refine triple_get_bind fun h start => ?_
  split
  · exact ((triple_stepInto_startFen _).bind (fun _ => triple_pure _ fun _ post => post)
      fun _ _ post => post).mono (fun _ same => same ▸ start) fun _ _ post => post
  · exact triple_pure _ fun _ same => same ▸ start

theorem triple_add_startFen (mv : Move) :
    Triple (·.startFen = s) (add mv) fun _ h => h.startFen = s := by
  unfold add
  refine triple_get_bind fun h start => ?_
  dsimp only
  split
  · exact ((triple_stepInto_startFen _).bind (fun _ => triple_pure _ fun _ post => post)
      fun _ _ post => post).mono (fun _ same => same ▸ start) fun _ _ post => post
  · refine triple_journal_bind (fun j => Move.executeNoted_run mv h.board j) ?_
    split
    · exact triple_journal_bind (fun _ => rfl) (triple_throw _ fun _ same => same ▸ start)
    · rename_i m b run
      refine triple_announce_bind _ (triple_journal_bind (fun _ => rfl) ?_)
      exact triple_set_bind (h.attach m b) (triple_pure _ fun _ same => by
        rw [same, startFen_attach]
        exact start)

theorem triple_addMove_startFen (o t : Square) (p : Option PieceKind) :
    Triple (·.startFen = s) (addMove o t p) fun _ h => h.startFen = s := by
  unfold addMove
  refine triple_get_bind fun h start => ?_
  refine triple_journal_bind (fun j => Move.newNoted_run h.board o t p j) ?_
  split
  · exact (triple_add_startFen _).mono (fun _ same => same ▸ start) fun _ _ post => post
  · exact triple_throw _ fun _ same => same ▸ start

theorem triple_promote_startFen (id : NodeId) :
    Triple (·.startFen = s) (promote id) fun _ h => h.startFen = s := by
  unfold promote
  refine triple_get_bind fun h start => ?_
  split
  · split
    · split
      · exact triple_set _ fun _ _ => by
          rw [startFen_modifyContinuations]
          exact start
      · exact triple_pure _ fun _ same => same ▸ start
    · exact triple_throw _ fun _ same => same ▸ start
  · exact triple_throw _ fun _ same => same ▸ start

theorem triple_fastforward_startFen : Triple (·.startFen = s) fastforward fun _ h => h.startFen = s := by
  unfold fastforward
  refine triple_announce_bind _ (triple_tryFinally (triple_get_bind fun h₀ start => ?_) _)
  refine Triple.bind (R := fun _ h => h.startFen = s)
    ((triple_forIn (fun _ h => h.startFen = s) _ _ (fun _ _ => ?_) fun _ post => post).mono
      (fun _ same => same ▸ start) fun _ _ post => post)
    (fun _ => triple_pure _ fun _ post => post) fun _ _ post => post
  refine (triple_nextVariation_startFen 0).bind (fun r => ?_) fun _ _ post => ⟨nofun, nofun, fun _ _ => post⟩
  split
  · exact triple_pure _ fun _ post => ⟨nofun, fun _ => post, nofun⟩
  · exact triple_pure _ fun _ post => ⟨fun _ => post, nofun, nofun⟩

theorem triple_remove_startFen (id : NodeId) :
    Triple (·.startFen = s) (remove id) fun _ h => h.startFen = s := by
  unfold remove
  refine triple_get_bind fun h start => ?_
  split
  · rename_i n found
    have edit : Triple (·.startFen = s)
        (get >>= fun h' => set ((h'.modifyContinuations n.parent fun l => l.filter (· ≠ id)).dropSubtree id))
        fun _ h => h.startFen = s :=
      triple_get_bind fun _ start₁ => triple_set _ fun _ _ => by
        rw [dropSubtree, startFen_dropSubtree_go, startFen_modifyContinuations]
        exact start₁
    split
    · exact ((triple_goTo_startFen _).bind (fun _ => edit) fun _ _ post => post).mono
        (fun _ same => same ▸ start) fun _ _ post => post
    · exact edit.mono (fun _ same => same ▸ start) fun _ _ post => post
  · exact triple_throw _ fun _ same => same ▸ start

theorem triple_truncate_startFen : Triple (·.startFen = s) truncate fun _ h => h.startFen = s := by
  unfold truncate
  refine triple_get_bind fun h start => ?_
  split
  · exact triple_set _ fun _ _ => by
      rw [← Array.foldl_toList, foldl_dropSubtree, startFen_dropSubtree_go, startFen_modifyContinuations]
      exact start
  · exact triple_pure _ fun _ same => same ▸ start

theorem triple_call_startFen (c : Call) : Triple (·.startFen = s) c.act fun _ h => h.startFen = s := by
  have discarded : ∀ {β : Type} {x : HistoryM β}, Triple (·.startFen = s) x (fun _ h => h.startFen = s) →
      Triple (·.startFen = s) (Functor.discard x) fun _ h => h.startFen = s :=
    fun spec => spec.discard (fun _ _ post => post) fun _ _ post => post
  cases c with
  | add mv => exact discarded (triple_add_startFen mv)
  | addMove o t p => exact discarded (triple_addMove_startFen o t p)
  | next => exact discarded (triple_nextVariation_startFen 0)
  | nextVariation index => exact discarded (triple_nextVariation_startFen index)
  | prev => exact discarded triple_prev_startFen
  | goTo target => exact triple_goTo_startFen target
  | rewind => exact triple_goTo_startFen none
  | fastforward => exact triple_fastforward_startFen
  | promote id => exact triple_promote_startFen id
  | remove id => exact triple_remove_startFen id
  | truncate => exact triple_truncate_startFen

end Start

/-! ### Recorded histories kept -/

section Kept

variable {base : Option NodeId → Board}

theorem Recorded.triple_stepInto {h₀ : History} (recorded : Recorded b0 base h₀) {id : NodeId}
    {n : Node} (found : h₀.node? id = some n) (child : n.parent = h₀.current) :
    Triple (· = h₀) (stepInto id) fun _ h => Recorded b0 base h :=
  (fires_stepInto recorded.anchored found child).triple.mono (fun _ same => same) fun _ _ post =>
    post.elim fun _ step => recorded.sameTree step.2.2.2.1 step.2.2.1.1

theorem triple_nextVariation_recorded (index : Nat) :
    Triple (Recorded b0 base) (nextVariation index) fun _ h => Recorded b0 base h := by
  unfold nextVariation
  refine triple_get_bind fun h₀ recorded => ?_
  split
  · rename_i id found
    obtain ⟨list, listed, entry⟩ := Option.bind_eq_some_iff.mp found
    obtain ⟨n, found', parent⟩ := recorded.sound.child_of_mem listed
      (Array.mem_toList_iff.mpr (Array.mem_of_getElem? entry))
    exact (recorded.triple_stepInto found' parent).bind (fun _ => triple_pure _ fun _ post => post)
      fun _ _ post => post
  · exact triple_pure _ fun _ same => same ▸ recorded

theorem triple_prev_recorded : Triple (Recorded b0 base) prev fun _ h => Recorded b0 base h := by
  refine Triple.of_each fun h₀ recorded => ?_
  cases current : h₀.current with
  | none =>
    unfold prev
    refine triple_get_bind fun h same => ?_
    subst same
    rw [current]
    exact triple_pure _ fun _ same => same ▸ recorded
  | some c =>
    exact (fires_prev recorded.anchored current).triple.mono (fun _ same => same) fun _ _ post =>
      post.elim fun _ step => recorded.sameTree step.2.2.2.1 step.2.2.1.1

theorem triple_goTo_recorded (target : Option NodeId) :
    Triple (Recorded b0 base) (goTo target) fun _ h => Recorded b0 base h := by
  refine Triple.of_each fun h₀ recorded => ?_
  by_cases present : ∀ id, target = some id → h₀.contains id = true
  · exact (fires_goTo recorded.anchored present).triple.mono (fun _ same => same) fun _ _ post =>
      post.elim fun _ walk => recorded.sameTree walk.2.2.2.1 walk.2.2.1.1
  · obtain ⟨id, rfl, absent⟩ : ∃ id, target = some id ∧ h₀.contains id = false := by
      simpa using present
    unfold goTo
    refine triple_get_bind fun h same => ?_
    subst same
    rw [absent]
    exact triple_throw_bind _ fun _ same => same ▸ recorded

theorem triple_fastforward_recorded :
    Triple (Recorded b0 base) fastforward fun _ h => Recorded b0 base h := by
  unfold fastforward
  refine triple_announce_bind _ (triple_tryFinally (triple_get_bind fun h₀ recorded => ?_) _)
  refine Triple.bind (R := fun _ h => Recorded b0 base h)
    ((triple_forIn (fun _ h => Recorded b0 base h) _ _ (fun _ _ => ?_) fun _ post => post).mono
      (fun _ same => same ▸ recorded) fun _ _ post => post)
    (fun _ => triple_pure _ fun _ post => post) fun _ _ post => post
  refine (triple_nextVariation_recorded 0).bind (fun r => ?_) fun _ _ post =>
    ⟨nofun, nofun, fun _ _ => post⟩
  split
  · exact triple_pure _ fun _ post => ⟨nofun, fun _ => post, nofun⟩
  · exact triple_pure _ fun _ post => ⟨fun _ => post, nofun, nofun⟩

theorem triple_promote_recorded (id : NodeId) :
    Triple (Recorded b0 base) (promote id) fun _ h => Recorded b0 base h := by
  unfold promote
  refine triple_get_bind fun h₀ recorded => ?_
  split
  · rename_i n found
    split
    · split
      · refine triple_set _ fun _ _ => recorded.of_edit (recorded.sound.relist fun l listed' => ?_)
          (fun _ _ found' => node?_modifyContinuations_eq_some _ _ found') (by simp) (by simp)
        obtain ⟨l', listed'', once⟩ := recorded.sound.shaped.listed id n found
        rw [listed'] at listed''
        cases listed''
        exact perm_promoted once
      · exact triple_pure _ fun _ same => same ▸ recorded
    · exact triple_throw _ fun _ same => same ▸ recorded
  · exact triple_throw _ fun _ same => same ▸ recorded

/-- Removing a node and the nodes below it keeps a history recorded, at the same positions:
going to the node's parent first, when the current node is among them, walks the tree, and
the removal leaves the other nodes as they were. -/
theorem triple_remove_recorded (id : NodeId) :
    Triple (Recorded b0 base) (remove id) fun _ h => Recorded b0 base h := by
  unfold remove
  refine triple_get_bind fun h₀ recorded => ?_
  split
  · rename_i n found
    have edit : Triple (fun h => Recorded b0 base h ∧ KeepsTree h₀ h ∧ id ∉ h.currentLine)
        (get >>= fun h => set ((h.modifyContinuations n.parent fun l => l.filter (· ≠ id)).dropSubtree id))
        fun _ h => Recorded b0 base h := by
      refine triple_get_bind fun h₁ ⟨recorded₁, keeps, off⟩ => ?_
      obtain ⟨n', found', parent, -⟩ := keeps id n found
      refine triple_set _ fun _ _ => ?_
      rw [← parent]
      exact recorded₁.of_edit (recorded₁.sound.remove found' off)
        (fun _ _ found'' => node?_modifyContinuations_eq_some _ _ (node?_dropSubtree_go_eq_some found''))
        (by simp [dropSubtree]) (by simp [dropSubtree])
    split
    · have present : ∀ p, n.parent = some p → h₀.contains p = true := fun p parent =>
        (recorded.sound.shaped.parent id n found p parent).1
      refine Triple.bind (R := fun r h => r = .ok ⟨⟩ ∧ Recorded b0 base h ∧ SameTree h₀ h ∧
          h.current = n.parent)
        ((fires_goTo recorded.anchored present).triple.mono (fun _ same => same) fun _ _ post =>
          post.elim fun _ walk => ⟨walk.1, recorded.sameTree walk.2.2.2.1 walk.2.2.1.1, walk.2.2.2.1,
            walk.2.2.2.2⟩)
        (fun _ => edit.mono (fun h post => ?_) fun _ _ post => post) fun _ _ post => absurd post.1 (by simp)
      obtain ⟨-, recorded', same', reached⟩ := post
      obtain ⟨n', found', parent, -⟩ := same'.keepsTree id n found
      refine ⟨recorded', same'.keepsTree, recorded'.sound.shaped.not_mem_of_parent found' ?_⟩
      rw [parent, ← reached]
      exact recorded'.sound.path
    · rename_i on
      refine edit.mono (fun h same => ?_) fun _ _ post => post
      subst same
      exact ⟨recorded, KeepsTree.refl _, by simpa using on⟩
  · exact triple_throw _ fun _ same => same ▸ recorded

theorem triple_truncate_recorded : Triple (Recorded b0 base) truncate fun _ h => Recorded b0 base h := by
  unfold truncate
  refine triple_get_bind fun h₀ recorded => ?_
  split
  · rename_i lines listed
    refine triple_set _ fun _ _ => recorded.of_edit (recorded.sound.truncate listed) (fun _ _ found' => ?_)
      (by simp [← Array.foldl_toList, foldl_dropSubtree]) (by simp [← Array.foldl_toList, foldl_dropSubtree])
    rw [← Array.foldl_toList, foldl_dropSubtree] at found'
    exact node?_modifyContinuations_eq_some _ _ (node?_dropSubtree_go_eq_some found')
  · exact triple_pure _ fun _ same => same ▸ recorded

theorem Recorded.triple_add {h : History} (recorded : Recorded b0 base h) {mv : Move}
    (records : (Call.add mv).Records h) :
    Triple (· = h) (add mv) fun _ h => ∃ base', Recorded b0 base' h := by
  unfold add
  refine triple_get_bind fun h₀ same => ?_
  subst h₀
  dsimp only
  split
  · rename_i id found
    obtain ⟨list, listed, first⟩ := Option.bind_eq_some_iff.mp found
    obtain ⟨n, found', parent⟩ := recorded.sound.child_of_mem listed
      (Array.mem_toList_iff.mpr (Array.mem_of_find?_eq_some first))
    exact (recorded.triple_stepInto found' parent).bind (fun _ => triple_pure _ fun _ post => ⟨base, post⟩)
      fun _ _ post => ⟨base, post⟩
  · rename_i absent
    refine triple_journal_bind (fun j => Move.executeNoted_run mv h.board j) ?_
    split
    · exact triple_journal_bind (fun _ => rfl) (triple_throw _ fun _ same => ⟨base, same ▸ recorded⟩)
    · rename_i m b run
      obtain ⟨n₀, legal, run₀⟩ := records (m, b) run
      have distinct : Distinct h mv := playsSame_false_of_unfound absent fun x other found => by
        rw [found]
      refine triple_announce_bind _ (triple_journal_bind (fun _ => rfl) ?_)
      exact triple_set_bind (h.attach m b) (triple_pure _ fun _ same => same ▸
        ⟨_, recorded.attach legal run₀ (distinct.of_execute run run₀)⟩)

theorem triple_addMove_recorded (o t : Square) (p : Option PieceKind) :
    Triple (Recorded b0 base) (addMove o t p) fun _ h => ∃ base', Recorded b0 base' h := by
  unfold addMove
  refine triple_get_bind fun h₀ recorded => ?_
  refine triple_journal_bind (fun j => Move.newNoted_run h₀.board o t p j) ?_
  split
  · rename_i m made
    refine recorded.triple_add fun r run => ?_
    obtain ⟨n, legal, r', run', runM, -⟩ :=
      Move.new_listed recorded.sound.coherent recorded.sound.settled made
    rw [runM] at run
    cases run
    exact ⟨n, legal, run'⟩
  · exact triple_throw _ fun _ same => ⟨base, same ▸ recorded⟩

end Kept

theorem triple_call_recorded (c : Call) :
    Triple (fun h => (∃ base, Recorded b0 base h) ∧ c.Records h) c.act
      fun _ h => ∃ base, Recorded b0 base h := by
  refine Triple.of_each fun h₀ ⟨⟨base, recorded⟩, records⟩ => ?_
  have kept : ∀ {β : Type} {x : HistoryM β},
      Triple (Recorded b0 base) x (fun _ h => Recorded b0 base h) →
      Triple (· = h₀) (Functor.discard x) fun _ h => ∃ base, Recorded b0 base h := fun spec =>
    (spec.discard (fun _ _ post => ⟨base, post⟩) fun _ _ post => ⟨base, post⟩).mono
      (fun _ same => same ▸ recorded) fun _ _ post => post
  have grows : ∀ {β : Type} {x : HistoryM β},
      Triple (· = h₀) x (fun _ h => ∃ base, Recorded b0 base h) →
      Triple (· = h₀) (Functor.discard x) fun _ h => ∃ base, Recorded b0 base h := fun spec =>
    spec.discard (fun _ _ post => post) fun _ _ post => post
  have walks : ∀ {x : HistoryM Unit}, Triple (Recorded b0 base) x (fun _ h => Recorded b0 base h) →
      Triple (· = h₀) x fun _ h => ∃ base, Recorded b0 base h := fun spec =>
    spec.mono (fun _ same => same ▸ recorded) fun _ _ post => ⟨base, post⟩
  cases c with
  | add mv => exact grows (recorded.triple_add records)
  | addMove o t p => exact grows ((triple_addMove_recorded o t p).mono (fun _ same => same ▸ recorded)
      fun _ _ post => post)
  | next => exact kept (triple_nextVariation_recorded 0)
  | nextVariation index => exact kept (triple_nextVariation_recorded index)
  | prev => exact kept triple_prev_recorded
  | goTo target => exact walks (triple_goTo_recorded target)
  | rewind => exact walks (triple_goTo_recorded none)
  | fastforward => exact walks triple_fastforward_recorded
  | promote id => exact walks (triple_promote_recorded id)
  | remove id => exact walks (triple_remove_recorded id)
  | truncate => exact walks triple_truncate_recorded

theorem Grown.recorded (coherent : b0.Coherent) (settled : b0.Settled) (grown : Grown b0 h) :
    (∃ base, Recorded b0 base h) ∧ h.startFen = b0.fen := by
  induction grown with
  | new => exact ⟨⟨_, Recorded.new coherent settled⟩, rfl⟩
  | step c j _ records ih =>
    exact ⟨triple_call_recorded c _ j ⟨ih.1, records⟩, triple_call_startFen c _ j ih.2⟩

end History

end Chess
