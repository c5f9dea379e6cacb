import Chess.Proofs.History.Replay

namespace Chess

namespace History

/-! What navigation shows on the board. On a history reachable from a coherent, settled board,
going to a node of the tree, or to the start, succeeds and fires `TraversalBegin`, a take-back
for each node of the current line below the deepest node it shares with the line to the
target, a move for each node of the target's line below it, and `TraversalEnd`; it keeps the
tree. Following the main line fires a move for each main-line continuation down to a node with
none, between the same two announcements, and the loop's bound always lets it get there. A
successful addition fires one move, and reading or making a move fires nothing. -/

variable {b0 : Board} {h h' h'' : History}

/-! ### Entering a node -/

theorem fires_stepInto_ok (id : NodeId) :
    Fires (stepInto id) h fun r _ e => r = .ok ⟨⟩ → e = [.moved] := by
  unfold stepInto
  refine fires_get_bind ?_
  split
  · rename_i n found
    refine fires_journal_bind (Move.records_executeNoted n.move h.board)
      (fun j => Move.executeNoted_run n.move h.board j) ?_
    split
    · exact fires_set_bind _ (fires_announce _ fun _ => rfl)
    · exact fires_throw _ nofun
  · exact fires_throw _ nofun

/-! ### Walking between two nodes -/

theorem take_sharedLength (xs ys : List NodeId) :
    xs.take (sharedLength xs ys) = ys.take (sharedLength xs ys) :=
  take_agreeing xs ys

theorem le_sharedLength {xs ys : List NodeId} {k : Nat} (same : xs.take k = ys.take k)
    (left : k ≤ xs.length) (right : k ≤ ys.length) : k ≤ sharedLength xs ys := by
  induction xs generalizing ys k with
  | nil => simp_all
  | cons a xs ih =>
    cases ys with
    | nil => simp_all
    | cons b ys =>
      cases k with
      | zero => exact Nat.zero_le _
      | succ k =>
        simp only [List.take_succ_cons, List.cons.injEq] at same
        obtain ⟨rfl, same⟩ := same
        have step : sharedLength (a :: xs) (a :: ys) = sharedLength xs ys + 1 := by
          simp [sharedLength, List.zip_cons_cons]
        rw [step]
        exact Nat.succ_le_succ (ih same (by simpa using left) (by simpa using right))

theorem mem_take_sharedLength {o o' : Option NodeId} {line line' : List NodeId}
    (path : Ancestry h o line) (path' : Ancestry h o' line') {x : NodeId} (mem : x ∈ line)
    (mem' : x ∈ line') : x ∈ line.take (sharedLength line line') := by
  obtain ⟨pre, up, leading⟩ := path.of_mem mem
  obtain ⟨pre', up', leading'⟩ := path'.of_mem mem'
  cases up.unique up'
  have onPath : x ∈ pre := by
    cases up with
    | node found up => simp
  have short := leading.length_le
  have short' := leading'.length_le
  rw [List.prefix_iff_eq_take] at leading leading'
  have within := le_sharedLength (leading.symm.trans leading') short short'
  rw [leading] at onPath
  exact (List.take_prefix_take_left within).subset onPath

theorem Sound.ancestry_lineTo (sound : Sound b0 h) {target : Option NodeId}
    (present : ∀ id, target = some id → h.contains id = true) : Ancestry h target (h.lineTo target) := by
  cases target with
  | none => exact lineTo_none h ▸ .start
  | some id =>
    obtain ⟨n, found⟩ := Option.isSome_iff_exists.mp (present id rfl)
    obtain ⟨line, path⟩ := sound.shaped.ancestry found
    rw [sound.shaped.lineTo_eq path]
    exact path

/-! ### Following the main line -/

def mainContinuation (h : History) (o : Option NodeId) : Option NodeId :=
  (h.continuations? o).bind (·[0]?)

/-- `run` is the main line from `o` on: the first continuation of each node in turn, down to a
node with none. -/
inductive MainRun (h : History) : Option NodeId → List NodeId → Prop
  | stop {o : Option NodeId} (last : h.mainContinuation o = none) : MainRun h o []
  | next {o : Option NodeId} {id : NodeId} {run : List NodeId} (first : h.mainContinuation o = some id)
      (rest : MainRun h (some id) run) : MainRun h o (id :: run)

theorem SameTree.mainContinuation (same : SameTree h h') (o : Option NodeId) :
    h'.mainContinuation o = h.mainContinuation o := by
  rw [History.mainContinuation, History.mainContinuation, same.lists]

theorem MainRun.transfer {o : Option NodeId} {run : List NodeId} (main : MainRun h o run)
    (same : SameTree h h') : MainRun h' o run := by
  induction main with
  | stop last => exact .stop (by rw [same.mainContinuation, last])
  | next first _ ih => exact .next (by rw [same.mainContinuation, first]) ih

theorem Shaped.child_of_mainContinuation (shaped : h.Shaped) {o : Option NodeId} {id : NodeId}
    (first : h.mainContinuation o = some id) : ∃ n, h.node? id = some n ∧ n.parent = o := by
  obtain ⟨list, listed, entry⟩ := Option.bind_eq_some_iff.mp first
  exact shaped.entries o list listed id (Array.mem_toList_iff.mpr (Array.mem_of_getElem? entry))

theorem Shaped.mainRun (shaped : h.Shaped) :
    ∀ (fuel : Nat) (o : Option NodeId), (∀ c, o = some c → h.contains c = true) →
      h.nodes.size ≤ fuel + (o.map (·.index + 1)).getD 0 → ∃ run, MainRun h o run ∧ run.length ≤ fuel := by
  intro fuel
  induction fuel with
  | zero =>
    intro o _ bound
    refine ⟨[], .stop ?_, le_rfl⟩
    cases first : h.mainContinuation o with
    | none => rfl
    | some id =>
      obtain ⟨n, found, parent⟩ := shaped.child_of_mainContinuation first
      have inside := index_lt_of_node? found
      cases o with
      | none =>
        change h.nodes.size ≤ 0 + 0 at bound
        omega
      | some c =>
        have later := (shaped.parent id n found c parent).2
        change h.nodes.size ≤ 0 + (c.index + 1) at bound
        omega
  | succ fuel ih =>
    intro o _ bound
    cases first : h.mainContinuation o with
    | none => exact ⟨[], .stop first, Nat.zero_le _⟩
    | some id =>
      obtain ⟨n, found, parent⟩ := shaped.child_of_mainContinuation first
      have live : h.contains id = true := by simp [contains, found]
      have below : h.nodes.size ≤ fuel + (id.index + 1) := by
        cases o with
        | none =>
          change h.nodes.size ≤ fuel + 1 + 0 at bound
          omega
        | some c =>
          have later := (shaped.parent id n found c parent).2
          change h.nodes.size ≤ fuel + 1 + (c.index + 1) at bound
          omega
      obtain ⟨run, main, short⟩ := ih (some id) (fun c same => by cases same; exact live) (by simpa using below)
      exact ⟨id :: run, .next first main, by simpa using short⟩

theorem fires_nextVariation_none {i : Nat} (ends : (h.continuations? h.current).bind (·[i]?) = none) :
    Fires (nextVariation i) h fun r h' e => r = .ok none ∧ e = [] ∧ h' = h := by
  unfold nextVariation
  refine fires_get_bind ?_
  rw [ends]
  exact fires_pure _ ⟨rfl, rfl, rfl⟩

theorem fires_nextVariation_some (anchored : Anchored b0 h) {i : Nat} {id : NodeId}
    (entry : (h.continuations? h.current).bind (·[i]?) = some id) :
    Fires (nextVariation i) h fun r h' e => r = .ok (some id) ∧ e = [.moved] ∧ Anchored b0 h' ∧
      SameTree h h' ∧ h'.currentLine = h.currentLine ++ [id] := by
  obtain ⟨list, listed, at_⟩ := Option.bind_eq_some_iff.mp entry
  obtain ⟨n, found, parent⟩ := anchored.1.child_of_mem listed
    (Array.mem_toList_iff.mpr (Array.mem_of_getElem? at_))
  unfold nextVariation
  refine fires_get_bind ?_
  rw [entry]
  exact (fires_stepInto anchored found parent).bind
    (fun _ h' e post => fires_pure _ ⟨rfl, by rw [post.2.1, List.append_nil], post.2.2⟩)
    fun _ _ _ post => absurd post.1 (by simp)

theorem fires_fastforward (anchored : Anchored b0 h) :
    ∃ run, MainRun h h.current run ∧ Fires fastforward h fun r h' e => r = .ok ⟨⟩ ∧
      e = .traversalBegin :: List.replicate run.length .moved ++ [.traversalEnd] ∧
      Anchored b0 h' ∧ SameTree h h' ∧ h'.currentLine = h.currentLine ++ run := by
  have sound := anchored.1
  obtain ⟨run, main, short⟩ := sound.shaped.mainRun h.nodes.size h.current sound.current (by omega)
  refine ⟨run, main, ?_⟩
  let I := fun (rest : List NodeId) (h' : History) => Anchored b0 h' ∧ SameTree h h' ∧
    MainRun h' h'.current rest ∧ h'.currentLine ++ rest = h.currentLine ++ run
  have loop := fires_forIn_until I .moved
    (fun _ _ => do if (← next).isNone = true then pure (ForInStep.done PUnit.unit) else pure (ForInStep.yield PUnit.unit))
    (fun _ h₁ inv => ?_) (fun _ t work h₁ inv => ?_) (List.range (h.nodes.size + 1)) run h
    ⟨anchored, SameTree.refl h, main, rfl⟩ (by simpa [Nat.lt_succ_iff] using short)
  · unfold fastforward
    refine fires_announce_bind _ (Fires.tryFinally _ (fires_get_bind ?_))
    refine loop.bind (fun _ h' e post => fires_pure _ ?_) fun _ _ _ post => absurd post.1 (by simp)
    obtain ⟨-, fired, anchored', same', -, line'⟩ := post
    refine ⟨rfl, by rw [fired, List.append_nil, List.cons_append], anchored', same', ?_⟩
    simpa using line'
  · obtain ⟨anchored₁, same₁, main₁, line₁⟩ := inv
    have ends : h₁.mainContinuation h₁.current = none := by
      cases main₁ with
      | stop last => exact last
    exact (fires_nextVariation_none ends).bind
      (fun _ h' e post => by
        obtain ⟨ok, fired, rfl⟩ := post
        cases Except.ok.inj ok
        exact fires_pure _ ⟨rfl, by rw [fired]; rfl, anchored₁, same₁, main₁, line₁⟩)
      fun _ _ _ post => absurd post.1 (by simp)
  · obtain ⟨anchored₁, same₁, main₁, line₁⟩ := inv
    cases main₁ with
    | next first rest =>
      refine (fires_nextVariation_some anchored₁ first).bind (fun _ h' e post => ?_)
        fun _ _ _ post => absurd post.1 (by simp)
      obtain ⟨ok, fired, anchored', same', line'⟩ := post
      cases Except.ok.inj ok
      have current' : h'.current = some t := by
        rw [← anchored'.1.path.getLast?_eq, line', List.getLast?_append_of_ne_nil _ (by simp)]
        rfl
      refine fires_pure _ ⟨rfl, by rw [fired, List.append_nil], anchored', same₁.trans same',
        current' ▸ rest.transfer same', ?_⟩
      rw [line', List.append_assoc, ← line₁]
      rfl

/-! ### Adding a move -/

theorem fires_add_ok (mv : Move) :
    Fires (add mv) h fun r _ e => ∀ id, r = .ok id → e = [.moved] := by
  unfold add
  refine fires_get_bind ?_
  dsimp only
  split
  · rename_i id found
    exact (fires_stepInto_ok id).bind
      (fun _ _ e post => fires_pure _ fun _ _ => by rw [post rfl, List.append_nil])
      fun _ _ _ _ _ => nofun
  · refine fires_journal_bind (Move.records_executeNoted mv h.board)
      (fun j => Move.executeNoted_run mv h.board j) ?_
    split
    · exact fires_journal_bind (Noted.records_log _ _) (fun _ => rfl) (fires_throw _ fun _ => nofun)
    · exact fires_announce_bind _ (fires_journal_bind (Noted.records_log _ _) (fun _ => rfl)
        (fires_set_bind _ (fires_pure _ fun _ _ => rfl)))

/-! ### The events of navigation -/

theorem navigation_fires_its_path (coherent : b0.Coherent) (settled : b0.Settled)
    (reached : Reachable b0 h) :
    (∀ target : Option NodeId, (∀ id, target = some id → h.contains id = true) →
      ∃ shared back ahead, h.currentLine = shared ++ back ∧ h.lineTo target = shared ++ ahead ∧
        (∀ x ∈ h.currentLine, x ∈ h.lineTo target → x ∈ shared) ∧
        Fires (goTo target) h fun r h' e => r = .ok ⟨⟩ ∧ h'.current = target ∧
          e = [.traversalBegin] ++ List.replicate back.length .unmoved ++
            List.replicate ahead.length .moved ++ [.traversalEnd]) ∧
    (∃ run, MainRun h h.current run ∧ Fires fastforward h fun r h' e => r = .ok ⟨⟩ ∧
      h'.currentLine = h.currentLine ++ run ∧
      e = [.traversalBegin] ++ List.replicate run.length .moved ++ [.traversalEnd]) ∧
    (∀ mv, Fires (add mv) h fun r _ e => ∀ id, r = .ok id → e = [.moved]) ∧
    (∀ b origin target promotion, (Move.newNoted b origin target promotion).Records) ∧
    (∀ b side, (Move.castleOnNoted b side).Records) ∧
    (∀ b text, (San.parseNoted b text).Records) ∧ (∀ b text, (Uci.parseNoted b text).Records) := by
  have anchored := reached.anchored coherent settled
  refine ⟨fun target present => ?_, ?_, fun mv => fires_add_ok mv, Move.records_newNoted,
    Move.records_castleOnNoted, San.records_parseNoted, Uci.records_parseNoted⟩
  · have common := take_sharedLength h.currentLine (h.lineTo target)
    refine ⟨h.currentLine.take (sharedLength h.currentLine (h.lineTo target)),
      h.currentLine.drop (sharedLength h.currentLine (h.lineTo target)),
      (h.lineTo target).drop (sharedLength h.currentLine (h.lineTo target)),
      (List.take_append_drop _ _).symm, by rw [common, List.take_append_drop],
      fun x mem mem' => mem_take_sharedLength anchored.1.path (anchored.1.ancestry_lineTo present) mem mem',
      (fires_goTo anchored present).mono fun r h' e post => ⟨post.1, post.2.2.2.2, ?_⟩⟩
    rw [post.2.1, List.length_drop, List.length_drop]
    rfl
  · obtain ⟨run, main, fires⟩ := fires_fastforward anchored
    exact ⟨run, main, fires.mono fun r h' e post => ⟨post.1, post.2.2.2.2, by rw [post.2.1]; rfl⟩⟩

/-- After 1. e4 e5, taken back for 1... c5, going to e5 takes back c5 to the shared e4 and plays
e5: one move back, one forward. -/
theorem navigation_fires_its_path_sibling :
    ∃ h, Reachable Board.standard h ∧ h.currentLine = [⟨0⟩, ⟨2⟩] ∧ h.lineTo (some ⟨1⟩) = [⟨0⟩, ⟨1⟩] ∧
      Fires (goTo (some ⟨1⟩)) h fun r h' e => r = .ok ⟨⟩ ∧ h'.current = some ⟨1⟩ ∧
        e = [.traversalBegin, .unmoved, .moved, .traversalEnd] := by
  have reached : Reachable Board.standard _ :=
    .step (.addMove (Square.ofNat 50) (Square.ofNat 34) none) #[]
      (.step .prev #[] (.step (.addMove (Square.ofNat 52) (Square.ofNat 36) none) #[]
        (.step (.addMove (Square.ofNat 12) (Square.ofNat 28) none) #[] .new trivial) trivial) trivial)
      trivial
  suffices sibling : ∀ h, Reachable Board.standard h →
      (decide (h.currentLine = [⟨0⟩, ⟨2⟩]) && decide (h.lineTo (some ⟨1⟩) = [⟨0⟩, ⟨1⟩]) &&
        h.contains ⟨1⟩) = true →
      h.currentLine = [⟨0⟩, ⟨2⟩] ∧ h.lineTo (some ⟨1⟩) = [⟨0⟩, ⟨1⟩] ∧
      Fires (goTo (some ⟨1⟩)) h fun r h' e => r = .ok ⟨⟩ ∧ h'.current = some ⟨1⟩ ∧
        e = [.traversalBegin, .unmoved, .moved, .traversalEnd] from
    ⟨_, reached, sibling _ reached (by decide +kernel)⟩
  intro h reached check
  simp only [Bool.and_eq_true, decide_eq_true_eq] at check
  obtain ⟨⟨current, target⟩, present⟩ := check
  refine ⟨current, target, ?_⟩
  obtain ⟨shared, back, ahead, behind, forward, common, fires⟩ :=
    (navigation_fires_its_path Board.WellFormed.standard.toCoherent Board.Settled.standard reached).1
      (some ⟨1⟩) (by rintro _ ⟨⟩; exact present)
  have root : (⟨0⟩ : NodeId) ∈ shared := common _ (by simp [current]) (by simp [target])
  rw [current] at behind
  rw [target] at forward
  rcases shared with _ | ⟨x, _ | ⟨y, rest⟩⟩
  · simp at root
  · obtain ⟨rfl, rfl⟩ := List.cons_eq_cons.mp behind
    obtain ⟨-, rfl⟩ := List.cons_eq_cons.mp forward
    exact fires.mono fun r h' e post => ⟨post.1, post.2.1, by simp [post.2.2]⟩
  · obtain ⟨rfl, -⟩ := List.cons_eq_cons.mp (List.cons_eq_cons.mp behind).2
    simp at forward

end History

end Chess
