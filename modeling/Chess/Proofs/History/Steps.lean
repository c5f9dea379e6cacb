import Chess.Proofs.History.Edit

namespace Chess

namespace History

/-! The operations on a history, each taken apart along its `do` block with the rules of
`Triple`. From a history in step with its start board every operation leaves one in step,
whether it succeeds or fails. Entering a node, going back and walking also keep the tree, and
say where they leave the current node: one node down, one node up, at the target. -/

variable {α β : Type} {b0 : Board} {P : History → Prop}

theorem Move.newNoted_run (b : Board) (o t : Square) (p : Option PieceKind) (s : Array Entry) :
    ((Move.newNoted b o t p).run s).1 = Move.new b o t p := by
  unfold Move.newNoted Move.new
  cases Move.prepare b o t p with
  | error e => rfl
  | ok m =>
    simp only [Except.ok_bind]
    rw [Move.rehearseNoted_run]
    cases m.rehearse b <;> rfl

/-! ### Rules for the steps that read the history or add to the journal -/

theorem triple_get_bind {Q : Except MoveError β → History → Prop} {f : History → HistoryM β}
    (rest : ∀ h₀, P h₀ → Triple (· = h₀) (f h₀) Q) : Triple P (get >>= f) Q :=
  Triple.bind (R := fun r h => r = .ok h ∧ P h) (triple_get fun _ start => ⟨rfl, start⟩)
    (fun h₀ h j ⟨read, start⟩ => rest h₀ (Except.ok.inj read ▸ start) h j (Except.ok.inj read).symm)
    (fun _ _ post => nomatch post.1)

theorem triple_journal_bind {Q : Except MoveError β → History → Prop} {act : Noted α} {v : α}
    {f : α → HistoryM β} (value : ∀ j, (act.run j).1 = v) (rest : Triple P (f v) Q) :
    Triple P (journal act >>= f) Q :=
  Triple.bind (R := fun r h => r = .ok v ∧ P h) (triple_journal act fun h start j => ⟨by rw [value], start⟩)
    (fun _ h j ⟨read, start⟩ => Except.ok.inj read ▸ rest h j start) (fun _ _ post => nomatch post.1)

theorem triple_set_announce {Q : Except MoveError PUnit → History → Prop} (s : History) (e : Entry)
    (post : Q (.ok ⟨⟩) s) : Triple P (set s >>= fun _ => journal (Noted.add e)) Q :=
  Triple.bind (R := fun r h => r = .ok ⟨⟩ ∧ h = s) (triple_set s fun _ _ => ⟨rfl, rfl⟩)
    (fun _ => triple_journal _ fun _ start _ => start.2 ▸ post) (fun _ _ post => nomatch post.1)

theorem triple_set_bind {Q : Except MoveError β → History → Prop} (s : History)
    {f : PUnit → HistoryM β} (rest : Triple (· = s) (f ⟨⟩) Q) : Triple P (set s >>= f) Q :=
  Triple.bind (R := fun r h => r = .ok ⟨⟩ ∧ h = s) (triple_set s fun _ _ => ⟨rfl, rfl⟩)
    (fun _ h j start => rest h j start.2) (fun _ _ post => nomatch post.1)

theorem Triple.of_each {Q : Except MoveError β → History → Prop} {act : HistoryM β}
    (each : ∀ h₀, P h₀ → Triple (· = h₀) act Q) : Triple P act Q :=
  fun h j start => each h start h j rfl

theorem triple_forIn_yield {ρ : Type} (I : List ρ → History → Prop)
    {Q : Except MoveError PUnit → History → Prop} (xs : List ρ) (body : ρ → HistoryM PUnit)
    (pass : ∀ x rest, Triple (I (x :: rest)) (body x) fun r h =>
      (r = .ok ⟨⟩ → I rest h) ∧ ∀ e, r = .error e → Q (.error e) h)
    (finish : ∀ h, I [] h → Q (.ok ⟨⟩) h) :
    Triple (I xs) (forIn xs ⟨⟩ fun x _ => do body x; pure (.yield ⟨⟩)) Q :=
  triple_forIn I xs _ (fun x rest => (pass x rest).bind
    (fun _ => triple_pure _ fun _ post => ⟨fun _ => post.1 rfl, nofun, nofun⟩)
    fun e _ post => ⟨nofun, nofun, fun _ same => by cases same; exact post.2 e rfl⟩) finish

theorem triple_throw_bind {Q : Except MoveError β → History → Prop} (e : MoveError)
    {f : α → HistoryM β} (post : ∀ h, P h → Q (.error e) h) : Triple P (throw e >>= f) Q :=
  Triple.bind (R := fun r h => r = .error e ∧ P h) (triple_throw e fun _ start => ⟨rfl, start⟩)
    (fun _ _ _ failed => nomatch failed.1) fun _ h failed => by
      cases failed.1
      exact post h failed.2

theorem triple_announce_bind {Q : Except MoveError β → History → Prop} (e : Entry)
    {f : PUnit → HistoryM β} (rest : Triple P (f ⟨⟩) Q) : Triple P (journal (Noted.add e) >>= f) Q :=
  triple_journal_bind (fun _ => rfl) rest

/-! ### Entering a node -/

theorem triple_stepInto {h₀ : History} (sound : Sound b0 h₀) {id : NodeId} {n : Node}
    (found : h₀.node? id = some n) (child : n.parent = h₀.current) :
    Triple (· = h₀) (stepInto id) fun r h =>
      Sound b0 h ∧ KeepsTree h₀ h ∧ (r = .ok ⟨⟩ → h.currentLine = h₀.currentLine ++ [id]) := by
  unfold stepInto
  refine triple_get_bind fun h start => ?_
  subst start
  rw [found]
  dsimp only
  refine triple_journal_bind (fun j => Move.executeNoted_run n.move h.board j) ?_
  split
  · rename_i m b run
    obtain ⟨sound', line⟩ := sound.stepInto found child run
    exact triple_set_announce _ _ ⟨sound', keepsTree_relocate id m b (some id), fun _ => line⟩
  · exact triple_throw _ fun h' start => by
      subst start
      exact ⟨sound, KeepsTree.refl _, nofun⟩

/-! ### Going back -/

theorem triple_prev {h₀ : History} (sound : Sound b0 h₀) :
    Triple (· = h₀) prev fun _ h =>
      Sound b0 h ∧ KeepsTree h₀ h ∧ h.currentLine = h₀.currentLine.dropLast := by
  unfold prev
  refine triple_get_bind fun h start => ?_
  subst start
  cases current : h.current with
  | none =>
    refine triple_pure _ fun h' start => ?_
    subst start
    refine ⟨sound, KeepsTree.refl _, ?_⟩
    rw [currentLine, current, lineTo_none]
    rfl
  | some id =>
    obtain ⟨n, t, found, undone, sound', line⟩ := sound.prev current
    dsimp only
    rw [found]
    dsimp only
    refine triple_journal_bind (fun j => Move.unexecuteNoted_run n.move h.board j) ?_
    split
    · rename_i m b run
      rw [undone] at run
      cases run
      refine triple_set_bind _ (triple_announce_bind _ (triple_pure _ fun h' start => ?_))
      subst start
      exact ⟨sound', keepsTree_relocate id _ _ n.parent, line⟩
    · rename_i e run
      rw [undone] at run
      cases run

/-! ### Entering a continuation -/

theorem Sound.child_of_mem {h₀ : History} (sound : Sound b0 h₀) {list : Array NodeId}
    (listed : h₀.continuations? h₀.current = some list) {id : NodeId} (member : id ∈ list.toList) :
    ∃ n, h₀.node? id = some n ∧ n.parent = h₀.current :=
  sound.shaped.entries _ list listed id member

theorem triple_stepInto_pure {h₀ : History} (sound : Sound b0 h₀) {id : NodeId}
    (child : ∃ n, h₀.node? id = some n ∧ n.parent = h₀.current) (v : α) :
    Triple (· = h₀) (stepInto id >>= fun _ => pure v) fun _ h => Sound b0 h := by
  obtain ⟨n, found, parent⟩ := child
  exact (triple_stepInto sound found parent).bind (fun _ => triple_pure _ fun _ post => post.1)
    fun _ _ post => post.1

theorem triple_nextVariation (index : Nat) :
    Triple (Sound b0) (nextVariation index) fun _ h => Sound b0 h := by
  unfold nextVariation
  refine triple_get_bind fun h₀ sound => ?_
  split
  · rename_i id found
    obtain ⟨list, listed, entry⟩ := Option.bind_eq_some_iff.mp found
    exact triple_stepInto_pure sound (sound.child_of_mem listed (Array.mem_toList_iff.mpr
      (Array.mem_of_getElem? entry))) _
  · exact triple_pure _ fun h start => start ▸ sound

theorem triple_next : Triple (Sound b0) next fun _ h => Sound b0 h :=
  triple_nextVariation 0

/-! ### Adding a move -/

/-- When the search of `add` finds no continuation of the current node that plays as `mv`,
none does. -/
theorem playsSame_false_of_unfound {h : History} {mv : Move} {p : NodeId → Bool}
    (absent : ∀ id, (h.continuations? h.current).bind (fun list => list.find? p) ≠ some id)
    (plays : ∀ x other, h.get? x = some other → p x = other.playsSame mv) :
    ∀ list, h.continuations? h.current = some list → ∀ x ∈ list.toList, ∀ other, h.get? x = some other →
      other.playsSame mv = false := by
  intro list listed x member other found
  have none := Option.bind_eq_none_iff.mp (Option.eq_none_iff_forall_ne_some.mpr absent) list listed
  have missed := Array.find?_eq_none.mp none x (Array.mem_toList_iff.mp member)
  rw [plays x other found] at missed
  exact Bool.eq_false_iff.mpr missed

theorem triple_add (mv : Move) :
    Triple (fun h => Sound b0 h ∧ (mv.lineage = h.board.lineage → mv.Fits h.board)) (add mv)
      fun _ h => Sound b0 h := by
  unfold add
  refine triple_get_bind fun h₀ ⟨sound, admits⟩ => ?_
  dsimp only
  split
  · rename_i id found
    obtain ⟨list, listed, first⟩ := Option.bind_eq_some_iff.mp found
    exact triple_stepInto_pure sound (sound.child_of_mem listed
      (Array.mem_toList_iff.mpr (Array.mem_of_find?_eq_some first))) _
  · rename_i absent
    refine triple_journal_bind (fun j => Move.executeNoted_run mv h₀.board j) ?_
    split
    · exact triple_journal_bind (fun _ => rfl) (triple_throw _ fun h start => start ▸ sound)
    · rename_i m b run
      have lineage := Move.lineage_of_execute run
      have distinct := playsSame_false_of_unfound absent fun x other found => by rw [found]
      refine triple_announce_bind _ (triple_journal_bind (fun _ => rfl) ?_)
      exact triple_set_bind (h₀.attach m b) (triple_pure _ fun h start =>
        start ▸ sound.attach (admits lineage) run distinct)

theorem triple_addMove (o t : Square) (p : Option PieceKind) :
    Triple (Sound b0) (addMove o t p) fun _ h => Sound b0 h := by
  unfold addMove
  refine triple_get_bind fun h₀ sound => ?_
  refine triple_journal_bind (fun j => Move.newNoted_run h₀.board o t p j) ?_
  split
  · rename_i m made
    refine (triple_add m).mono (fun h start => ?_) fun _ _ post => post
    subst start
    exact ⟨sound, fun _ => (Move.Fits.new sound.coherent made).1⟩
  · exact triple_throw _ fun h start => start ▸ sound

/-! ### Promoting a variation -/

theorem triple_promote (id : NodeId) : Triple (Sound b0) (promote id) fun _ h => Sound b0 h := by
  unfold promote
  refine triple_get_bind fun h₀ sound => ?_
  split
  · rename_i n found
    split
    · rename_i list listed
      split
      · refine triple_set _ fun h start => start ▸ sound.relist fun l listed' => ?_
        obtain ⟨l', listed'', once⟩ := sound.shaped.listed id n found
        rw [listed'] at listed''
        cases listed''
        exact perm_promoted once
      · exact triple_pure _ fun h start => start ▸ sound
    · exact triple_throw _ fun h start => start ▸ sound
  · exact triple_throw _ fun h start => start ▸ sound

/-! ### Walking the tree -/

theorem take_agreeing (xs ys : List NodeId) :
    xs.take ((xs.zip ys).takeWhile fun x => decide (x.1 = x.2)).length =
      ys.take ((xs.zip ys).takeWhile fun x => decide (x.1 = x.2)).length := by
  induction xs generalizing ys with
  | nil => simp
  | cons a xs ih =>
    cases ys with
    | nil => simp
    | cons b ys =>
      by_cases same : a = b
      · subst same
        simp [ih]
      · simp [same]

theorem length_agreeing_le (xs ys : List NodeId) :
    ((xs.zip ys).takeWhile fun x => decide (x.1 = x.2)).length ≤ xs.length :=
  calc _ ≤ (xs.zip ys).length := (List.takeWhile_prefix _).length_le
    _ ≤ xs.length := by simp

theorem dropLast_take_of_le {l : List NodeId} {i : Nat} (bound : i ≤ l.length) :
    (l.take i).dropLast = l.take (i - 1) := by
  rw [List.dropLast_eq_take, List.take_take, List.length_take]
  congr 1
  omega

/-- Going back once a pass keeps a history in step and its tree, and cuts its line by one node
a pass: from a line that is the first `common + k` nodes of the line of `h₀`, the passes over
`k` items leave its first `common`. -/
theorem forIn_range_eq_range' {m : Type → Type} [Monad m] {β : Type} (start stop : Nat) (init : β)
    (f : Nat → β → m (ForInStep β)) :
    forIn [start:stop] init f = forIn (List.range' start (stop - start)) init f := by
  rw [Std.Legacy.Range.forIn_eq_forIn_range']
  dsimp only [Std.Legacy.Range.size]
  rw [Nat.add_sub_cancel, Nat.div_one]

theorem triple_walkBack {h₀ : History} (common : Nat) (xs : List Nat) :
    Triple (fun h => Sound b0 h ∧ KeepsTree h₀ h ∧ common + xs.length ≤ h₀.currentLine.length ∧
        h.currentLine = h₀.currentLine.take (common + xs.length))
      (forIn xs PUnit.unit fun _ _ => do discard prev; pure (ForInStep.yield PUnit.unit) : HistoryM PUnit)
      fun r h => Sound b0 h ∧ KeepsTree h₀ h ∧
        (r = .ok ⟨⟩ → h.currentLine = h₀.currentLine.take common) := by
  refine triple_forIn_yield (fun rest h => Sound b0 h ∧ KeepsTree h₀ h ∧
      common + rest.length ≤ h₀.currentLine.length ∧
      h.currentLine = h₀.currentLine.take (common + rest.length))
    (Q := fun r h => Sound b0 h ∧ KeepsTree h₀ h ∧
      (r = .ok ⟨⟩ → h.currentLine = h₀.currentLine.take common)) xs (fun _ => discard prev)
    (fun _ rest => ?_) fun _ post => ⟨post.1, post.2.1, fun _ => post.2.2.2⟩
  refine Triple.of_each fun h₁ ⟨sound₁, keeps₁, bound, line₁⟩ => ?_
  have bound' : common + rest.length + 1 ≤ h₀.currentLine.length := by
    simpa [← Nat.add_assoc] using bound
  refine (triple_prev sound₁).discard (fun _ h post => ⟨fun _ => ⟨post.1, keeps₁.trans post.2.1,
      by omega, ?_⟩, nofun⟩) fun _ h post => ⟨nofun, fun _ _ => ⟨post.1, keeps₁.trans post.2.1, nofun⟩⟩
  rw [post.2.2, line₁, List.length_cons, ← Nat.add_assoc, dropLast_take_of_le bound',
    Nat.add_sub_cancel]

theorem triple_walkForward {h₀ : History} {target : Option NodeId} {line : List NodeId}
    (path : Ancestry h₀ target line) (ahead : List NodeId) :
    Triple (fun h => Sound b0 h ∧ KeepsTree h₀ h ∧ h.currentLine ++ ahead = line)
      (forIn ahead PUnit.unit fun id _ => do stepInto id; pure (ForInStep.yield PUnit.unit) : HistoryM PUnit)
      fun r h => Sound b0 h ∧ KeepsTree h₀ h ∧ (r = .ok ⟨⟩ → h.current = target) := by
  refine triple_forIn_yield (fun rest h => Sound b0 h ∧ KeepsTree h₀ h ∧ h.currentLine ++ rest = line)
    (Q := fun r h => Sound b0 h ∧ KeepsTree h₀ h ∧ (r = .ok ⟨⟩ → h.current = target)) ahead stepInto (fun x rest => ?_) fun h ⟨sound, keeps, line'⟩ => ⟨sound, keeps, fun _ => ?_⟩
  · refine Triple.of_each fun h₁ ⟨sound₁, keeps₁, line₁⟩ => ?_
    obtain ⟨n, found, up⟩ := Ancestry.of_append (line₁ ▸ path)
    obtain ⟨n', found', parent, -⟩ := keeps₁ x n found
    have child : n'.parent = h₁.current := by
      rw [parent]
      exact (up.keep keeps₁).target_eq sound₁.path
    exact (triple_stepInto sound₁ found' child).mono (fun _ same => same) fun r h' post =>
      ⟨fun ok => ⟨post.1, keeps₁.trans post.2.1, by simp [post.2.2 ok, ← line₁]⟩,
        fun _ _ => ⟨post.1, keeps₁.trans post.2.1, nofun⟩⟩
  · rw [List.append_nil] at line'
    exact sound.path.target_eq (line' ▸ path.keep keeps)

/-- Walking to a node of the tree, or to the start, keeps the history in step and its tree;
when the walk succeeds the target is current. The walk goes back to the deepest node the two
lines share, then forward along the target's line. -/
theorem triple_walkTo {h₀ : History} (sound : Sound b0 h₀) {target : Option NodeId}
    {line : List NodeId} (path : Ancestry h₀ target line) :
    Triple (· = h₀) (walkTo target) fun r h =>
      Sound b0 h ∧ KeepsTree h₀ h ∧ (r = .ok ⟨⟩ → h.current = target) := by
  unfold walkTo
  refine triple_get_bind fun h start => ?_
  subst start
  rw [sound.shaped.lineTo_eq path]
  refine triple_journal_bind (fun _ => rfl) ?_
  have agree := take_agreeing h.currentLine line
  have within := length_agreeing_le h.currentLine line
  generalize ((h.currentLine.zip line).takeWhile fun x => decide (x.1 = x.2)).length = common
    at agree within ⊢
  rw [forIn_range_eq_range']
  have lengths : common + (List.range' common (h.currentLine.length - common)).length =
      h.currentLine.length := by
    simp only [List.length_range']
    omega
  refine Triple.bind ((triple_walkBack common _).mono (fun _ same => ?_) fun _ _ post => post)
    (fun _ => Triple.bind ((triple_walkForward path _).mono (fun h' post => ?_) fun _ _ post => post)
      (fun _ => triple_pure _ fun _ post => post) fun _ _ post => post)
    fun _ _ post => ⟨post.1, post.2.1, nofun⟩
  · subst same
    rw [lengths, List.take_of_length_le le_rfl]
    exact ⟨sound, KeepsTree.refl _, le_rfl, rfl⟩
  · obtain ⟨sound', keeps', line'⟩ := post
    exact ⟨sound', keeps', by rw [line' rfl, agree, List.take_append_drop]⟩

/-- Going to a node of the tree, or to the start, keeps the history in step and its tree, and
makes the target current when it succeeds; a node that is not in the tree is refused and
nothing changes. -/
theorem triple_goTo {h₀ : History} (sound : Sound b0 h₀) (target : Option NodeId) :
    Triple (· = h₀) (goTo target) fun r h =>
      Sound b0 h ∧ KeepsTree h₀ h ∧ (r = .ok ⟨⟩ → h.current = target) := by
  have walk : ∀ line, Ancestry h₀ target line → Triple (· = h₀)
      (journal (Noted.add (.event .traversalBegin)) >>= fun _ =>
        tryFinally (walkTo target) (journal (Noted.add (.event .traversalEnd))))
      fun r h => Sound b0 h ∧ KeepsTree h₀ h ∧ (r = .ok ⟨⟩ → h.current = target) :=
    fun _ path => triple_announce_bind _ (triple_tryFinally (triple_walkTo sound path) _)
  unfold goTo
  cases target with
  | none => exact walk [] .start
  | some id =>
    refine triple_get_bind fun h start => ?_
    subst start
    split
    · refine triple_throw_bind _ fun h start => ?_
      subst start
      exact ⟨sound, KeepsTree.refl _, nofun⟩
    · rename_i present
      obtain ⟨n, found⟩ := Option.ne_none_iff_exists'.mp (by simpa [contains] using present)
      obtain ⟨line, path⟩ := sound.shaped.ancestry found
      exact walk line path

theorem triple_rewind : Triple (Sound b0) rewind fun _ h => Sound b0 h :=
  Triple.of_each fun _ sound => (triple_goTo sound none).mono (fun _ same => same) fun _ _ post => post.1

theorem triple_fastforward : Triple (Sound b0) fastforward fun _ h => Sound b0 h := by
  unfold fastforward
  refine triple_announce_bind _ (triple_tryFinally (triple_get_bind fun h₀ sound => ?_) _)
  refine Triple.bind (R := fun _ h => Sound b0 h)
    ((triple_forIn (fun _ h => Sound b0 h) _ _ (fun _ _ => ?_) fun _ post => post).mono
      (fun _ same => same ▸ sound) fun _ _ post => post)
    (fun _ => triple_pure _ fun _ post => post) fun _ _ post => post
  refine triple_next.bind (fun r => ?_) fun _ _ post => ⟨nofun, nofun, fun _ _ => post⟩
  split
  · exact triple_pure _ fun _ post => ⟨nofun, fun _ => post, nofun⟩
  · exact triple_pure _ fun _ post => ⟨fun _ => post, nofun, nofun⟩

/-! ### Removing nodes -/

theorem triple_remove (id : NodeId) : Triple (Sound b0) (remove id) fun _ h => Sound b0 h := by
  unfold remove
  refine triple_get_bind fun h₀ sound => ?_
  split
  · rename_i n found
    have edit : Triple (fun h => Sound b0 h ∧ KeepsTree h₀ h ∧ id ∉ h.currentLine)
        (get >>= fun h => set ((h.modifyContinuations n.parent fun l => l.filter (· ≠ id)).dropSubtree id))
        fun _ h => Sound b0 h := by
      refine triple_get_bind fun h₁ ⟨sound₁, keeps, off⟩ => ?_
      obtain ⟨n', found', parent, -⟩ := keeps id n found
      refine triple_set _ fun _ start => ?_
      subst start
      rw [← parent]
      exact sound₁.remove found' off
    split
    · refine (triple_goTo sound n.parent).bind (fun _ => edit.mono (fun h post => ?_) fun _ _ post => post)
        fun _ _ post => post.1
      obtain ⟨sound', keeps', reached⟩ := post
      obtain ⟨n', found', parent, -⟩ := keeps' id n found
      refine ⟨sound', keeps', sound'.shaped.not_mem_of_parent found' ?_⟩
      rw [parent, ← reached rfl]
      exact sound'.path
    · rename_i on
      refine edit.mono (fun h start => ?_) fun _ _ post => post
      subst start
      exact ⟨sound, KeepsTree.refl _, by simpa using on⟩
  · exact triple_throw _ fun h start => start ▸ sound

theorem triple_truncate : Triple (Sound b0) truncate fun _ h => Sound b0 h := by
  unfold truncate
  refine triple_get_bind fun h₀ sound => ?_
  split
  · rename_i lines listed
    exact triple_set _ fun _ start => start ▸ sound.truncate listed
  · exact triple_pure _ fun _ start => start ▸ sound

end History

end Chess
