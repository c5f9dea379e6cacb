import Chess.Proofs.History.Traversal

namespace Chess

namespace History

/-! Reshaping a history changes exactly what it names. On a history reachable from a coherent,
settled board, promoting a node brings it to the front of its parent's list, keeping the order
of the others, and changes nothing else. Removing a node drops exactly it and the nodes below
it, and takes it out of its parent's list; when the current node was among them, the history
first goes to the node's parent, with the board where that line leads, and otherwise the
current node and the board stay. Truncating drops exactly the nodes below the current one and
empties its list. -/

variable {b0 : Board} {h h' h₁ : History}

/-! ### Lists and lines -/

theorem child_iff_listed {a b : NodeId} :
    h.Child a b ↔ ∃ l, h.continuations? (some a) = some l ∧ b ∈ l.toList := by
  simp [Child, continuations?]

theorem SameTree.below_iff (same : SameTree h h') {a b : NodeId} : h'.Below a b ↔ h.Below a b := by
  have child : ∀ x y, h'.Child x y ↔ h.Child x y := fun x y => by
    rw [child_iff_listed, child_iff_listed, same.lists]
  unfold Below
  constructor
  · exact Relation.ReflTransGen.mono (fun x y => (child x y).mp) _ _
  · exact Relation.ReflTransGen.mono (fun x y => (child x y).mpr) _ _

theorem Shaped.below_of_mem (shaped : h.Shaped) {c : NodeId} {line : List NodeId}
    (path : Ancestry h (some c) line) {x : NodeId} (member : x ∈ line) : h.Below x c := by
  generalize reached : some c = target at path
  induction path generalizing c with
  | start => cases reached
  | @node id n line found up ih =>
    cases reached
    rcases List.mem_append.mp member with inner | last
    · cases parent : n.parent with
      | none =>
        rw [parent] at up
        cases up
        cases inner
      | some p => exact shaped.below_of_parent found parent (ih inner parent.symm)
    · rw [List.mem_singleton.mp last]
      exact .refl

theorem Sound.mem_currentLine_iff (sound : Sound b0 h) {id : NodeId} :
    id ∈ h.currentLine ↔ ∃ c, h.current = some c ∧ h.Below id c := by
  have path := sound.path
  cases current : h.current with
  | none =>
    rw [currentLine, current, lineTo_none]
    simp
  | some c =>
    rw [current] at path
    refine ⟨fun member => ⟨c, rfl, sound.shaped.below_of_mem path member⟩, fun found => ?_⟩
    obtain ⟨c', same, below⟩ := found
    cases same
    exact sound.shaped.mem_of_below below path

@[simp] theorem parent?_modifyContinuations (o : Option NodeId) (f : Array NodeId → Array NodeId)
    (x : NodeId) : (h.modifyContinuations o f).parent? x = h.parent? x := by
  cases o with
  | none => rfl
  | some p =>
    simp only [parent?, node?_modifyContinuations_some]
    split <;> simp [Option.bind_map]

/-! ### Promoting -/

/-- `h'` is `h` with the list after `o` replaced and nothing else changed: the other lists,
every node's move and parent, the current node and the board stay. -/
structure Relisted (h h' : History) (o : Option NodeId) : Prop where
  lists : ∀ o', o' ≠ o → h'.continuations? o' = h.continuations? o'
  moves : ∀ x, h'.get? x = h.get? x
  parents : ∀ x, h'.parent? x = h.parent? x
  current : h'.current = h.current
  board : h'.board = h.board

theorem relisted_modifyContinuations (o : Option NodeId) (f : Array NodeId → Array NodeId) :
    Relisted h (h.modifyContinuations o f) o :=
  ⟨fun o' other => by rw [continuations?_modifyContinuations, if_neg other],
    get?_modifyContinuations o f, parent?_modifyContinuations o f, current_modifyContinuations o f,
    board_modifyContinuations o f⟩

theorem Shaped.listed_split (shaped : h.Shaped) {id : NodeId} {n : Node} (found : h.node? id = some n) :
    ∃ pre post, h.continuations? n.parent = some (pre ++ id :: post).toArray ∧ id ∉ pre ∧ id ∉ post := by
  obtain ⟨l, listed, once⟩ := shaped.listed id n found
  obtain ⟨pre, post, split⟩ := List.append_of_mem (List.count_pos_iff.mp (by omega : 0 < l.toList.count id))
  rw [split, List.count_append, List.count_cons_self] at once
  refine ⟨pre, post, by rw [listed, ← split], fun member => ?_, fun member => ?_⟩
  · have := List.count_pos_iff.mpr member
    omega
  · have := List.count_pos_iff.mpr member
    omega

theorem filter_ne_of_not_mem {id : NodeId} {xs : List NodeId} (absent : id ∉ xs) :
    xs.filter (fun x => !decide (x = id)) = xs :=
  List.filter_eq_self.mpr fun x member => by
    simpa using fun same : x = id => absent (same ▸ member)

theorem fires_promote (sound : Sound b0 h) {id : NodeId} {n : Node} (found : h.node? id = some n) :
    ∃ pre post, h.continuations? n.parent = some (pre ++ id :: post).toArray ∧
      Fires (promote id) h fun r h' e => r = .ok ⟨⟩ ∧ e = [] ∧ Relisted h h' n.parent ∧
        h'.continuations? n.parent = some (id :: (pre ++ post)).toArray := by
  obtain ⟨pre, post, listed, notPre, notPost⟩ := sound.shaped.listed_split found
  refine ⟨pre, post, listed, ?_⟩
  unfold promote
  refine fires_get_bind ?_
  rw [found]
  dsimp only
  rw [listed]
  dsimp only
  rw [if_pos (by simp)]
  refine fires_set _ ⟨rfl, rfl, relisted_modifyContinuations _ _, ?_⟩
  rw [continuations?_modifyContinuations, if_pos rfl, listed]
  simp [filter_ne_of_not_mem notPre, filter_ne_of_not_mem notPost]

/-! ### Cutting subtrees -/

/-- `h'` is `h` with the nodes `gone` holds of dropped: exactly those go, and the lists after
the start and after every node that stays are kept, but that of `o`. -/
structure Pruned (h h' : History) (o : Option NodeId) (gone : NodeId → Prop) : Prop where
  contains : ∀ x, h'.contains x = true ↔ h.contains x = true ∧ ¬gone x
  lists : ∀ o', o' ≠ o → (∀ x, o' = some x → ¬gone x) → h'.continuations? o' = h.continuations? o'

theorem Pruned.congr {o : Option NodeId} {gone gone' : NodeId → Prop} (pruned : Pruned h h' o gone)
    (same : ∀ x, gone x ↔ gone' x) : Pruned h h' o gone' :=
  ⟨fun x => by rw [pruned.contains, same], fun o' other kept =>
    pruned.lists o' other fun x owner => (same x).not.mpr (kept x owner)⟩

theorem SameTree.pruned (same : SameTree h h₁) {o : Option NodeId} {gone : NodeId → Prop}
    (pruned : Pruned h₁ h' o gone) : Pruned h h' o gone :=
  ⟨fun x => by rw [pruned.contains, same.contains], fun o' other kept => by
    rw [pruned.lists o' other kept, same.lists]⟩

namespace Cut

variable {o : Option NodeId} {l : Array NodeId} {f : Array NodeId → Array NodeId}
  {pending : List NodeId} (cut : Cut h o l f pending)
include cut

theorem pruned : Pruned h (dropSubtree.go pending (h.modifyContinuations o f)) o
    fun x => ∃ p ∈ pending, h.Below p x := by
  refine ⟨fun x => ?_, fun o' other kept => ?_⟩
  · by_cases gone : ∃ p ∈ pending, h.Below p x
    · simp [History.contains, cut.node?_of_gone gone, gone]
    · have kept : (dropSubtree.go pending (h.modifyContinuations o f)).contains x =
          (h.modifyContinuations o f).contains x := by
        simp only [History.contains, cut.node?_of_kept gone]
      rw [kept, contains_modifyContinuations]
      simp [gone]
  · rw [cut.continuations?_of_kept kept, continuations?_modifyContinuations, if_neg other]

theorem continuations?_owner :
    (dropSubtree.go pending (h.modifyContinuations o f)).continuations? o = some (f l) := by
  have kept : ∀ q, o = some q → ¬∃ p ∈ pending, h.Below p q := fun q owner gone => by
    obtain ⟨p, member, below⟩ := gone
    exact cut.owner p member q owner below
  rw [cut.continuations?_of_kept kept, continuations?_modifyContinuations, if_pos rfl, cut.listed]
  rfl

theorem currentLine_eq (sound : Sound b0 h) (line : ∀ p ∈ pending, ∀ x ∈ h.currentLine, ¬h.Below p x) :
    (dropSubtree.go pending (h.modifyContinuations o f)).currentLine = h.currentLine := by
  have sound' := sound.cut cut line
  have path : Ancestry (dropSubtree.go pending (h.modifyContinuations o f)) h.current h.currentLine :=
    sound.path.transfer fun x member n found => by
      have kept : ¬∃ p ∈ pending, h.Below p x := fun gone => by
        obtain ⟨p, inPending, below⟩ := gone
        exact line p inPending x member below
      rw [cut.node?_of_kept kept]
      obtain ⟨n', found', -, parent⟩ := node?_modifyContinuations_of_eq_some o f found
      exact ⟨n', found', parent⟩
  rw [History.currentLine, current_dropSubtree_go, current_modifyContinuations]
  exact sound'.shaped.lineTo_eq path

end Cut

/-! ### Truncating and removing -/

def StrictlyBelow (h : History) (o : Option NodeId) (x : NodeId) : Prop :=
  ∃ l, h.continuations? o = some l ∧ ∃ p ∈ l.toList, h.Below p x

theorem fires_truncate (sound : Sound b0 h) :
    Fires truncate h fun r h' e => r = .ok ⟨⟩ ∧ e = [] ∧ Pruned h h' h.current (h.StrictlyBelow h.current) ∧
      h'.continuations? h.current = some #[] ∧ h'.current = h.current ∧ h'.board = h.board := by
  obtain ⟨lines, listed⟩ := continuations?_current sound.current
  have cut := sound.shaped.cut_empty listed
  unfold truncate
  refine fires_get_bind ?_
  rw [listed]
  dsimp only
  rw [← Array.foldl_toList, foldl_dropSubtree]
  refine fires_set _ ⟨rfl, rfl, cut.pruned.congr fun x => ?_, cut.continuations?_owner, by simp, by simp⟩
  simp [StrictlyBelow, listed]

theorem fires_cutOff {h₁ : History} (anchored₁ : Anchored b0 h₁) (same : SameTree h h₁) {id : NodeId}
    {n : Node} (found : h.node? id = some n) (off : id ∉ h₁.currentLine) :
    Fires (get >>= fun h₁ => set ((h₁.modifyContinuations n.parent fun l => l.filter (· ≠ id)).dropSubtree id)
        : HistoryM PUnit) h₁ fun r h' _ => r = .ok ⟨⟩ ∧ Anchored b0 h' ∧ Pruned h h' n.parent (h.Below id) ∧
      h'.continuations? n.parent = (h.continuations? n.parent).map (·.filter (· ≠ id)) ∧
      h'.current = h₁.current ∧ h'.currentLine = h₁.currentLine ∧ h'.board = h₁.board := by
  obtain ⟨sound₁, base, anchors₁⟩ := anchored₁
  obtain ⟨n₁, found₁, parent₁, -⟩ := same.keepsTree id n found
  obtain ⟨l, cut⟩ := sound₁.shaped.cut_remove found₁
  rw [parent₁] at cut
  refine fires_get_bind (fires_set _ ⟨rfl, ?_, ?_, ?_, by simp [dropSubtree], ?_, by simp [dropSubtree]⟩)
  · rw [← parent₁]
    exact ⟨sound₁.remove found₁ off, base, (anchors₁.modifyContinuations _ _).dropSubtree_go [id]⟩
  · exact same.pruned (cut.pruned.congr fun x => by simp [same.below_iff])
  · rw [dropSubtree, cut.continuations?_owner, ← same.lists, cut.listed]
    rfl
  · rw [dropSubtree]
    exact cut.currentLine_eq sound₁ fun p member x onLine below => off (by
      rw [List.mem_singleton.mp member] at below
      obtain ⟨pre, path, leading⟩ := sound₁.path.of_mem onLine
      exact leading.subset (sound₁.shaped.mem_of_below below path))

theorem fires_remove (anchored : Anchored b0 h) {id : NodeId} {n : Node} (found : h.node? id = some n) :
    Fires (remove id) h fun r h' _ => r = .ok ⟨⟩ ∧ Anchored b0 h' ∧ Pruned h h' n.parent (h.Below id) ∧
      h'.continuations? n.parent = (h.continuations? n.parent).map (·.filter (· ≠ id)) ∧
      (id ∈ h.currentLine → h'.current = n.parent ∧ h'.currentLine = h.lineTo n.parent) ∧
      (id ∉ h.currentLine → h'.current = h.current ∧ h'.board = h.board) := by
  unfold remove
  refine fires_get_bind ?_
  rw [found]
  dsimp only
  split
  · rename_i on
    have onLine : id ∈ h.currentLine := by simpa using on
    have present : ∀ p, n.parent = some p → h.contains p = true := fun p parent =>
      (anchored.1.shaped.parent id n found p parent).1
    have path := anchored.1.ancestry_lineTo present
    refine (fires_goTo anchored present).bind (fun _ h₁ _ post => ?_) fun _ _ _ post => absurd post.1 (by simp)
    obtain ⟨-, -, anchored₁, same₁, reached⟩ := post
    have line₁ : h₁.currentLine = h.lineTo n.parent := by
      rw [currentLine, reached]
      exact anchored₁.1.shaped.lineTo_eq (path.keep same₁.keepsTree)
    have off : id ∉ h₁.currentLine := by
      rw [line₁]
      exact anchored.1.shaped.not_mem_of_parent found path
    exact (fires_cutOff anchored₁ same₁ found off).mono fun r h' _ cut =>
      ⟨cut.1, cut.2.1, cut.2.2.1, cut.2.2.2.1, fun _ => ⟨cut.2.2.2.2.1.trans reached,
        cut.2.2.2.2.2.1.trans line₁⟩, fun outside => absurd onLine outside⟩
  · rename_i on
    have off : id ∉ h.currentLine := by simpa using on
    exact (fires_cutOff anchored (SameTree.refl h) found off).mono fun r h' _ cut =>
      ⟨cut.1, cut.2.1, cut.2.2.1, cut.2.2.2.1, fun inside => absurd inside off,
        fun _ => ⟨cut.2.2.2.2.1, cut.2.2.2.2.2.2⟩⟩

/-! ### The edits of a reachable history -/

theorem reshaping_changes_what_it_names (coherent : b0.Coherent) (settled : b0.Settled)
    (reached : Reachable b0 h) {id : NodeId} {n : Node} (found : h.node? id = some n) :
    (∃ pre post, h.continuations? n.parent = some (pre ++ id :: post).toArray ∧
      Fires (promote id) h fun r h' _ => r = .ok ⟨⟩ ∧ Relisted h h' n.parent ∧
        h'.continuations? n.parent = some (id :: (pre ++ post)).toArray) ∧
    (∃ pre post, h.continuations? n.parent = some (pre ++ id :: post).toArray ∧
      Fires (remove id) h fun r h' _ => r = .ok ⟨⟩ ∧ Pruned h h' n.parent (h.Below id) ∧
        h'.continuations? n.parent = some (pre ++ post).toArray ∧
        ((∃ c, h.current = some c ∧ h.Below id c) → h'.current = n.parent ∧
          h'.currentLine = h.lineTo n.parent ∧ ∃ z, Move.Replays b0 h'.lineMoves z ∧ z.dump = h'.board.dump) ∧
        ((¬∃ c, h.current = some c ∧ h.Below id c) → h'.current = h.current ∧ h'.board = h.board)) ∧
    Fires truncate h fun r h' _ => r = .ok ⟨⟩ ∧ Pruned h h' h.current (h.StrictlyBelow h.current) ∧
      h'.continuations? h.current = some #[] ∧ h'.current = h.current ∧ h'.board = h.board := by
  have anchored := reached.anchored coherent settled
  obtain ⟨pre, post, listed, notPre, notPost⟩ := anchored.1.shaped.listed_split found
  refine ⟨?_, ⟨pre, post, listed, (fires_remove anchored found).mono fun r h' _ removed => ?_⟩,
    (fires_truncate anchored.1).mono fun r h' _ truncated => ⟨truncated.1, truncated.2.2⟩⟩
  · obtain ⟨pre', post', listed', promoted⟩ := fires_promote anchored.1 found
    exact ⟨pre', post', listed', promoted.mono fun r h' _ post => ⟨post.1, post.2.2⟩⟩
  obtain ⟨ok, anchored', pruned, parentList, inside, outside⟩ := removed
  refine ⟨ok, pruned, ?_, fun below => ?_, fun notBelow => outside ?_⟩
  · rw [parentList, listed]
    simp [filter_ne_of_not_mem notPre, filter_ne_of_not_mem notPost]
  · obtain ⟨current, line⟩ := inside (anchored.1.mem_currentLine_iff.mpr below)
    have sound' := anchored'.1
    exact ⟨current, line, sound'.walk.dump coherent settled sound'.coherent sound'.settled⟩
  · exact fun onLine => notBelow (anchored.1.mem_currentLine_iff.mp onLine)

/-- After the king's pawn is added to a new history over the standard board, its node is
promoted, removed and cut after as the edits say. -/
theorem reshaping_changes_what_it_names_kingPawn :
    ∃ h n, Reachable Board.standard h ∧ h.node? ⟨0⟩ = some n ∧
    (∃ pre post, h.continuations? n.parent = some (pre ++ ⟨0⟩ :: post).toArray ∧
      Fires (promote ⟨0⟩) h fun r h' _ => r = .ok ⟨⟩ ∧ Relisted h h' n.parent ∧
        h'.continuations? n.parent = some (⟨0⟩ :: (pre ++ post)).toArray) ∧
    (∃ pre post, h.continuations? n.parent = some (pre ++ ⟨0⟩ :: post).toArray ∧
      Fires (remove ⟨0⟩) h fun r h' _ => r = .ok ⟨⟩ ∧ Pruned h h' n.parent (h.Below ⟨0⟩) ∧
        h'.continuations? n.parent = some (pre ++ post).toArray ∧
        ((∃ c, h.current = some c ∧ h.Below ⟨0⟩ c) → h'.current = n.parent ∧
          h'.currentLine = h.lineTo n.parent ∧
          ∃ z, Move.Replays Board.standard h'.lineMoves z ∧ z.dump = h'.board.dump) ∧
        ((¬∃ c, h.current = some c ∧ h.Below ⟨0⟩ c) → h'.current = h.current ∧ h'.board = h.board)) ∧
    Fires truncate h fun r h' _ => r = .ok ⟨⟩ ∧ Pruned h h' h.current (h.StrictlyBelow h.current) ∧
      h'.continuations? h.current = some #[] ∧ h'.current = h.current ∧ h'.board = h.board := by
  have reached : Reachable Board.standard ((History.run
      (Call.addMove (Square.ofNat 12) (Square.ofNat 28) none).act (new Board.standard)).run #[]).1.2 :=
    .step _ #[] .new trivial
  have live : (History.node? ((History.run (Call.addMove (Square.ofNat 12) (Square.ofNat 28) none).act
      (new Board.standard)).run #[]).1.2 ⟨0⟩).isSome = true := by decide +kernel
  obtain ⟨n, found⟩ := Option.isSome_iff_exists.mp live
  exact ⟨_, n, reached, found, reshaping_changes_what_it_names Board.WellFormed.standard.toCoherent
    Board.Settled.standard reached found⟩

end History

end Chess
