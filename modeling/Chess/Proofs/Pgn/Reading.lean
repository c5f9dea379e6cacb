import Chess.Proofs.Pgn.Items
import Chess.Proofs.Notation.Reread
import Chess.Proofs.History.Replay
import Chess.Pgn.Read

namespace Chess

/-! Reading PGN games, step by step. The journal a reading keeps never changes what it reads:
moves, FEN positions and the standard start are read alike whatever was journaled before. A
text reads as games built one by one from the games it parses as; each starts from the position
its tags name, plays its movetext, and goes back to the start. Reading movetext is taken apart
along its `do` blocks with triples over the reading monad. The history a game is read into is
grown by play: every node holds a move listed on a board returning to its parent's position,
no two continuations of a node play the same, every slot is filled, and every list keeps the
order its nodes were made in. -/

def Noted.Blind {α : Type} (act : Noted α) : Prop := ∀ j, (act.run j).1 = act.quiet

namespace Noted

variable {α β : Type}

theorem blind_of_run {act : Noted α} {v : α} (value : ∀ j, (act.run j).1 = v) : Blind act :=
  fun j => by rw [value, quiet, Id.run, value]

theorem blind_pure (a : α) : Blind (pure a : Noted α) := blind_of_run fun _ => rfl

theorem blind_add (e : Entry) : Blind (Noted.add e) := blind_of_run fun _ => rfl

theorem blind_log (level : Level) (text : String) : Blind (Noted.log level text) := blind_add _

theorem Blind.bind {x : Noted α} {f : α → Noted β} (first : Blind x) (rest : ∀ a, Blind (f a)) :
    Blind (x >>= f) := by
  refine blind_of_run (v := (f x.quiet).quiet) fun j => ?_
  rw [Noted.run_bind, first j, rest]

theorem Blind.quiet_bind {x : Noted α} {f : α → Noted β} (first : Blind x) (rest : ∀ a, Blind (f a)) :
    (x >>= f).quiet = (f x.quiet).quiet := by
  rw [← (first.bind rest) #[], Noted.run_bind, first #[], rest]

theorem blind_forIn {ρ σ : Type} (xs : List ρ) (init : σ) {f : ρ → σ → Noted (ForInStep σ)}
    (body : ∀ x s, Blind (f x s)) : Blind (forIn xs init f) := by
  induction xs generalizing init with
  | nil => exact blind_pure _
  | cons x rest ih =>
    rw [List.forIn_cons]
    refine (body x init).bind fun step => ?_
    cases step with
    | done s => exact blind_pure _
    | yield s => exact ih s

theorem blind_regenerated (b : Board) : Blind (Noted.regenerated b) := by
  unfold Noted.regenerated
  split
  · exact blind_log _ _
  · exact blind_pure _

theorem blind_edit {γ : Type} (r : Except MoveError γ) (board : γ → Board) : Blind (Noted.edit r board) := by
  unfold Noted.edit
  split
  · exact (blind_regenerated _).bind fun _ => blind_pure _
  · exact blind_pure _

end Noted

namespace Move

theorem blind_rehearseNoted (m : Move) (b : Board) : (m.rehearseNoted b).Blind :=
  Noted.blind_of_run (rehearseNoted_run m b)

theorem blind_newNoted (b : Board) (o t : Square) (p : Option PieceKind) : (newNoted b o t p).Blind :=
  Noted.blind_of_run (History.Move.newNoted_run b o t p)

theorem blind_castleOnNoted (b : Board) (side : CastleSide) : (castleOnNoted b side).Blind := by
  unfold castleOnNoted
  dsimp only
  split
  · exact Noted.blind_pure _
  · split
    · exact Noted.blind_pure _
    · exact blind_rehearseNoted _ _

end Move

theorem San.blind_parseNoted (b : Board) (text : String) : (San.parseNoted b text).Blind := by
  unfold San.parseNoted
  dsimp only
  split
  · exact Noted.blind_pure _
  · exact Move.blind_castleOnNoted _ _
  · split
    · exact Noted.blind_pure _
    · split
      · exact Noted.blind_pure _
      · split
        · exact Move.blind_newNoted _ _ _ _
        · exact Noted.blind_pure _

namespace Board

theorem blind_ofSetupNoted (st : Setup) : (ofSetupNoted st).Blind := by
  unfold ofSetupNoted
  refine (Noted.blind_forIn _ _ fun s r => ?_).bind fun r => ?_
  · dsimp only
    split
    · split
      · exact (Noted.blind_regenerated _).bind fun _ => Noted.blind_pure _
      · exact Noted.blind_pure _
    · exact Noted.blind_pure _
  · dsimp only
    split
    · exact Noted.blind_pure _
    · exact Noted.blind_edit _ _

theorem quiet_forIn_place (st : Setup) :
    ∀ (squares : List Square) (b : Board),
      let out := (forIn squares (none, b) fun s (acc : Option (Except MoveError Board) × Board) =>
        match placeFromSetup st acc.2 s with
        | .ok next =>
          if st.letterAt s.file.index s.rank.index ≠ ' ' then do
            Noted.regenerated next
            pure (ForInStep.yield (none, next))
          else pure (ForInStep.yield (none, next))
        | .error e => pure (ForInStep.done (some (.error e), acc.2))).quiet
      match squares.foldlM (placeFromSetup st) b with
      | .ok b' => out = (none, b')
      | .error e => out.1 = some (.error e)
  | [], b => rfl
  | s :: rest, b => by
    intro out
    have body : ∀ s' (acc : Option (Except MoveError Board) × Board), Noted.Blind
        (match placeFromSetup st acc.2 s' with
        | .ok next =>
          if st.letterAt s'.file.index s'.rank.index ≠ ' ' then do
            Noted.regenerated next
            pure (ForInStep.yield (none, next))
          else pure (ForInStep.yield (none, next))
        | .error e => pure (ForInStep.done (some (Except.error e), acc.2)) :
          Noted (ForInStep (Option (Except MoveError Board) × Board))) := by
      intro s' acc
      split
      · split
        · exact (Noted.blind_regenerated _).bind fun _ => Noted.blind_pure _
        · exact Noted.blind_pure _
      · exact Noted.blind_pure _
    simp only [out, List.forIn_cons, List.foldlM_cons]
    rw [Noted.Blind.quiet_bind (body s (none, b)) fun step => by
      cases step with
      | done r => exact Noted.blind_pure _
      | yield r => exact Noted.blind_forIn _ _ body]
    dsimp only
    cases placed : placeFromSetup st b s with
    | error e => rfl
    | ok next =>
      have step : (if st.letterAt s.file.index s.rank.index ≠ ' ' then do
            Noted.regenerated next
            pure (ForInStep.yield (none, next))
          else (pure (ForInStep.yield (none, next)) :
            Noted (ForInStep (Option (Except MoveError Board) × Board)))).quiet =
          .yield (none, next) := by
        split
        · rw [Noted.Blind.quiet_bind (Noted.blind_regenerated _) fun _ => Noted.blind_pure _]
          rfl
        · rfl
      simp only [step]
      exact quiet_forIn_place st rest next

theorem quiet_edit {γ : Type} (r : Except MoveError γ) (board : γ → Board) : (Noted.edit r board).quiet = r := by
  unfold Noted.edit
  split
  · rw [Noted.Blind.quiet_bind (Noted.blind_regenerated _) fun _ => Noted.blind_pure _]
    rfl
  · rfl

theorem quiet_ofSetupNoted (st : Setup) : (ofSetupNoted st).quiet = ofSetup st := by
  unfold ofSetupNoted ofSetup
  rw [Noted.Blind.quiet_bind (Noted.blind_forIn _ _ fun s r => ?body) fun r => ?rest]
  case body =>
    dsimp only
    split
    · split
      · exact (Noted.blind_regenerated _).bind fun _ => Noted.blind_pure _
      · exact Noted.blind_pure _
    · exact Noted.blind_pure _
  case rest =>
    dsimp only
    split
    · exact Noted.blind_pure _
    · exact Noted.blind_edit _ _
  have loop := quiet_forIn_place st setupOrder empty
  dsimp only at loop ⊢
  cases placed : setupOrder.foldlM (placeFromSetup st) empty with
  | error e =>
    rw [placed] at loop
    dsimp only at loop
    split
    · rename_i r ended
      cases loop.symm.trans ended
      rfl
    · rename_i ended
      cases loop.symm.trans ended
  | ok b' =>
    rw [placed] at loop
    dsimp only at loop
    split
    · rename_i r ended
      cases (congrArg Prod.fst loop).symm.trans ended
    · rw [quiet_edit]
      exact congrArg (finishSetup st) (congrArg Prod.snd loop)

theorem quiet_ofFenNoted (text : String) : (ofFenNoted text).quiet = ofFen text := by
  unfold ofFenNoted ofFen
  cases Fen.parse text with
  | error e => rfl
  | ok st =>
    dsimp only
    rw [Noted.Blind.quiet_bind (blind_ofSetupNoted st) fun r => by split <;> exact Noted.blind_pure _,
      quiet_ofSetupNoted]
    simp only [Except.ok_bind]
    cases ofSetup st <;> rfl

theorem blind_ofFenNoted (text : String) : (ofFenNoted text).Blind := by
  unfold ofFenNoted
  split
  · exact Noted.blind_pure _
  · exact (blind_ofSetupNoted _).bind fun r => by split <;> exact Noted.blind_pure _

theorem blind_standardNoted : standardNoted.Blind :=
  (Noted.blind_regenerated _).bind fun _ => Noted.blind_pure _

end Board

namespace Pgn

def startOf (tags : List (String × String)) : Except PgnError Board :=
  match tags.find? (·.1 = "FEN") with
  | some (_, fen) =>
    match (Board.ofFenNoted fen).quiet with
    | .ok b => .ok b
    | .error e => .error (PgnError.fen e)
  | none => .ok Board.standardNoted.quiet

theorem reachable_of_startOf {tags : List (String × String)} {b0 : Board} (start : startOf tags = .ok b0) :
    b0.Reachable := by
  unfold startOf at start
  split at start
  · rw [Board.quiet_ofFenNoted] at start
    cases read : Board.ofFen _ with
    | error e => rw [read] at start; cases start
    | ok b =>
      rw [read] at start
      cases start
      exact .ofFen read
  · cases start
    exact .standard

def readBody (items : List PgnItem) : PgnReadM Unit := do
  let ply ← playLine items 0
  atPly ply "" History.rewind

theorem buildGame_run (gt : PgnText) (j : Array Entry) :
    ∃ j', ((buildGame gt).run j).1 =
      (startOf (gt.tags.map fun tag => (tag.1, unescape tag.2))).bind fun b =>
        (((readBody gt.items).run.run (History.new b)).run j').1.1.map fun _ =>
          ⟨(gt.tags.map fun tag => (tag.1, unescape tag.2)).toArray,
            (((readBody gt.items).run.run (History.new b)).run j').1.2, resultOf gt.result⟩ := by
  have act : (do let ply ← playLine gt.items 0; atPly ply "" History.rewind : PgnReadM Unit) =
      readBody gt.items := rfl
  unfold buildGame startOf
  dsimp only
  rw [act]
  cases (gt.tags.map fun tag => (tag.1, unescape tag.2)).find? (·.1 = "FEN") with
  | some tag =>
    obtain ⟨_, fen⟩ := tag
    refine ⟨((Board.ofFenNoted fen).run j).2, ?_⟩
    dsimp only
    rw [Noted.run_bind, Board.blind_ofFenNoted fen j]
    cases (Board.ofFenNoted fen).quiet with
    | error e => rfl
    | ok b =>
      simp only [pure_bind, Except.bind]
      rw [Noted.run_bind]
      generalize ((readBody gt.items).run.run (History.new b)).run ((Board.ofFenNoted fen).run j).2 = out
      obtain ⟨⟨r, h⟩, j''⟩ := out
      cases r <;> rfl
  | none =>
    refine ⟨(Board.standardNoted.run j).2, ?_⟩
    dsimp only
    rw [Noted.run_bind, Board.blind_standardNoted j]
    simp only [pure_bind, Except.bind]
    rw [Noted.run_bind]
    generalize ((readBody gt.items).run.run (History.new _)).run (Board.standardNoted.run j).2 = out
    obtain ⟨⟨r, h⟩, j''⟩ := out
    cases r <;> rfl

theorem forIn_buildGame {texts : List PgnText} :
    ∀ (xs : List PgnText), (∀ x ∈ xs, x ∈ texts) → ∀ (acc : Array PgnGame) (j : Array Entry),
      (∀ g ∈ acc.toList, ∃ gt ∈ texts, ∃ j', ((buildGame gt).run j').1 = .ok g) →
      let out := ((forIn xs (none, acc) fun gt (s : Option (Except PgnError (List PgnGame)) × Array PgnGame) => do
          match ← buildGame gt with
          | .ok game => pure (ForInStep.yield (none, s.2.push game))
          | .error e => pure (ForInStep.done (some (.error e), s.2))).run j).1
      (∀ r, out.1 = some r → ∃ e, r = .error e) ∧
        (out.1 = none → ∀ g ∈ out.2.toList, ∃ gt ∈ texts, ∃ j', ((buildGame gt).run j').1 = .ok g)
  | [], _, acc, j, kept => by
    intro out
    exact ⟨fun r stopped => (nomatch stopped), fun _ => kept⟩
  | gt :: rest, within, acc, j, kept => by
    intro out
    simp only [out, List.forIn_cons, Noted.run_bind]
    generalize read : (buildGame gt).run j = first
    obtain ⟨v, j₁⟩ := first
    cases v with
    | error e => exact ⟨fun r stopped => ⟨e, (Option.some.inj stopped).symm⟩, fun stopped => nomatch stopped⟩
    | ok game =>
      refine forIn_buildGame rest (fun x member => within x (.tail _ member)) (acc.push game) j₁ ?_
      intro g member
      have grown : g ∈ acc.toList ∨ g = game := by simpa using member
      rcases grown with old | rfl
      · exact kept g old
      · exact ⟨gt, within gt (.head _), j, by rw [read]⟩

theorem readNoted_ok {text : String} {j : Array Entry} {gs : List PgnGame}
    (read : ((readNoted text).run j).1 = .ok gs) :
    ∃ texts, parse text = .ok texts ∧ ∀ g ∈ gs, ∃ gt ∈ texts, ∃ j', ((buildGame gt).run j').1 = .ok g := by
  unfold readNoted at read
  split at read
  · cases read
  · rename_i texts parsed
    refine ⟨texts, parsed, ?_⟩
    rw [Noted.run_bind] at read
    obtain ⟨stopped, kept⟩ := forIn_buildGame texts (fun _ member => member) #[] j (by simp)
    dsimp only at read stopped kept
    split at read
    · rename_i r ended
      obtain ⟨e, rfl⟩ := stopped r ended
      cases read
    · rename_i ended
      cases read
      exact fun g member => kept ended g member

theorem read_single {text : String} {gt : PgnText} {g : PgnGame} (parsed : parse text = .ok [gt])
    (built : ((buildGame gt).run #[]).1 = .ok g) : read text = .ok [g] := by
  unfold read Noted.quiet readNoted
  rw [parsed]
  dsimp only
  rw [Id.run, Noted.run_bind]
  simp only [List.forIn_cons, List.forIn_nil, Noted.run_bind]
  generalize first : (buildGame gt).run #[] = out at built
  obtain ⟨v, j⟩ := out
  cases built
  rfl

end Pgn

namespace History

/-! ### Adding and going, as they read -/

variable {b0 : Board} {h₀ : History}

def Distinct (h : History) (mv : Move) : Prop :=
  ∀ list, h.continuations? h.current = some list → ∀ x ∈ list.toList, ∀ other, h.get? x = some other →
    other.playsSame mv = false

theorem triple_goTo_same (anchored : Anchored b0 h₀) (target : Option NodeId) :
    Triple (· = h₀) (goTo target) fun r h =>
      r = .ok ⟨⟩ → SameTree h₀ h ∧ Anchored b0 h ∧ h.current = target := by
  by_cases present : ∀ id, target = some id → h₀.contains id = true
  · exact (fires_goTo anchored present).triple.mono (fun _ same => same) fun _ _ post _ =>
      post.elim fun _ walk => ⟨walk.2.2.2.1, walk.2.2.1, walk.2.2.2.2⟩
  · obtain ⟨id, rfl, absent⟩ : ∃ id, target = some id ∧ h₀.contains id = false := by
      simpa using present
    unfold goTo
    refine triple_get_bind fun h start => ?_
    subst start
    rw [absent]
    exact triple_throw_bind _ fun h start failed => nomatch failed

theorem triple_add_cases (anchored : Anchored b0 h₀) (mv : Move) :
    Triple (· = h₀) (add mv) fun r h => ∀ id, r = .ok id →
      (SameTree h₀ h ∧ Anchored b0 h) ∨
        (∃ res, mv.execute h₀.board = .ok res ∧ h = h₀.attach res.1 res.2 ∧ Distinct h₀ mv) := by
  unfold add
  refine triple_get_bind fun h start => ?_
  subst start
  dsimp only
  split
  · rename_i id found
    obtain ⟨list, listed, first⟩ := Option.bind_eq_some_iff.mp found
    obtain ⟨n, found', parent⟩ := anchored.1.child_of_mem listed
      (Array.mem_toList_iff.mpr (Array.mem_of_find?_eq_some first))
    refine ((fires_stepInto anchored found' parent).triple.bind (fun _ => triple_pure _ ?_)
      fun _ _ _ => nofun)
    intro h step id' _
    obtain ⟨e, -, -, anchored', same, -⟩ := step
    exact .inl ⟨same, anchored'⟩
  · rename_i absent
    refine triple_journal_bind (fun j => Move.executeNoted_run mv h.board j) ?_
    split
    · exact triple_journal_bind (fun _ => rfl) (triple_throw _ fun _ _ => nofun)
    · rename_i m b run
      have distinct : Distinct h mv := playsSame_false_of_unfound absent fun x other found => by
        rw [found]
      refine triple_announce_bind _ (triple_journal_bind (fun _ => rfl) ?_)
      exact triple_set_bind (h.attach m b) (triple_pure _ fun h' start _ _ => start ▸
        .inr ⟨(m, b), run, rfl, distinct⟩)

theorem triple_add_fresh {mv : Move} (distinct : Distinct h₀ mv) {res : Move × Board}
    (run : mv.execute h₀.board = .ok res) :
    Triple (· = h₀) (add mv) fun r h => r = .ok ⟨h₀.nodes.size⟩ ∧ h = h₀.attach res.1 res.2 := by
  unfold add
  refine triple_get_bind fun h start => ?_
  subst start
  dsimp only
  split
  · rename_i id found
    exfalso
    obtain ⟨list, listed, first⟩ := Option.bind_eq_some_iff.mp found
    have member := Array.mem_toList_iff.mpr (Array.mem_of_find?_eq_some first)
    have plays := Array.find?_some first
    cases other : h.get? id with
    | none => simp [other] at plays
    | some o => simp [other, distinct list listed id member o other] at plays
  · refine triple_journal_bind (fun j => Move.executeNoted_run mv h.board j) ?_
    rw [run]
    refine triple_announce_bind _ (triple_journal_bind (fun _ => rfl) ?_)
    exact triple_set_bind (h.attach res.1 res.2) (triple_pure _ fun h' start => ⟨rfl, start⟩)

end History

namespace History

/-- The node `x` holds a move listed on a board returning to its parent's position, played to
the node's position, played or not since. -/
def Listed (base : Option NodeId → Board) (x : NodeId) (n : Node) : Prop :=
  ∃ v n₀ r, (base n.parent).Returns v ∧ v.Coherent ∧ v.Settled ∧ n₀ ∈ v.legalMoves ∧
    n₀.execute v = .ok r ∧ r.2 = base (some x) ∧ n.move = { r.1 with executed := n.move.executed }

/-- A history grown from `b0` by moves that play as listed ones: anchored at the positions
`base`, starting from `b0`, and every node holding a move listed on a board returning to its
parent's position. -/
structure Recorded (b0 : Board) (base : Option NodeId → Board) (h : History) : Prop where
  sound : Sound b0 h
  anchors : Anchors h base
  start : base none = b0
  listed : ∀ x n, h.node? x = some n → Listed base x n

theorem Listed.of_move {base : Option NodeId → Board} {x : NodeId} {n n' : Node} (listed : Listed base x n)
    (parent : n'.parent = n.parent) (move : n'.move = { n.move with executed := n'.move.executed }) :
    Listed base x n' := by
  obtain ⟨v, n₀, r, returns, coherent, settled, legal, run, at_, stored⟩ := listed
  refine ⟨v, n₀, r, parent ▸ returns, coherent, settled, legal, run, at_, ?_⟩
  rw [move, stored]

theorem Shaped.nodup {h : History} (shaped : h.Shaped) {o : Option NodeId} {L : Array NodeId}
    (listed : h.continuations? o = some L) : L.toList.Nodup := by
  refine List.nodup_iff_count_le_one.mpr fun x => ?_
  by_cases member : x ∈ L.toList
  · obtain ⟨n, found, parent⟩ := shaped.entries o L listed x member
    obtain ⟨L', listed', once⟩ := shaped.listed x n found
    rw [parent, listed] at listed'
    cases listed'
    omega
  · simp [List.count_eq_zero_of_not_mem member]

theorem Distinct.of_execute {h : History} {k n₀ : Move} (distinct : Distinct h k) {b : Board}
    {r : Move × Board} (runK : k.execute b = .ok r) (run₀ : n₀.execute b = .ok r) : Distinct h n₀ := by
  intro list listed x member other found
  refine Bool.eq_false_iff.mpr fun same => ?_
  have toK : other.playsSame k = true := Move.playsSame_trans same (Move.playsSame_trans
    (by rw [Move.playsSame_comm]; exact Move.playsSame_execute run₀) (Move.playsSame_execute runK))
  rw [distinct list listed x member other found] at toK
  cases toK

namespace Recorded

variable {b0 : Board} {base : Option NodeId → Board} {h h' : History}

theorem anchored (recorded : Recorded b0 base h) : Anchored b0 h := ⟨recorded.sound, base, recorded.anchors⟩

theorem new (coherent : b0.Coherent) (settled : b0.Settled) : Recorded b0 (fun _ => b0) (History.new b0) where
  sound := sound_new coherent settled
  anchors := Anchors.new b0
  start := rfl
  listed x n found := by simp [History.new, node?] at found

theorem sameTree (recorded : Recorded b0 base h) (same : SameTree h h') (sound : Sound b0 h') :
    Recorded b0 base h' where
  sound := sound
  anchors := same.anchors base recorded.anchors
  start := recorded.start
  listed x n' found' := by
    obtain ⟨n, found, move⟩ := same.moves x n' found'
    have parent : n'.parent = n.parent := by
      simpa [parent?, found, found'] using same.parents x
    exact (recorded.listed x n found).of_move parent move

theorem of_edit (recorded : Recorded b0 base h) (sound : Sound b0 h')
    (back : ∀ x n', h'.node? x = some n' →
      ∃ n, h.node? x = some n ∧ n'.move = n.move ∧ n'.parent = n.parent)
    (board : h'.board = h.board) (current : h'.current = h.current) : Recorded b0 base h' where
  sound := sound
  anchors := recorded.anchors.of_edit back board current
  start := recorded.start
  listed x n' found' := by
    obtain ⟨n, found, move, parent⟩ := back x n' found'
    exact (recorded.listed x n found).of_move parent (by rw [move])

theorem attach (recorded : Recorded b0 base h) {n₀ : Move} (legal : n₀ ∈ h.board.legalMoves)
    {res : Move × Board} (run : n₀.execute h.board = .ok res) (distinct : Distinct h n₀) :
    Recorded b0 (Function.update base (some ⟨h.nodes.size⟩) res.2) (h.attach res.1 res.2) := by
  have sound := recorded.sound
  have fits := Board.fits_of_mem_legalMoves sound.coherent sound.settled legal
  have fresh := sound.current_lt
  have current := sound.current_ne_size
  refine ⟨sound.attach fits run distinct, recorded.anchors.attach sound fits run, recorded.start,
    fun x n' found' => ?_⟩
  rcases node?_attach_eq_some fresh found' with ⟨rfl, rfl⟩ | ⟨n, found, move, parent⟩
  · refine ⟨h.board, n₀, res, ?_, sound.coherent, sound.settled, legal, run, by simp, rfl⟩
    rw [Function.update_of_ne current]
    exact recorded.anchors.board
  · have old : x ≠ ⟨h.nodes.size⟩ := ne_size_of_node? found
    have parentOld := sound.shaped.parent_ne_size found
    obtain ⟨v, m₀, r', returns, coherent, settled, listed', run', at_, stored⟩ :=
      recorded.listed x n found
    refine ⟨v, m₀, r', ?_, coherent, settled, listed', run', ?_, by rw [move]; exact stored⟩
    · rw [parent, Function.update_of_ne parentOld]
      exact returns
    · rw [Function.update_of_ne (by simpa using old)]
      exact at_

end Recorded

/-- A history grown by playing moves read as text, from `b0`: anchored at the positions `base`,
every node holding a listed move, every slot filled, and every list in the order its nodes were
made. -/
structure Played (b0 : Board) (base : Option NodeId → Board) (h : History) : Prop where
  sound : Sound b0 h
  anchors : Anchors h base
  start : base none = b0
  listed : ∀ x n, h.node? x = some n → Listed base x n
  full : ∀ x : NodeId, x.index < h.nodes.size → h.contains x = true
  ordered : ∀ o l, h.continuations? o = some l → l.toList.Pairwise (·.index < ·.index)

theorem size_attach (h : History) (m : Move) (b : Board) : (h.attach m b).nodes.size = h.nodes.size + 1 := by
  unfold attach modifyContinuations
  cases h.current <;> simp

namespace Played

variable {b0 : Board} {base : Option NodeId → Board} {h h' : History}

theorem recorded (played : Played b0 base h) : Recorded b0 base h :=
  ⟨played.sound, played.anchors, played.start, played.listed⟩

theorem anchored (played : Played b0 base h) : Anchored b0 h := played.recorded.anchored

theorem new (coherent : b0.Coherent) (settled : b0.Settled) : Played b0 (fun _ => b0) (History.new b0) where
  sound := sound_new coherent settled
  anchors := Anchors.new b0
  start := rfl
  listed x n found := by simp [History.new, node?] at found
  full x small := by simp [History.new] at small
  ordered o l listed := by
    cases o with
    | none =>
      cases listed
      simp [History.new]
    | some x => simp [History.new, continuations?, node?] at listed

theorem sameTree (played : Played b0 base h) (same : SameTree h h') (sound : Sound b0 h') :
    Played b0 base h' where
  sound := sound
  anchors := same.anchors base played.anchors
  start := played.start
  listed := (played.recorded.sameTree same sound).listed
  full x small := by
    rw [same.contains]
    exact played.full x (same.size ▸ small)
  ordered o l listed := played.ordered o l (by rw [← same.lists o]; exact listed)

theorem attach (played : Played b0 base h) {k : Move}
    (read : ∃ n₀ ∈ h.board.legalMoves, ∃ r, n₀.execute h.board = .ok r ∧ k.execute h.board = .ok r ∧
      k.Fits h.board)
    (distinct : Distinct h k) {res : Move × Board} (run : k.execute h.board = .ok res) :
    Played b0 (Function.update base (some ⟨h.nodes.size⟩) res.2) (h.attach res.1 res.2) := by
  obtain ⟨n₀, legal, r, run₀, runK, -⟩ := read
  rw [runK] at run
  cases run
  have recorded := played.recorded.attach legal run₀ (distinct.of_execute runK run₀)
  have fresh := played.sound.current_lt
  refine ⟨recorded.sound, recorded.anchors, recorded.start, recorded.listed, ?_, ?_⟩
  · intro x small
    rw [contains_attach fresh]
    by_cases new : x = ⟨h.nodes.size⟩
    · simp [new]
    · have older : x.index < h.nodes.size := by
        have : x.index ≠ h.nodes.size := fun same => new (by cases x; simp_all)
        rw [size_attach] at small
        omega
      simp [played.full x older]
  · intro o l listed
    rw [continuations?_attach fresh] at listed
    split at listed
    · cases listed
      simp
    · obtain ⟨l₀, listed₀, rfl⟩ := Option.map_eq_some_iff.mp listed
      have ordered := played.ordered o l₀ listed₀
      split
      · rw [Array.toList_push, List.pairwise_append]
        refine ⟨ordered, by simp, fun x member y same => ?_⟩
        rw [List.mem_singleton.mp same]
        obtain ⟨n, found, -⟩ := played.sound.shaped.entries o l₀ listed₀ x member
        exact index_lt_of_node? found
      · exact ordered

end Played

end History

namespace Pgn

variable {α β γ : Type}

/-- From every history satisfying `P`, with any journal, reading with `act` ends in a result and
a history satisfying `Q`, a failure included. -/
def Triple (P : History → Prop) (act : PgnReadM α) (Q : Except PgnError α → History → Prop) : Prop :=
  ∀ h j, P h → Q ((act.run.run h).run j).1.1 ((act.run.run h).run j).1.2

variable {P P' : History → Prop} {Q Q' : Except PgnError α → History → Prop}

theorem Triple.mono {act : PgnReadM α} (spec : Triple P act Q) (pre : ∀ h, P' h → P h)
    (post : ∀ r h, Q r h → Q' r h) : Triple P' act Q' :=
  fun h j start => post _ _ (spec h j (pre h start))

theorem Triple.of_each {act : PgnReadM α} (each : ∀ h₀, P h₀ → Triple (· = h₀) act Q) : Triple P act Q :=
  fun h j start => each h start h j rfl

theorem triple_pure (a : α) (post : ∀ h, P h → Q (.ok a) h) : Triple P (pure a) Q :=
  fun h _ start => post h start

theorem triple_throw (e : PgnError) (post : ∀ h, P h → Q (.error e) h) : Triple P (throw e) Q :=
  fun h _ start => post h start

theorem Triple.bind {R : Except PgnError α → History → Prop} {Q : Except PgnError β → History → Prop}
    {x : PgnReadM α} {f : α → PgnReadM β} (first : Triple P x R)
    (rest : ∀ a, Triple (R (.ok a)) (f a) Q) (failed : ∀ e h, R (.error e) h → Q (.error e) h) :
    Triple P (x >>= f) Q := by
  intro h j start
  have mid := first h j start
  simp only [ExceptT.run_bind, StateT.run_bind]
  generalize ((x.run.run h).run j) = out at mid ⊢
  obtain ⟨⟨r, h'⟩, j'⟩ := out
  cases r with
  | error e => exact failed e h' mid
  | ok a => exact rest a h' j' mid

theorem triple_get_bind {Q : Except PgnError β → History → Prop} {f : History → PgnReadM β}
    (rest : ∀ h₀, P h₀ → Triple (· = h₀) (f h₀) Q) : Triple P (get >>= f) Q :=
  fun h j start => rest h start h j rfl

theorem triple_lift_bind {Q : Except PgnError β → History → Prop} {act : Noted γ} (blind : act.Blind)
    {f : γ → PgnReadM β} (rest : Triple P (f act.quiet) Q) : Triple P (monadLift act >>= f) Q := by
  intro h j start
  have post := rest h ((act.run j).2) start
  rw [← blind j] at post
  exact post

theorem triple_atPly {P : History → Prop} {Q : Except MoveError α → History → Prop} {act : HistoryM α}
    (spec : History.Triple P act Q) (ply : Nat) (text : String) :
    Triple P (atPly ply text act) fun r h => ∃ r₀, Q r₀ h ∧ r = r₀.mapError (PgnError.move ply text) := by
  intro h j start
  refine ⟨_, spec h j start, ?_⟩
  unfold atPly ExceptT.adapt
  simp only [ExceptT.run_mk, StateT.run_map]
  rfl

theorem triple_throw_bind {Q : Except PgnError β → History → Prop} (e : PgnError) {f : α → PgnReadM β}
    (post : ∀ h, P h → Q (.error e) h) : Triple P (throw e >>= f) Q :=
  fun h _ start => post h start

theorem Triple.discard {R : Except PgnError α → History → Prop} {Q : Except PgnError PUnit → History → Prop}
    {x : PgnReadM α} (spec : Triple P x R) (done : ∀ a h, R (.ok a) h → Q (.ok ⟨⟩) h)
    (failed : ∀ e h, R (.error e) h → Q (.error e) h) : Triple P (discard x) Q := by
  intro h j start
  have post := spec h j start
  simp only [Functor.discard, Functor.mapConst, Function.comp, ExceptT.map,
    ExceptT.run_mk, StateT.run_bind]
  simp only [ExceptT.run] at post ⊢
  generalize StateT.run (StateT.run x h) j = out at post ⊢
  obtain ⟨⟨r, h'⟩, j'⟩ := out
  cases r with
  | error e => exact failed e h' post
  | ok a => exact done a h' post

section Played

variable {b0 : Board}

theorem triple_goTo_played {base : Option NodeId → Board} {h₀ : History}
    (played : History.Played b0 base h₀) (target : Option NodeId) {ply : Nat} {text : String} :
    Triple (· = h₀) (atPly ply text (History.goTo target)) fun r h =>
      r = .ok ⟨⟩ → (∃ base, History.Played b0 base h) ∧ h.current = target := by
  refine (triple_atPly (History.triple_goTo_same played.anchored target) ply text).mono
    (fun _ same => same) fun r h post ok => ?_
  obtain ⟨r₀, went, same⟩ := post
  cases r₀ with
  | error e => rw [ok] at same; cases same
  | ok u =>
    obtain ⟨tree, anchored, current⟩ := went rfl
    exact ⟨⟨base, played.sameTree tree anchored.1⟩, current⟩

theorem triple_playItems (items : List PgnItem) (ply : Nat) (beforeLast : Option (Option NodeId)) :
    Triple (fun h => ∃ base, History.Played b0 base h) (playItems items ply beforeLast)
      fun r h => ∀ n, r = .ok n → ∃ base, History.Played b0 base h := by
  induction items, ply, beforeLast using playItems.induct with
  | case1 ply beforeLast =>
    rw [playItems]
    exact triple_pure _ fun h grown _ _ => grown
  | case2 text rest ply beforeLast next ih =>
    rw [playItems]
    refine triple_get_bind fun h₀ ⟨base, played⟩ => ?_
    refine triple_lift_bind (San.blind_parseNoted h₀.board text) ?_
    dsimp only
    cases read : (San.parseNoted h₀.board text).quiet with
    | error e =>
      exact triple_throw_bind _ fun _ _ _ failed => nomatch failed
    | ok k =>
      have read : San.parse h₀.board text = .ok k := read
      simp only [pure_bind]
      refine Triple.bind (R := fun r h => r = .ok ⟨⟩ → ∃ base, History.Played b0 base h) ?_
        (fun _ => (ih h₀).mono (fun h post => post rfl) fun _ _ post => post) fun _ _ _ _ failed => nomatch failed
      refine Triple.discard (triple_atPly (History.triple_add_cases played.anchored k) _ _)
        (fun a h post _ => ?_) fun _ _ _ failed => nomatch failed
      obtain ⟨r₀, added, same⟩ := post
      cases r₀ with
      | error e => cases same
      | ok id =>
        rcases added id rfl with ⟨tree, anchored⟩ | ⟨res, run, rfl, distinct⟩
        · exact ⟨base, played.sameTree tree anchored.1⟩
        · exact ⟨_, played.attach (San.parse_listed played.sound.coherent played.sound.settled read)
            distinct run⟩
  | case3 inner rest ply start ihInner ihRest =>
    rw [playItems]
    refine triple_get_bind fun h₀ ⟨base, played⟩ => ?_
    refine Triple.bind (R := fun r h => r = .ok ⟨⟩ → ∃ base, History.Played b0 base h)
      ((triple_goTo_played played start).mono (fun _ same => same) fun _ _ post ok => (post ok).1)
      (fun _ => ?_) fun _ _ _ _ failed => nomatch failed
    refine Triple.bind (R := fun r h => ∀ n, r = .ok n → ∃ base, History.Played b0 base h)
      (ihInner.mono (fun h post => post rfl) fun _ _ post => post) (fun ply' => ?_)
      fun _ _ _ _ failed => nomatch failed
    refine Triple.of_each fun h₁ grown => ?_
    obtain ⟨base₁, played₁⟩ := grown ply' rfl
    exact Triple.bind (R := fun r h => r = .ok ⟨⟩ → ∃ base, History.Played b0 base h)
      ((triple_goTo_played played₁ h₀.current).mono (fun _ same => same) fun _ _ post ok => (post ok).1)
      (fun _ => (ihRest ply').mono (fun h post => post rfl)
        fun _ _ post => post) fun _ _ _ _ failed => nomatch failed
  | case4 inner rest ply beforeLast orphan =>
    rw [playItems]
    · exact triple_throw _ fun _ _ _ failed => nomatch failed
    · exact orphan

theorem triple_readBody (coherent : b0.Coherent) (settled : b0.Settled) (items : List PgnItem) :
    Triple (· = History.new b0) (readBody items) fun r h =>
      r = .ok ⟨⟩ → (∃ base, History.Played b0 base h) ∧ h.current = none := by
  refine Triple.bind (R := fun r h => ∀ n, r = .ok n → ∃ base, History.Played b0 base h)
    ((triple_playItems items 0 none).mono (fun h start => ⟨_, start ▸ History.Played.new coherent settled⟩)
      fun _ _ post => post) (fun ply => ?_) fun _ _ _ failed => nomatch failed
  refine Triple.of_each fun h₁ grown => ?_
  obtain ⟨base, played⟩ := grown ply rfl
  exact triple_goTo_played played none

end Played

/-- A game built from a parsed text is read from the position its tags start it from: its
history grown by play from there and back at the start, its tags the parsed ones unescaped,
and its result the one its result token stands for. -/
theorem played_of_buildGame {gt : PgnText} {j : Array Entry} {g : PgnGame}
    (built : ((buildGame gt).run j).1 = .ok g) :
    ∃ b0 base, startOf (gt.tags.map fun tag => (tag.1, unescape tag.2)) = .ok b0 ∧
      History.Played b0 base g.history ∧ g.history.current = none ∧
      g.tags = (gt.tags.map fun tag => (tag.1, unescape tag.2)).toArray ∧ g.result = resultOf gt.result := by
  obtain ⟨j', run⟩ := buildGame_run gt j
  rw [run] at built
  cases start : startOf (gt.tags.map fun tag => (tag.1, unescape tag.2)) with
  | error e => rw [start] at built; cases built
  | ok b0 =>
    simp only [start, Except.bind] at built
    have reach := reachable_of_startOf start
    have post := triple_readBody reach.coherent reach.settled gt.items _ j' rfl
    generalize ((readBody gt.items).run.run (History.new b0)).run j' = out at built post
    obtain ⟨⟨r, h⟩, j''⟩ := out
    cases r with
    | error e => cases built
    | ok u =>
      cases built
      obtain ⟨⟨base, played⟩, current⟩ := post rfl
      exact ⟨b0, base, rfl, played, current, rfl, rfl⟩

theorem played_of_read {t : String} {gs : List PgnGame} (read : Pgn.read t = .ok gs) {g : PgnGame}
    (member : g ∈ gs) :
    ∃ texts, parse t = .ok texts ∧ ∃ gt ∈ texts, ∃ b0 base,
      startOf (gt.tags.map fun tag => (tag.1, unescape tag.2)) = .ok b0 ∧
      History.Played b0 base g.history ∧ g.history.current = none ∧
      g.tags = (gt.tags.map fun tag => (tag.1, unescape tag.2)).toArray ∧ g.result = resultOf gt.result := by
  obtain ⟨texts, parsed, games⟩ := readNoted_ok read
  obtain ⟨gt, within, j, built⟩ := games g member
  exact ⟨texts, parsed, gt, within, played_of_buildGame built⟩

end Pgn

end Chess
