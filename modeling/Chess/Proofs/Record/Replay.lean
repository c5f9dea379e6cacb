import Chess.Proofs.Record.Grown
import Chess.Proofs.Pgn.Rebuild
import Chess.Proofs.Notation.UciReread
import Chess.Record

namespace Chess

/-! Replaying a game record. A record writes each node of a tree by its move's coordinates, and
after the first node of a list the other nodes' lines as variations; replaying it reads each
move back from its coordinates on the board reached, adds it, and plays each variation from the
position before the move. Node by node, in the order the record names them, the replay rebuilds
the recorded tree: a rebuilt node stands for one node of the tree, plays as its move, and the
positions at the two mirror each other. The steps a record is written in are enough: no list of
slots not yet rebuilt is longer than the steps left. -/

theorem Uci.blind_parseNoted (b : Board) (text : String) : (Uci.parseNoted b text).Blind := by
  unfold Uci.parseNoted
  dsimp only
  split
  · exact Noted.blind_pure _
  · split
    · split
      · exact Move.blind_newNoted _ _ _ _
      · split
        · exact Move.blind_newNoted _ _ _ _
        · exact Noted.blind_pure _
    · exact Noted.blind_pure _

namespace History

theorem recordLine_succ_of_node {H : History} (f : Nat) {node : NodeId} {n : Node}
    (found : H.node? node = some n) {L : Array NodeId} (listed : H.continuations? n.parent = some L) :
    H.recordLine (f + 1) (some node) = .mk n.move.uci n.move.san
      (if L[0]? = some node then (L.toList.drop 1).map fun v => H.recordLine f (some v) else []) ::
        H.recordLine f n.continuations[0]? := by
  rw [recordLine]
  simp only [get?, parent?, found, Option.map_some, Option.bind_some]
  rw [listed]
  simp only [Option.getD_some, continuations?, found, Option.map_some, Option.bind_some]

theorem recordLine_none (H : History) (f : Nat) : H.recordLine f none = [] := by
  cases f <;> rfl

/-- `f` steps cover the slots of `H` whose nodes are not among `D`: no list of such slots,
without repeats, is longer. -/
def Covers (H : History) (D : NodeId → Prop) (f : Nat) : Prop :=
  ∀ l : List Nat, l.Nodup → (∀ i ∈ l, i < H.nodes.size ∧ ¬ D ⟨i⟩) → l.length ≤ f

namespace Covers

variable {H : History} {D D' : NodeId → Prop} {f : Nat}

theorem all (H : History) (D : NodeId → Prop) : Covers H D (H.nodes.size + 1) := by
  intro l nodup slots
  have within := (nodup.subperm fun i member => List.mem_range.mpr (slots i member).1).length_le
  rw [List.length_range] at within
  omega

theorem mono (covers : Covers H D f) (grows : ∀ x, D x → D' x) : Covers H D' f :=
  fun l nodup slots => covers l nodup fun i member =>
    ⟨(slots i member).1, fun done => (slots i member).2 (grows _ done)⟩

theorem pos (covers : Covers H D f) {node : NodeId} {n : Node} (found : H.node? node = some n)
    (fresh : ¬ D node) : 0 < f := by
  have one := covers [node.index] (List.nodup_singleton _) fun i member => by
    rw [List.mem_singleton.mp member]
    exact ⟨index_lt_of_node? found, fresh⟩
  simp only [List.length_singleton] at one
  omega

theorem insert (covers : Covers H D (f + 1)) {node : NodeId} {n : Node} (found : H.node? node = some n)
    (fresh : ¬ D node) : Covers H (fun x => D x ∨ x = node) f := by
  intro l nodup slots
  have out : node.index ∉ l := fun member => (slots _ member).2 (.inr rfl)
  have longer := covers (node.index :: l) (List.nodup_cons.mpr ⟨out, nodup⟩) fun i member => by
    rcases List.mem_cons.mp member with rfl | member
    · exact ⟨index_lt_of_node? found, fresh⟩
    · exact ⟨(slots i member).1, fun done => (slots i member).2 (.inl done)⟩
  simpa using longer

end Covers

namespace Rebuilds

variable {b0 : Board} {H C : History} {baseH baseC : Option NodeId → Board} {D : NodeId → Prop}
  {φ : NodeId → NodeId}

section Next

variable (recordedH : Recorded b0 baseH H) (rebuilds : Rebuilds b0 H baseH D φ C baseC) {node : NodeId}
  {n : Node} (found : H.node? node = some n) (opened : Opened D n.parent) {L : Array NodeId} {k : Nat}
  (listed : H.continuations? n.parent = some L) (at_ : L.toList[k]? = some node)
  (before : ∀ x ∈ L.toList, D x ↔ x ∈ L.toList.take k)

include recordedH rebuilds found opened listed at_ before in
/-- With the rebuilt part of its list behind it, the written move reads back from its coordinates
on the board reached at the image of its parent as a move no continuation there plays as, and
attaching its play rebuilds one node more, the next one. -/
theorem next_uci (current : C.current = n.parent.map φ) :
    ∃ km res, Uci.parse C.board n.move.uci = .ok km ∧ Distinct C km ∧ km.execute C.board = .ok res ∧
      Rebuilds b0 H baseH (fun x => D x ∨ x = node) (Function.update φ node ⟨C.nodes.size⟩)
        (C.attach res.1 res.2) (Function.update baseC (some ⟨C.nodes.size⟩) res.2) := by
  obtain ⟨v, n₀, r, σ, mir, cv, sv, legal, run, at', san, uci, plays⟩ :=
    listed_next recordedH rebuilds found opened current
  have sound := rebuilds.played.sound
  obtain ⟨km, res, σ', read, -, runK, mir', sanK, -, playsK⟩ :=
    Move.reads_uci_mirrored mir cv sound.coherent sv sound.settled legal run
  have playsRes : res.1.playsSame n.move = true := Move.playsSame_trans playsK plays
  have distinct := distinct_next recordedH rebuilds found opened listed at_ before current runK playsRes
  exact ⟨km, res, by rw [← uci]; exact read, distinct, runK,
    attach recordedH rebuilds found opened listed at_ before current
      (Uci.parse_listed sound.coherent sound.settled read) distinct runK ⟨σ', by rw [← at']; exact mir'⟩
      (sanK.trans san) playsRes⟩

end Next

end Rebuilds

end History

namespace GameRecord

variable {α β γ : Type}

/-- From every history satisfying `P`, with any journal, replaying with `act` ends in a result and
a history satisfying `Q`, a failure included. -/
def Triple (P : History → Prop) (act : ReplayM α) (Q : Except RecordError α → History → Prop) : Prop :=
  ∀ h j, P h → Q ((act.run.run h).run j).1.1 ((act.run.run h).run j).1.2

variable {P P' : History → Prop} {Q Q' : Except RecordError α → History → Prop}

theorem Triple.mono {act : ReplayM α} (spec : Triple P act Q) (pre : ∀ h, P' h → P h)
    (post : ∀ r h, Q r h → Q' r h) : Triple P' act Q' :=
  fun h j start => post _ _ (spec h j (pre h start))

theorem Triple.of_each {act : ReplayM α} (each : ∀ h₀, P h₀ → Triple (· = h₀) act Q) : Triple P act Q :=
  fun h j start => each h start h j rfl

theorem triple_pure (a : α) (post : ∀ h, P h → Q (.ok a) h) : Triple P (pure a) Q :=
  fun h _ start => post h start

theorem Triple.bind {R : Except RecordError α → History → Prop} {Q : Except RecordError β → History → Prop}
    {x : ReplayM α} {f : α → ReplayM β} (first : Triple P x R)
    (rest : ∀ a, Triple (R (.ok a)) (f a) Q) (failed : ∀ e h, R (.error e) h → Q (.error e) h) :
    Triple P (x >>= f) Q := by
  intro h j start
  have mid := first h j start
  simp only [ExceptT.run_bind, StateT.run_bind]
  generalize ((x.run.run h).run j) = out at mid ⊢
  obtain ⟨⟨r, h'⟩, j'⟩ := out
  cases r with
  | error e => exact failed e h' mid
  | ok a => exact rest a h' j' mid

theorem triple_get_bind {Q : Except RecordError β → History → Prop} {f : History → ReplayM β}
    (rest : ∀ h₀, P h₀ → Triple (· = h₀) (f h₀) Q) : Triple P (get >>= f) Q :=
  fun h j start => rest h start h j rfl

theorem triple_lift_bind {Q : Except RecordError β → History → Prop} {act : Noted γ} (blind : act.Blind)
    {f : γ → ReplayM β} (rest : Triple P (f act.quiet) Q) : Triple P (monadLift act >>= f) Q := by
  intro h j start
  have post := rest h ((act.run j).2) start
  rw [← blind j] at post
  exact post

theorem triple_throw_bind {Q : Except RecordError β → History → Prop} (e : RecordError)
    {f : α → ReplayM β} (post : ∀ h, P h → Q (.error e) h) : Triple P (throw e >>= f) Q :=
  fun h _ start => post h start

theorem triple_step {Q : Except MoveError α → History → Prop} {act : HistoryM α}
    (spec : History.Triple P act Q) (uci : String) :
    Triple P (step uci act) fun r h => ∃ r₀, Q r₀ h ∧ r = r₀.mapError (RecordError.move uci) := by
  intro h j start
  refine ⟨_, spec h j start, ?_⟩
  unfold step ExceptT.adapt
  simp only [ExceptT.run_mk, StateT.run_map]
  rfl

/-! ### The steps of a replay -/

section Steps

variable {b0 : Board}

theorem triple_goTo_present {C : History} (anchored : History.Anchored b0 C) {target : Option NodeId}
    (present : ∀ id, target = some id → C.contains id = true) (uci : String) :
    Triple (· = C) (step uci (History.goTo target)) fun r h =>
      r = .ok ⟨⟩ ∧ History.Anchored b0 h ∧ History.SameTree C h ∧ h.current = target := by
  refine (triple_step (History.fires_goTo anchored present).triple uci).mono (fun _ same => same) ?_
  rintro r h ⟨r₀, ⟨e, ok, -, anchored', same, current⟩, rfl⟩
  subst ok
  exact ⟨rfl, anchored', same, current⟩

/-- A move whose coordinates read on the board as a move no continuation plays as, and that plays
there, is attached as a new node; its variations and the rest of its line are replayed from
there. -/
theorem triple_replayLine_attach {C : History} {uci san : String} {vars : List (List RecordMove)}
    {rest : List RecordMove} {k : Move} (read : Uci.parse C.board uci = .ok k)
    (distinct : History.Distinct C k) {res : Move × Board} (run : k.execute C.board = .ok res)
    {Q : Except RecordError Unit → History → Prop}
    (after : Triple (· = C.attach res.1 res.2)
      (replayVariations uci C.current ⟨C.nodes.size⟩ vars >>= fun _ => replayLine rest) Q) :
    Triple (· = C) (replayLine (.mk uci san vars :: rest)) Q := by
  rw [replayLine]
  refine triple_get_bind fun h same => ?_
  subst h
  refine triple_lift_bind (Uci.blind_parseNoted C.board uci) ?_
  have quiet : (Uci.parseNoted C.board uci).quiet = .ok k := read
  rw [quiet]
  simp only [pure_bind]
  refine Triple.bind (R := fun r h' => r = .ok ⟨C.nodes.size⟩ ∧ h' = C.attach res.1 res.2) ?_
    (fun node => ?_) fun _ _ post => by cases post.1
  · refine (triple_step (History.triple_add_fresh distinct run) uci).mono (fun _ same => same) ?_
    rintro r h' ⟨r₀, ⟨rfl, rfl⟩, rfl⟩
    exact ⟨rfl, rfl⟩
  · intro h' j post
    obtain ⟨ok, rfl⟩ := post
    cases ok
    exact after _ j rfl

end Steps

/-! ### The start kept -/

mutual

theorem triple_replayLine_startFen {s : String} : ∀ line : List RecordMove,
    Triple (·.startFen = s) (replayLine line) fun _ h => h.startFen = s
  | [] => by
    rw [replayLine]
    exact triple_pure _ fun _ post => post
  | .mk uci _ variations :: rest => by
    rw [replayLine]
    refine triple_get_bind fun h start => ?_
    refine triple_lift_bind (Uci.blind_parseNoted h.board uci) ?_
    cases (Uci.parseNoted h.board uci).quiet with
    | error e => exact triple_throw_bind _ fun _ same => same ▸ start
    | ok m =>
      simp only [pure_bind]
      refine Triple.bind (R := fun _ h' => h'.startFen = s)
        ((triple_step (History.triple_add_startFen m) uci).mono (fun _ same => same ▸ start)
          fun _ _ post => post.elim fun _ kept => kept.1)
        (fun node => Triple.bind (triple_replayVariations_startFen uci h.current node variations)
          (fun _ => triple_replayLine_startFen rest) fun _ _ post => post) fun _ _ post => post

theorem triple_replayVariations_startFen {s : String} (uci : String) (parent : Option NodeId)
    (node : NodeId) : ∀ lines : List (List RecordMove),
    Triple (·.startFen = s) (replayVariations uci parent node lines) fun _ h => h.startFen = s
  | [] => by
    rw [replayVariations]
    exact triple_pure _ fun _ post => post
  | line :: lines => by
    rw [replayVariations]
    have going : ∀ target, Triple (·.startFen = s) (step uci (History.goTo target))
        fun _ h => h.startFen = s := fun target =>
      (triple_step (History.triple_goTo_startFen target) uci).mono (fun _ post => post)
        fun _ _ post => post.elim fun _ kept => kept.1
    exact Triple.bind (going parent) (fun _ => Triple.bind (triple_replayLine_startFen line)
      (fun _ => Triple.bind (going (some node)) (fun _ => triple_replayVariations_startFen uci parent node lines)
        fun _ _ post => post) fun _ _ post => post) fun _ _ post => post

end

theorem triple_replay_startFen {s : String} (moves : List RecordMove) :
    Triple (·.startFen = s) (do replayLine moves; step "" History.rewind) fun _ h => h.startFen = s :=
  Triple.bind (triple_replayLine_startFen moves)
    (fun _ => (triple_step (History.triple_goTo_startFen none) "").mono (fun _ post => post)
      fun _ _ post => post.elim fun _ kept => kept.1) fun _ _ post => post

/-! ### Replaying the lines of a tree -/

section Lines

variable {b0 : Board} {H : History} {baseH : Option NodeId → Board}

/-- Replaying, in `f` steps, the recorded line of the `k`-th node of the list after `o`, with the
nodes before it rebuilt, the replay at the image of `o`, and `f` steps covering the slots not yet
rebuilt: it rebuilds the node and everything below it, and from the first node of a list the
other nodes' lines too, so the list is rebuilt up to the node, or whole. -/
def ReplaysLine (b0 : Board) (H : History) (baseH : Option NodeId → Board) (f : Nat) : Prop :=
  ∀ (o : Option NodeId) (L : Array NodeId) (k : Nat) (node : NodeId) (D : NodeId → Prop)
    (φ : NodeId → NodeId) (C : History) (baseC : Option NodeId → Board),
    History.Rebuilds b0 H baseH D φ C baseC → History.Opened D o → H.continuations? o = some L →
    L.toList[k]? = some node → (∀ x ∈ L.toList, D x ↔ x ∈ L.toList.take k) → C.current = o.map φ →
    History.Covers H D f →
    Triple (· = C) (replayLine (H.recordLine f (some node))) fun r C' =>
      ∃ D' φ' baseC', r = .ok ⟨⟩ ∧ History.Rebuilds b0 H baseH D' φ' C' baseC' ∧
        History.Processed H D D' φ φ' o ∧
        ∀ x ∈ L.toList, D' x ↔ x ∈ L.toList.take (if k = 0 then L.toList.length else k + 1)

theorem triple_firstLine {f : Nat} (line : ReplaysLine b0 H baseH f) {o : Option NodeId}
    {L : Array NodeId} {D : NodeId → Prop} {φ : NodeId → NodeId} {C : History}
    {baseC : Option NodeId → Board} (rebuilds : History.Rebuilds b0 H baseH D φ C baseC)
    (opened : History.Opened D o) (listed : H.continuations? o = some L) (fresh : ∀ x ∈ L.toList, ¬ D x)
    (current : C.current = o.map φ) (covers : History.Covers H D f) :
    Triple (· = C) (replayLine (H.recordLine f L[0]?)) fun r C' =>
      ∃ D' φ' baseC', r = .ok ⟨⟩ ∧ History.Rebuilds b0 H baseH D' φ' C' baseC' ∧
        History.Processed H D D' φ φ' o ∧ ∀ x ∈ L.toList, D' x := by
  cases first : L[0]? with
  | none =>
    rw [History.recordLine_none, replayLine]
    refine triple_pure _ fun C' same => ⟨D, φ, baseC, rfl, same ▸ rebuilds, .refl H D φ o, ?_⟩
    have empty : L.size = 0 := by simpa using first
    intro x member
    simp [← Array.length_toList, List.length_eq_zero_iff] at empty
    simp [empty] at member
  | some node =>
    have at_ : L.toList[0]? = some node := by simpa using first
    refine (line o L 0 node D φ C baseC rebuilds opened listed at_
      (fun x member => by simp [fresh x member]) current covers).mono (fun _ same => same) ?_
    rintro r C' ⟨D', φ', baseC', ok, rebuilds', processed, done⟩
    exact ⟨D', φ', baseC', ok, rebuilds', processed, fun x member =>
      (done x member).mpr (by rw [if_pos rfl, List.take_length]; exact member)⟩

/-- Replaying the lines of the nodes after the `j`-th of a list as variations, each from the image
of the list's owner and back to the node's image, rebuilds the rest of the list and everything
below it. -/
theorem triple_variations {f : Nat} (line : ReplaysLine b0 H baseH f) {o : Option NodeId}
    {L : Array NodeId} (listed : H.continuations? o = some L) {uci : String} {start : Option NodeId}
    {node image : NodeId} :
    ∀ (vs : List NodeId) (j : Nat) (D : NodeId → Prop) (φ : NodeId → NodeId) (C : History)
      (baseC : Option NodeId → Board), L.toList.drop j = vs → 0 < j →
      History.Rebuilds b0 H baseH D φ C baseC → History.Opened D o → o.map φ = start → D node →
      φ node = image → C.current = some image → (∀ x ∈ L.toList, D x ↔ x ∈ L.toList.take j) →
      History.Covers H D f →
      Triple (· = C) (replayVariations uci start image (vs.map fun v => H.recordLine f (some v)))
        fun r C' => ∃ D' φ' baseC', r = .ok ⟨⟩ ∧ History.Rebuilds b0 H baseH D' φ' C' baseC' ∧
          History.Processed H D D' φ φ' o ∧ C'.current = some image ∧ ∀ x ∈ L.toList, D' x
  | [], j, D, φ, C, baseC, rest, _, rebuilds, _, _, _, _, current, done, _ => by
    rw [List.map_nil, replayVariations]
    refine triple_pure _ fun C' same =>
      ⟨D, φ, baseC, rfl, same ▸ rebuilds, .refl H D φ o, same ▸ current, fun x member => ?_⟩
    have whole : L.toList.take j = L.toList := List.take_of_length_le (List.drop_eq_nil_iff.mp rest)
    exact (done x member).mpr (by rw [whole]; exact member)
  | v :: vs, j, D, φ, C, baseC, rest, positive, rebuilds, opened, owner, done, imaged, current, before,
      covers => by
    have at_ : L.toList[j]? = some v := by
      simpa [List.head?_drop] using congrArg List.head? rest
    have tail : L.toList.drop (j + 1) = vs := by
      rw [← List.drop_drop, rest]
      rfl
    rw [List.map_cons, replayVariations]
    refine Triple.bind (R := fun r h' => r = .ok ⟨⟩ ∧ History.Anchored b0 h' ∧ History.SameTree C h' ∧
        h'.current = start)
      (triple_goTo_present rebuilds.played.anchored (fun id target => ?_) uci) (fun _ => ?_)
      fun _ _ post => by cases post.1
    · rw [← owner] at target
      obtain ⟨x, rfl, same⟩ := Option.map_eq_some_iff.mp target
      exact same ▸ rebuilds.contains_image opened
    refine Triple.of_each fun C₁ post => ?_
    obtain ⟨-, anchored₁, same₁, current₁⟩ := post
    refine Triple.bind (line o L j v D φ C₁ baseC (rebuilds.sameTree same₁ anchored₁.1) opened
        listed at_ before (by rw [current₁, owner]) covers) (fun _ => ?_)
      fun _ _ post => ?_
    · refine Triple.of_each fun C₂ post => ?_
      obtain ⟨D₂, φ₂, baseC₂, -, rebuilds₂, processed₂, done₂⟩ := post
      obtain ⟨node₂, image₂⟩ := processed₂.keeps node done
      refine Triple.bind (R := fun r h' => r = .ok ⟨⟩ ∧ History.Anchored b0 h' ∧
          History.SameTree C₂ h' ∧ h'.current = some image)
        (triple_goTo_present rebuilds₂.played.anchored (fun id target => ?_) uci) (fun _ => ?_)
        fun _ _ post => by cases post.1
      · rw [← Option.some.inj target, ← imaged, ← image₂]
        exact rebuilds₂.contains_image node₂
      refine Triple.of_each fun C₃ post => ?_
      obtain ⟨-, anchored₃, same₃, current₃⟩ := post
      refine ((triple_variations line listed vs (j + 1) D₂ φ₂ C₃ baseC₂ tail (by omega)
        (rebuilds₂.sameTree same₃ anchored₃.1) (processed₂.opened opened)
        (by rw [processed₂.map_eq opened, owner]) node₂ (by rw [image₂, imaged]) current₃
        (fun x member => by simpa [Nat.pos_iff_ne_zero.mp positive] using done₂ x member)
        (covers.mono fun x done => (processed₂.keeps x done).1))).mono (fun _ same => same) ?_
      rintro r C' ⟨D', φ', baseC', ok, rebuilds', processed', current', all'⟩
      exact ⟨D', φ', baseC', ok, rebuilds', processed₂.trans processed' fun _ _ other => other,
        current', all'⟩
    · obtain ⟨_, _, _, ok, _⟩ := post
      cases ok

theorem replaysLine (recordedH : History.Recorded b0 baseH H) : ∀ f, ReplaysLine b0 H baseH f
  | 0 => by
    intro o L k node D φ C baseC rebuilds opened listed at_ before current covers
    obtain ⟨n, found, rfl⟩ := recordedH.sound.shaped.entries o L listed node (List.mem_of_getElem? at_)
    exact absurd (covers.pos found (History.Rebuilds.not_done_next recordedH listed at_ before))
      (Nat.lt_irrefl 0)
  | f + 1 => by
    intro o L k node D φ C baseC rebuilds opened listed at_ before current covers
    have shaped := recordedH.sound.shaped
    obtain ⟨n, found, rfl⟩ := shaped.entries o L listed node (List.mem_of_getElem? at_)
    have notDone := History.Rebuilds.not_done_next recordedH listed at_ before
    have notOwn : n.parent ≠ some node := fun own =>
      absurd (shaped.parent node n found node own).2 (Nat.lt_irrefl _)
    have children := History.Rebuilds.fresh_children recordedH rebuilds found notDone
    have childList : H.continuations? (some node) = some n.continuations := by
      simp [History.continuations?, found]
    have covers₁ := covers.insert found notDone
    obtain ⟨km, res, read, distinct, run, rebuilds₁⟩ :=
      rebuilds.next_uci recordedH found opened listed at_ before current
    have opened₁ : History.Opened (fun x => D x ∨ x = node) n.parent := opened.mono fun _ d => .inl d
    rw [History.recordLine_succ_of_node f found listed]
    refine triple_replayLine_attach read distinct run ?_
    by_cases first : k = 0
    · subst first
      have head : L[0]? = some node := by simpa using at_
      rw [if_pos head]
      refine Triple.bind (triple_variations (replaysLine recordedH f) listed (L.toList.drop 1) 1 _ _ _ _
          rfl Nat.one_pos rebuilds₁ opened₁ (by rw [opened.map_update notDone, current]) (.inr rfl)
          (Function.update_self ..) (by simp) (History.Rebuilds.done_take_succ at_ before) covers₁)
        (fun _ => ?_) fun _ _ post => ?_
      · refine Triple.of_each fun C₂ post => ?_
        obtain ⟨D₂, φ₂, baseC₂, -, rebuilds₂, processed₂, current₂, all₂⟩ := post
        have fresh₂ : ∀ y ∈ n.continuations.toList, ¬ D₂ y := fun y member done =>
          children y member (processed₂.frame (some node) (.inr rfl) (Ne.symm notOwn) _ childList y member
            done)
        have image₂ := (processed₂.keeps node (.inr rfl)).2
        refine (triple_firstLine (replaysLine recordedH f) rebuilds₂
          ((History.opened_some D₂ node).mpr (processed₂.keeps node (.inr rfl)).1)
          childList fresh₂ (by rw [current₂, Option.map_some, image₂, Function.update_self])
          (covers₁.mono fun x done => (processed₂.keeps x done).1)).mono (fun _ same => same) ?_
        rintro r C' ⟨D', φ', baseC', ok, rebuilds', processed', full⟩
        refine ⟨D', φ', baseC', ok, rebuilds',
          processed₂.line shaped found notDone processed' full, fun x member => ?_⟩
        rw [if_pos rfl, List.take_length]
        exact iff_of_true (processed'.keeps x (all₂ x member)).1 member
      · obtain ⟨_, _, _, ok, _⟩ := post
        cases ok
    · have notHead : ¬ L[0]? = some node := fun head => by
        have at₀ : L.toList[0]? = some node := by simpa using head
        obtain ⟨inside₀, same₀⟩ := List.getElem?_eq_some_iff.mp at₀
        obtain ⟨inside, same⟩ := List.getElem?_eq_some_iff.mp at_
        exact first ((shaped.nodup listed).getElem_inj_iff.mp (same₀.trans same.symm)).symm
      rw [if_neg notHead, replayVariations, pure_bind]
      refine (triple_firstLine (replaysLine recordedH f) rebuilds₁
        ((History.opened_some _ node).mpr (.inr rfl)) childList children (by simp) covers₁).mono
        (fun _ same => same) ?_
      rintro r C' ⟨D', φ', baseC', ok, rebuilds', processed, full⟩
      refine ⟨D', φ', baseC', ok, rebuilds',
        (History.Processed.refl H _ _ n.parent).line shaped found notDone processed full,
        fun x member => ?_⟩
      rw [if_neg first, ← History.Rebuilds.done_take_succ at_ before x member]
      exact ⟨processed.frame n.parent opened₁ notOwn L listed x member,
        fun done => (processed.keeps x done).1⟩

theorem triple_replay_rebuilds (recordedH : History.Recorded b0 baseH H) (coherent : b0.Coherent)
    (settled : b0.Settled) :
    Triple (· = History.new b0)
      (do replayLine (H.recordLine (H.nodes.size + 1) H.root[0]?); step "" History.rewind)
      fun r C => r = .ok ⟨⟩ ∧ ∃ D φ baseC, History.Rebuilds b0 H baseH D φ C baseC ∧
        (∀ x, H.contains x = true → D x) ∧ C.current = none := by
  unfold History.rewind
  refine Triple.bind (triple_firstLine (replaysLine recordedH _)
      (History.Rebuilds.start recordedH coherent settled) (History.opened_none _) rfl
      (fun _ _ never => never) rfl (History.Covers.all H _)) (fun _ => ?_) fun _ _ post => ?_
  · refine Triple.of_each fun C post => ?_
    obtain ⟨D, φ, baseC, -, rebuilds, processed, root⟩ := post
    refine (triple_goTo_present rebuilds.played.anchored
      (fun _ (unreached : (none : Option NodeId) = some _) => by cases unreached) "").mono
      (fun _ same => same) ?_
    rintro r C' ⟨ok', anchored', same', current'⟩
    exact ⟨ok', D, φ, baseC, rebuilds.sameTree same' anchored'.1,
      fun x live => processed.covers recordedH.sound.shaped root live, current'⟩
  · obtain ⟨_, _, _, ok, _⟩ := post
    cases ok

end Lines

end GameRecord

end Chess
