import Chess.Proofs.Pgn.Reading

namespace Chess

/-! Reading back the items a tree writes. The reader plays each move from its text on the board
it has reached and goes back for each variation; node by node, in the order the items name them,
it rebuilds the tree. A rebuilt node stands for one node of the written tree: its parent stands
for that node's parent, its move plays as that node's move and is written the same, and the
positions at the two mirror each other up to the names of the pieces. After the start and after
each rebuilt node, the nodes rebuilt so far are the first ones of the written list, in its order.
Reading the line from a node rebuilds the node and everything below it, and touches no other
list, so reading the whole movetext rebuilds the whole tree. -/

namespace List

variable {α : Type} {l : List α} {a : α} {k : Nat}

theorem not_mem_take_of_getElem? (nodup : l.Nodup) (at_ : l[k]? = some a) : a ∉ l.take k := by
  intro member
  obtain ⟨i, bound, same⟩ := List.mem_take_iff_getElem.mp member
  obtain ⟨inside, rfl⟩ := List.getElem?_eq_some_iff.mp at_
  have := nodup.getElem_inj_iff.mp same
  omega

theorem take_eq_take_of_mem_iff {i j : Nat} (nodup : l.Nodup)
    (same : ∀ x ∈ l, x ∈ l.take i ↔ x ∈ l.take j) : l.take i = l.take j := by
  have shorter : ∀ {i j : Nat}, (∀ x ∈ l, x ∈ l.take j → x ∈ l.take i) →
      min j l.length ≤ min i l.length := by
    intro i j within
    refine Nat.le_of_not_lt fun longer => ?_
    have inside : min i l.length < l.length := by omega
    obtain ⟨t, bound, same⟩ := List.mem_take_iff_getElem.mp (within _ (List.getElem_mem inside)
      (List.mem_take_iff_getElem.mpr ⟨min i l.length, longer, rfl⟩))
    have := nodup.getElem_inj_iff.mp same
    omega
  exact List.take_eq_take_iff.mpr
    (Nat.le_antisymm (shorter fun x m => (same x m).mp) (shorter fun x m => (same x m).mpr))

theorem Pairwise.rel_of_mem_take {R : α → α → Prop} (pairwise : l.Pairwise R) (at_ : l[k]? = some a)
    {y : α} (member : y ∈ l.take k) : R y a := by
  obtain ⟨i, bound, rfl⟩ := List.mem_take_iff_getElem.mp member
  obtain ⟨inside, rfl⟩ := List.getElem?_eq_some_iff.mp at_
  exact List.pairwise_iff_getElem.mp pairwise i k _ inside (by omega)

end List

namespace Move

@[simp] theorem san_with_executed (m : Move) (e : Bool) : { m with executed := e }.san = m.san := rfl

@[simp] theorem playsSame_with_executed (m n : Move) (e : Bool) :
    { m with executed := e }.playsSame n = m.playsSame n := rfl

end Move

namespace History

def Opened (D : NodeId → Prop) : Option NodeId → Prop
  | none => True
  | some x => D x

@[simp] theorem opened_none (D : NodeId → Prop) : Opened D none := trivial

@[simp] theorem opened_some (D : NodeId → Prop) (x : NodeId) : Opened D (some x) ↔ D x := Iff.rfl

theorem Opened.mono {D D' : NodeId → Prop} (grows : ∀ x, D x → D' x) :
    ∀ {o : Option NodeId}, Opened D o → Opened D' o
  | none, _ => trivial
  | some x, opened => grows x opened

theorem Opened.of_insert {D : NodeId → Prop} {node : NodeId} :
    ∀ {o : Option NodeId}, Opened (fun x => D x ∨ x = node) o → o ≠ some node → Opened D o
  | none, _, _ => trivial
  | some _, opened, other => opened.resolve_right fun same => other (same ▸ rfl)

theorem Opened.map_update {D : NodeId → Prop} {node : NodeId} (fresh : ¬ D node) (φ : NodeId → NodeId)
    (c : NodeId) : ∀ {o : Option NodeId}, Opened D o → o.map (Function.update φ node c) = o.map φ
  | none, _ => rfl
  | some x, opened => by
    simp [Function.update_of_ne (fun (same : x = node) => fresh (same ▸ opened))]

theorem contains_of_node? {h : History} {x : NodeId} {n : Node} (found : h.node? x = some n) :
    h.contains x = true := by
  simp [contains, found]

theorem Shaped.contains_of_listed {h : History} (shaped : h.Shaped) {o : Option NodeId}
    {L : Array NodeId} (listed : h.continuations? o = some L) {x : NodeId} (member : x ∈ L.toList) :
    h.contains x = true := by
  obtain ⟨n, found, -⟩ := shaped.entries o L listed x member
  exact contains_of_node? found

theorem Played.lt_of_mem_drop_one {b0 : Board} {base : Option NodeId → Board} {h : History}
    (played : Played b0 base h) {o : Option NodeId} {L : Array NodeId} (listed : h.continuations? o = some L)
    {node : NodeId} (first : L.toList[0]? = some node) {x : NodeId} (member : x ∈ L.toList.drop 1) :
    node.index < x.index := by
  obtain ⟨rest, split⟩ : ∃ rest, L.toList = node :: rest := by
    cases list : L.toList with
    | nil => simp [list] at first
    | cons y rest => simp_all
  have ordered := played.ordered o L listed
  rw [split] at ordered
  rw [split, List.drop_one, List.tail_cons] at member
  exact List.rel_of_pairwise_cons ordered member

theorem SameTree.get? {h h' : History} (same : SameTree h h') {x : NodeId} {m : Move}
    (got : h.get? x = some m) : ∃ e, h'.get? x = some { m with executed := e } := by
  obtain ⟨n, found, rfl⟩ := Option.map_eq_some_iff.mp got
  obtain ⟨n', found', -, -⟩ := same.keepsTree x n found
  obtain ⟨n₀, found₀, move⟩ := same.moves x n' found'
  rw [found] at found₀
  cases found₀
  exact ⟨n'.move.executed, by simp only [History.get?, found', Option.map_some]; exact congrArg some move⟩

/-- `C`, grown by play from `b0`, rebuilds the nodes `D` of `H`, node `x` as `φ x`: each rebuilt
move plays as the written one and is written the same, the images of `D` are all of `C` and
differ, after the start and after each rebuilt node `C` lists the images of the first nodes of
`H`'s list, those rebuilt, and the positions at the two places mirror each other. -/
structure Rebuilds (b0 : Board) (H : History) (baseH : Option NodeId → Board) (D : NodeId → Prop)
    (φ : NodeId → NodeId) (C : History) (baseC : Option NodeId → Board) : Prop where
  played : Played b0 baseC C
  closed : ∀ x, D x → Opened D (H.parent? x)
  moves : ∀ x, D x → ∃ m m', H.get? x = some m ∧ C.get? (φ x) = some m' ∧ m'.san = m.san ∧
    m'.playsSame m = true
  injective : ∀ x y, D x → D y → φ x = φ y → x = y
  onto : ∀ y, C.contains y = true → ∃ x, D x ∧ φ x = y
  lists : ∀ o, Opened D o → ∃ L k, H.continuations? o = some L ∧
    (C.continuations? (o.map φ)).map Array.toList = some ((L.toList.take k).map φ) ∧
    ∀ x ∈ L.toList, D x ↔ x ∈ L.toList.take k
  boards : ∀ o, Opened D o → ∃ σ, Board.Mirrors σ (baseH o) (baseC (o.map φ))

namespace Rebuilds

variable {b0 : Board} {H C : History} {baseH baseC : Option NodeId → Board} {D : NodeId → Prop}
  {φ : NodeId → NodeId}

theorem start (recordedH : Recorded b0 baseH H) (coherent : b0.Coherent) (settled : b0.Settled) :
    Rebuilds b0 H baseH (fun _ => False) id (History.new b0) fun _ => b0 where
  played := Played.new coherent settled
  closed _ := False.elim
  moves _ := False.elim
  injective _ _ := False.elim
  onto y live := by simp [History.new, contains, node?] at live
  lists o opened := by
    cases o with
    | none => exact ⟨H.root, 0, rfl, by simp [History.new, continuations?], by simp⟩
    | some x => exact opened.elim
  boards o opened := by
    cases o with
    | none =>
      refine ⟨id, ?_⟩
      show Board.Mirrors id (baseH none) b0
      rw [recordedH.start]
      exact (Board.Restores.refl b0).mirrors
    | some x => exact opened.elim

section Facts

variable (rebuilds : Rebuilds b0 H baseH D φ C baseC)
include rebuilds

theorem live {x : NodeId} (done : D x) : ∃ n, H.node? x = some n := by
  obtain ⟨m, -, got, -⟩ := rebuilds.moves x done
  obtain ⟨n, found, -⟩ := Option.map_eq_some_iff.mp got
  exact ⟨n, found⟩

theorem image_live {x : NodeId} (done : D x) : ∃ n', C.node? (φ x) = some n' := by
  obtain ⟨-, m', -, got, -⟩ := rebuilds.moves x done
  obtain ⟨n', found, -⟩ := Option.map_eq_some_iff.mp got
  exact ⟨n', found⟩

theorem contains_image {x : NodeId} (done : D x) : C.contains (φ x) = true := by
  obtain ⟨n', found⟩ := rebuilds.image_live done
  exact contains_of_node? found

theorem image_ne_size {x : NodeId} (done : D x) : φ x ≠ ⟨C.nodes.size⟩ := by
  obtain ⟨n', found⟩ := rebuilds.image_live done
  exact ne_size_of_node? found

theorem map_ne_size {o : Option NodeId} (opened : Opened D o) : o.map φ ≠ some ⟨C.nodes.size⟩ := by
  cases o with
  | none => simp
  | some x => exact fun same => rebuilds.image_ne_size opened (Option.some.inj same)

theorem map_inj {o o' : Option NodeId} (opened : Opened D o) (opened' : Opened D o')
    (same : o.map φ = o'.map φ) : o = o' := by
  cases o with
  | none => cases o' <;> simp_all
  | some x =>
    cases o' with
    | none => simp at same
    | some y => exact congrArg some (rebuilds.injective x y opened opened' (Option.some.inj same))

theorem list_eq (recordedH : Recorded b0 baseH H) {o : Option NodeId} (opened : Opened D o)
    {L : Array NodeId} (listed : H.continuations? o = some L) {j : Nat}
    (done : ∀ x ∈ L.toList, D x ↔ x ∈ L.toList.take j) :
    (C.continuations? (o.map φ)).map Array.toList = some ((L.toList.take j).map φ) := by
  obtain ⟨L', k, listed', list, done'⟩ := rebuilds.lists o opened
  rw [listed] at listed'
  cases listed'
  rw [list, List.take_eq_take_of_mem_iff (recordedH.sound.shaped.nodup listed)
    fun x member => (done' x member).symm.trans (done x member)]

theorem parent (recordedH : Recorded b0 baseH H) {x : NodeId} (done : D x) :
    C.parent? (φ x) = (H.parent? x).map φ := by
  obtain ⟨n, found⟩ := rebuilds.live done
  obtain ⟨L, listed, count⟩ := recordedH.sound.shaped.listed x n found
  have member : x ∈ L.toList := List.count_pos_iff.mp (by omega)
  have opened : Opened D n.parent := by simpa [parent?, found] using rebuilds.closed x done
  obtain ⟨L', k, listed', list, done'⟩ := rebuilds.lists n.parent opened
  rw [listed] at listed'
  cases listed'
  obtain ⟨cl, clisted, same⟩ := Option.map_eq_some_iff.mp list
  have image : φ x ∈ cl.toList := by
    rw [same]
    exact List.mem_map_of_mem ((done' x member).mp done)
  obtain ⟨n', found', parent'⟩ := rebuilds.played.sound.shaped.entries _ cl clisted (φ x) image
  simp [parent?, found', parent', found]

theorem sameTree {C' : History} (same : SameTree C C') (sound : Sound b0 C') :
    Rebuilds b0 H baseH D φ C' baseC where
  played := rebuilds.played.sameTree same sound
  closed := rebuilds.closed
  moves x done := by
    obtain ⟨m, m', got, got', san, plays⟩ := rebuilds.moves x done
    obtain ⟨e, got''⟩ := same.get? got'
    exact ⟨m, _, got, got'', by simpa using san, by simpa using plays⟩
  injective := rebuilds.injective
  onto y live := rebuilds.onto y (by rwa [same.contains] at live)
  lists o opened := by
    rw [same.lists]
    exact rebuilds.lists o opened
  boards := rebuilds.boards

end Facts

/-! ### The next move of a list -/

section Next

variable (recordedH : Recorded b0 baseH H) (rebuilds : Rebuilds b0 H baseH D φ C baseC) {node : NodeId}
  {n : Node} (found : H.node? node = some n) (opened : Opened D n.parent) {L : Array NodeId} {k : Nat}
  (listed : H.continuations? n.parent = some L) (at_ : L.toList[k]? = some node)
  (before : ∀ x ∈ L.toList, D x ↔ x ∈ L.toList.take k)

include recordedH listed at_ before in
theorem not_done_next : ¬ D node := fun done =>
  List.not_mem_take_of_getElem? (recordedH.sound.shaped.nodup listed) at_
    ((before node (List.mem_of_getElem? at_)).mp done)

include recordedH rebuilds found opened in
theorem listed_next (current : C.current = n.parent.map φ) :
    ∃ v n₀ r σ, Board.Mirrors σ v C.board ∧ v.Coherent ∧ v.Settled ∧ n₀ ∈ v.legalMoves ∧
      n₀.execute v = .ok r ∧ r.2 = baseH (some node) ∧ r.1.san = n.move.san ∧
      r.1.uci = n.move.uci ∧ r.1.playsSame n.move = true := by
  obtain ⟨v, n₀, r, returns, cv, sv, legal, run, at', stored⟩ := recordedH.listed node n found
  obtain ⟨σ, mir⟩ := rebuilds.boards n.parent opened
  have anchored : Board.Mirrors id (baseC (n.parent.map φ)) C.board := by
    rw [← current]
    exact rebuilds.played.anchors.board.toRestores.mirrors
  refine ⟨v, n₀, r, _, (returns.toRestores.mirrors_symm.comp mir).comp anchored, cv, sv, legal, run,
    at', ?_, ?_, ?_⟩
  · rw [stored]
    rfl
  · rw [stored]
    rfl
  · rw [stored, Move.playsSame_comm]
    exact Move.playsSame_executed r.1 _

include recordedH rebuilds found opened listed at_ before in
theorem distinct_next (current : C.current = n.parent.map φ) {km : Move} {res : Move × Board}
    (runK : km.execute C.board = .ok res) (plays : res.1.playsSame n.move = true) : Distinct C km := by
  intro list clisted x member other got
  rw [current] at clisted
  have rebuilt := rebuilds.list_eq recordedH opened listed before
  rw [clisted, Option.map_some] at rebuilt
  obtain ⟨y, earlier, rfl⟩ := List.mem_map.mp ((Option.some.inj rebuilt) ▸ member)
  obtain ⟨my, m'y, gotH, gotC, -, playsY⟩ :=
    rebuilds.moves y ((before y (List.mem_of_mem_take earlier)).mpr earlier)
  rw [gotC] at got
  cases got
  have apart := List.Pairwise.rel_of_mem_take (recordedH.sound.shaped.apart n.parent L listed) at_
    earlier my n.move gotH (by simp [get?, found])
  refine Bool.eq_false_iff.mpr fun same => ?_
  have joined : my.playsSame n.move = true :=
    Move.playsSame_trans (by rw [Move.playsSame_comm]; exact playsY) (Move.playsSame_trans same
      (Move.playsSame_trans (by rw [Move.playsSame_comm]; exact Move.playsSame_execute runK) plays))
  rw [apart] at joined
  cases joined

include recordedH rebuilds found opened listed at_ before in
/-- With the rebuilt part of its list behind it, the written move reads back on the board reached
at the image of its parent as a move that plays as it, none of the continuations there plays
as it, and it plays to a position mirroring the written node's. -/
theorem reads_next (current : C.current = n.parent.map φ) :
    ∃ km res, San.parse C.board n.move.san = .ok km ∧ Distinct C km ∧ km.execute C.board = .ok res ∧
      (∃ σ, Board.Mirrors σ (baseH (some node)) res.2) ∧ res.1.san = n.move.san ∧
      res.1.playsSame n.move = true := by
  obtain ⟨v, n₀, r, σ, mir, cv, sv, legal, run, at', san, -, plays⟩ :=
    listed_next recordedH rebuilds found opened current
  have sound := rebuilds.played.sound
  obtain ⟨km, res, σ', read, -, runK, mir', sanK, playsK⟩ :=
    Move.reads_mirrored mir cv sound.coherent sv sound.settled legal run
  have playsRes : res.1.playsSame n.move = true := Move.playsSame_trans playsK plays
  exact ⟨km, res, by rw [← san]; exact read,
    distinct_next recordedH rebuilds found opened listed at_ before current runK playsRes, runK,
    ⟨σ', by rw [← at']; exact mir'⟩, sanK.trans san, playsRes⟩

include recordedH rebuilds found in
theorem fresh_children (notDone : ¬ D node) : ∀ y ∈ n.continuations.toList, ¬ (D y ∨ y = node) := by
  intro y member
  obtain ⟨ny, fy, py⟩ := recordedH.sound.shaped.entries (some node) n.continuations
    (by simp [continuations?, found]) y member
  rintro (done | rfl)
  · exact notDone (by simpa [parent?, fy, py] using rebuilds.closed y done)
  · rw [found] at fy
    cases fy
    exact absurd (recordedH.sound.shaped.parent y n found y py).2 (Nat.lt_irrefl _)

include at_ before in
theorem done_take_succ : ∀ x ∈ L.toList, (D x ∨ x = node) ↔ x ∈ L.toList.take (k + 1) := by
  intro x member
  rw [List.take_add_one, at_, Option.toList_some, List.mem_append, List.mem_singleton, before x member]

include recordedH rebuilds found opened listed at_ before in
theorem attach (current : C.current = n.parent.map φ) {km : Move} {res : Move × Board}
    (read : ∃ n₀ ∈ C.board.legalMoves, ∃ r, n₀.execute C.board = .ok r ∧ km.execute C.board = .ok r ∧
      km.Fits C.board) (distinct : Distinct C km)
    (run : km.execute C.board = .ok res) (mirrored : ∃ σ, Board.Mirrors σ (baseH (some node)) res.2)
    (san : res.1.san = n.move.san) (plays : res.1.playsSame n.move = true) :
    Rebuilds b0 H baseH (fun x => D x ∨ x = node) (Function.update φ node ⟨C.nodes.size⟩)
      (C.attach res.1 res.2) (Function.update baseC (some ⟨C.nodes.size⟩) res.2) := by
  have sound := rebuilds.played.sound
  have fresh : ∀ c, C.current = some c → c.index < C.nodes.size := fun c at' => by
    obtain ⟨nc, fc⟩ := Option.isSome_iff_exists.mp (sound.current c at')
    exact index_lt_of_node? fc
  have notDone := not_done_next recordedH listed at_ before
  have keep : ∀ x, D x → Function.update φ node ⟨C.nodes.size⟩ x = φ x := fun x done =>
    Function.update_of_ne (fun (same : x = node) => notDone (same ▸ done)) _ _
  have keepList : ∀ l : List NodeId, (∀ x ∈ l, D x) →
      l.map (Function.update φ node ⟨C.nodes.size⟩) = l.map φ := fun l done =>
    List.map_congr_left fun x member => keep x (done x member)
  refine ⟨rebuilds.played.attach read distinct run, ?_, ?_, ?_, ?_, ?_, ?_⟩
  · rintro x (done | rfl)
    · exact (rebuilds.closed x done).mono fun _ d => .inl d
    · simpa [parent?, found] using opened.mono fun _ d => .inl d
  · rintro x (done | rfl)
    · obtain ⟨m, m', got, got', sanX, playsX⟩ := rebuilds.moves x done
      refine ⟨m, m', got, ?_, sanX, playsX⟩
      rw [keep x done, get?_attach fresh, if_neg (rebuilds.image_ne_size done), got']
    · refine ⟨n.move, res.1, by simp [get?, found], ?_, san, plays⟩
      rw [Function.update_self, get?_attach fresh, if_pos rfl]
  · rintro x y (dx | rfl) (dy | rfl) same
    · exact rebuilds.injective x y dx dy (by rwa [keep x dx, keep y dy] at same)
    · rw [keep x dx, Function.update_self] at same
      exact absurd same (rebuilds.image_ne_size dx)
    · rw [keep y dy, Function.update_self] at same
      exact absurd same.symm (rebuilds.image_ne_size dy)
    · rfl
  · intro y live
    rw [contains_attach fresh] at live
    by_cases new : y = ⟨C.nodes.size⟩
    · exact ⟨node, .inr rfl, by rw [new, Function.update_self]⟩
    · obtain ⟨x, done, rfl⟩ := rebuilds.onto y (by simpa [new] using live)
      exact ⟨x, .inl done, keep x done⟩
  · intro o opened'
    by_cases self : o = some node
    · subst self
      refine ⟨n.continuations, 0, by simp [continuations?, found], ?_, fun x member => ?_⟩
      · rw [Option.map_some, Function.update_self, continuations?_attach fresh, if_pos rfl]
        simp
      · simpa using fresh_children recordedH rebuilds found notDone x member
    · have openedO := opened'.of_insert self
      obtain ⟨L', k', listed', list, done'⟩ := rebuilds.lists o openedO
      rw [Opened.map_update notDone φ _ openedO, continuations?_attach fresh, if_neg (rebuilds.map_ne_size openedO)]
      by_cases here : o = n.parent
      · subst here
        rw [listed] at listed'
        cases listed'
        refine ⟨L, k + 1, listed, ?_, fun x member => ?_⟩
        · obtain ⟨cl, clisted, same⟩ :=
            Option.map_eq_some_iff.mp (rebuilds.list_eq recordedH opened listed before)
          have earlier := keepList (L.toList.take k) fun x member =>
            (before x (List.mem_of_mem_take member)).mpr member
          rw [clisted, Option.map_some, Option.map_some, if_pos current.symm, Array.toList_push, same,
            List.take_add_one, at_, Option.toList_some, List.map_append, earlier]
          simp
        · exact done_take_succ at_ before x member
      · have notCurrent : ¬ o.map φ = C.current := fun same =>
          here (rebuilds.map_inj openedO opened (same.trans current))
        refine ⟨L', k', listed', ?_, fun x member => ?_⟩
        · obtain ⟨cl, clisted, same⟩ := Option.map_eq_some_iff.mp list
          rw [clisted, Option.map_some, Option.map_some, if_neg notCurrent, same,
            keepList _ fun x member => (done' x (List.mem_of_mem_take member)).mpr member]
        · have notNode : x ≠ node := fun same => by
            subst same
            obtain ⟨nx, fx, px⟩ := recordedH.sound.shaped.entries o L' listed' x member
            rw [found] at fx
            cases fx
            exact here px.symm
          simp only [notNode, or_false]
          exact done' x member
  · intro o opened'
    by_cases self : o = some node
    · subst self
      obtain ⟨σ, mir⟩ := mirrored
      refine ⟨σ, ?_⟩
      simp only [Option.map_some, Function.update_self]
      exact mir
    · have openedO := opened'.of_insert self
      obtain ⟨σ, mir⟩ := rebuilds.boards o openedO
      refine ⟨σ, ?_⟩
      rw [Opened.map_update notDone φ _ openedO, Function.update_of_ne (rebuilds.map_ne_size openedO)]
      exact mir

include recordedH rebuilds found opened listed at_ before in
theorem next (current : C.current = n.parent.map φ) :
    ∃ km res, San.parse C.board n.move.san = .ok km ∧ Distinct C km ∧ km.execute C.board = .ok res ∧
      Rebuilds b0 H baseH (fun x => D x ∨ x = node) (Function.update φ node ⟨C.nodes.size⟩)
        (C.attach res.1 res.2) (Function.update baseC (some ⟨C.nodes.size⟩) res.2) := by
  obtain ⟨km, res, read, distinct, run, mirrored, san, plays⟩ :=
    reads_next recordedH rebuilds found opened listed at_ before current
  have sound := rebuilds.played.sound
  exact ⟨km, res, read, distinct, run, attach recordedH rebuilds found opened listed at_ before current
    (San.parse_listed sound.coherent sound.settled read) distinct run mirrored san plays⟩

end Next

end Rebuilds

/-- What reading a line after the place `o` did to the rebuilt part, from `D` to `D'`: it kept
every rebuilt node with its image, rebuilt no node of another list opened before, and rebuilt
every continuation of each node it rebuilt. -/
structure Processed (H : History) (D D' : NodeId → Prop) (φ φ' : NodeId → NodeId) (o : Option NodeId) :
    Prop where
  keeps : ∀ x, D x → D' x ∧ φ' x = φ x
  frame : ∀ o', Opened D o' → o' ≠ o → ∀ L, H.continuations? o' = some L → ∀ x ∈ L.toList, D' x → D x
  complete : ∀ x, D' x → ¬ D x → ∀ L, H.continuations? (some x) = some L → ∀ y ∈ L.toList, D' y

namespace Processed

variable {H : History} {D D₁ D₂ D₃ : NodeId → Prop} {φ φ₁ φ₂ φ₃ : NodeId → NodeId} {o o' : Option NodeId}

theorem refl (H : History) (D : NodeId → Prop) (φ : NodeId → NodeId) (o : Option NodeId) :
    Processed H D D φ φ o :=
  ⟨fun _ done => ⟨done, rfl⟩, fun _ _ _ _ _ _ _ done => done, fun _ done fresh => absurd done fresh⟩

theorem opened (processed : Processed H D D' φ φ' o) {o' : Option NodeId} (opened : Opened D o') :
    Opened D' o' :=
  opened.mono fun x done => (processed.keeps x done).1

theorem map_eq (processed : Processed H D D' φ φ' o) {o' : Option NodeId} (opened : Opened D o') :
    o'.map φ' = o'.map φ := by
  cases o' with
  | none => rfl
  | some x => simp [(processed.keeps x opened).2]

theorem trans (first : Processed H D D₁ φ φ₁ o) (second : Processed H D₁ D₂ φ₁ φ₂ o')
    (away : ∀ o'', Opened D o'' → o'' ≠ o → o'' ≠ o') : Processed H D D₂ φ φ₂ o where
  keeps x done := by
    obtain ⟨done₁, same₁⟩ := first.keeps x done
    obtain ⟨done₂, same₂⟩ := second.keeps x done₁
    exact ⟨done₂, same₂.trans same₁⟩
  frame o'' opened other L listed x member done :=
    first.frame o'' opened other L listed x member
      (second.frame o'' (first.opened opened) (away o'' opened other) L listed x member done)
  complete x done fresh L listed y member := by
    by_cases earlier : D₁ x
    · exact (second.keeps y (first.complete x earlier fresh L listed y member)).1
    · exact second.complete x done earlier L listed y member

theorem line (shaped : H.Shaped) {node : NodeId} {n : Node} (found : H.node? node = some n)
    (fresh : ¬ D node) {c : NodeId}
    (others : Processed H (fun x => D x ∨ x = node) D₂ (Function.update φ node c) φ₂ n.parent)
    (below : Processed H D₂ D₃ φ₂ φ₃ (some node))
    (full : ∀ y ∈ n.continuations.toList, D₃ y) : Processed H D D₃ φ φ₃ n.parent where
  keeps x done := by
    have other : x ≠ node := fun same => fresh (same ▸ done)
    obtain ⟨done₂, same₂⟩ := others.keeps x (.inl done)
    obtain ⟨done₃, same₃⟩ := below.keeps x done₂
    exact ⟨done₃, by rw [same₃, same₂, Function.update_of_ne other]⟩
  frame o' opened away L listed x member done := by
    have notNode : o' ≠ some node := fun same => fresh (by simpa [same] using opened)
    have opened₁ : Opened (fun x => D x ∨ x = node) o' := opened.mono fun _ d => .inl d
    have done₁ := others.frame o' opened₁ away L listed x member
      (below.frame o' (others.opened opened₁) notNode L listed x member done)
    refine done₁.resolve_right fun same => ?_
    subst same
    obtain ⟨nx, fx, px⟩ := shaped.entries o' L listed x member
    rw [found] at fx
    cases fx
    exact away px.symm
  complete x done fresh' L listed y member := by
    by_cases self : x = node
    · subst self
      simp only [continuations?, found, Option.map_some, Option.some.injEq] at listed
      exact full y (listed ▸ member)
    by_cases earlier : D₂ x
    · have new : ¬ (D x ∨ x = node) := fun old => old.elim fresh' self
      exact (below.keeps y (others.complete x earlier new L listed y member)).1
    · exact below.complete x done earlier L listed y member

theorem covers (shaped : H.Shaped) (processed : Processed H (fun _ => False) D φ φ' none)
    (root : ∀ x ∈ H.root.toList, D x) {x : NodeId} (live : H.contains x = true) : D x := by
  obtain ⟨n, found⟩ := Option.isSome_iff_exists.mp live
  obtain ⟨line, path⟩ := shaped.ancestry found
  suffices each : ∀ {target line}, Ancestry H target line → ∀ x, target = some x → D x from
    each path x rfl
  intro target line path
  induction path with
  | start => exact fun _ unreached => by cases unreached
  | @node y n line found up ih =>
    intro x same
    cases same
    obtain ⟨L, listed, count⟩ := shaped.listed y n found
    have member : y ∈ L.toList := List.count_pos_iff.mp (by omega)
    cases parent : n.parent with
    | none =>
      rw [parent] at listed
      cases listed
      exact root y member
    | some p =>
      rw [parent] at listed ih
      exact processed.complete p (ih p rfl) (fun never => never) L listed y member

end Processed

theorem lineItems_succ_of_node {H : History} (f : Nat) {node : NodeId} {n : Node}
    (found : H.node? node = some n) {L : Array NodeId} (listed : H.continuations? n.parent = some L) :
    H.lineItems (f + 1) (some node) = PgnItem.move n.move.san ::
      (((if L[0]? = some node then L.toList.drop 1 else []).map fun v =>
        PgnItem.variation (H.lineItems f (some v)) : List PgnItem) ++ H.lineItems f n.continuations[0]?) := by
  rw [lineItems]
  simp only [get?, parent?, found, Option.map_some, Option.bind_some]
  rw [listed]
  simp only [Option.getD_some, continuations?, found, Option.map_some, Option.bind_some, List.cons_append]

theorem lineItems_none (H : History) (f : Nat) : H.lineItems f none = [] := by
  cases f <;> rfl

end History

namespace Pgn

/-! ### Reading the items of a tree -/

section Steps

variable {b0 : Board}

theorem triple_goTo_present {C : History} (anchored : History.Anchored b0 C) {target : Option NodeId}
    (present : ∀ id, target = some id → C.contains id = true) (ply : Nat) (text : String) :
    Triple (· = C) (atPly ply text (History.goTo target)) fun r h =>
      r = .ok ⟨⟩ ∧ History.Anchored b0 h ∧ History.SameTree C h ∧ h.current = target := by
  refine (triple_atPly (History.fires_goTo anchored present).triple ply text).mono (fun _ same => same) ?_
  rintro r h ⟨r₀, ⟨e, ok, -, anchored', same, current⟩, rfl⟩
  subst ok
  exact ⟨rfl, anchored', same, current⟩

theorem triple_move_attach {C : History} {text : String} {km : Move} (read : San.parse C.board text = .ok km)
    (distinct : History.Distinct C km) {res : Move × Board} (run : km.execute C.board = .ok res)
    {rest : List PgnItem} {ply : Nat} {beforeLast : Option (Option NodeId)}
    {Q : Except PgnError Nat → History → Prop}
    (after : Triple (· = C.attach res.1 res.2) (playItems rest (ply + 1) (some C.current)) Q) :
    Triple (· = C) (playItems (.move text :: rest) ply beforeLast) Q := by
  rw [playItems]
  refine triple_get_bind fun h start => ?_
  subst start
  refine triple_lift_bind (San.blind_parseNoted h.board text) ?_
  have quiet : (San.parseNoted h.board text).quiet = .ok km := read
  rw [quiet]
  simp only [pure_bind]
  refine Triple.bind (R := fun r h' => r = .ok ⟨⟩ ∧ h' = h.attach res.1 res.2) ?_
    (fun _ => after.mono (fun _ post => post.2) fun _ _ post => post) fun _ _ post => by cases post.1
  refine Triple.discard (triple_atPly (History.triple_add_fresh distinct run) _ _) (fun _ h' post => ?_)
    fun _ h' post => ?_
  · obtain ⟨r₀, ⟨-, rfl⟩, -⟩ := post
    exact ⟨rfl, rfl⟩
  · obtain ⟨r₀, ⟨ok, -⟩, failed⟩ := post
    subst ok
    cases failed

theorem playItems_variations_append (lines : NodeId → List PgnItem) (rest : List PgnItem)
    (start : Option NodeId) : ∀ (vs : List NodeId) (ply : Nat),
      playItems ((vs.map fun v => .variation (lines v)) ++ rest) ply (some start) =
        playItems (vs.map fun v => .variation (lines v)) ply (some start) >>= fun ply' =>
          playItems rest ply' (some start)
  | [], ply => by simp [playItems]
  | v :: vs, ply => by
    simp only [List.map_cons, List.cons_append, playItems, bind_assoc,
      playItems_variations_append lines rest start vs]

end Steps

section Lines

variable {b0 : Board} {H : History} {baseH : Option NodeId → Board}

/-- Reading, in `f` steps, the line of the `k`-th node of the list after `o`, with the nodes
before it rebuilt and the reader at the image of `o`: it rebuilds the node and everything below
it, and from the first node of a list the other nodes' lines too, so the list is rebuilt up to
the node, or whole. -/
def ReadsLine (b0 : Board) (H : History) (baseH : Option NodeId → Board) (f : Nat) : Prop :=
  ∀ (o : Option NodeId) (L : Array NodeId) (k : Nat) (node : NodeId) (D : NodeId → Prop)
    (φ : NodeId → NodeId) (C : History) (baseC : Option NodeId → Board) (ply : Nat)
    (beforeLast : Option (Option NodeId)),
    History.Rebuilds b0 H baseH D φ C baseC → History.Opened D o → H.continuations? o = some L →
    L.toList[k]? = some node → (∀ x ∈ L.toList, D x ↔ x ∈ L.toList.take k) → C.current = o.map φ →
    H.nodes.size ≤ f + node.index →
    Triple (· = C) (playItems (H.lineItems f (some node)) ply beforeLast) fun r C' =>
      ∃ ply' D' φ' baseC', r = .ok ply' ∧ History.Rebuilds b0 H baseH D' φ' C' baseC' ∧
        History.Processed H D D' φ φ' o ∧
        ∀ x ∈ L.toList, D' x ↔ x ∈ L.toList.take (if k = 0 then L.toList.length else k + 1)

theorem triple_firstLine {f : Nat} (line : ReadsLine b0 H baseH f) {o : Option NodeId}
    {L : Array NodeId} {D : NodeId → Prop} {φ : NodeId → NodeId} {C : History}
    {baseC : Option NodeId → Board} (rebuilds : History.Rebuilds b0 H baseH D φ C baseC)
    (opened : History.Opened D o) (listed : H.continuations? o = some L) (fresh : ∀ x ∈ L.toList, ¬ D x)
    (current : C.current = o.map φ) (fuel : ∀ x ∈ L.toList, H.nodes.size ≤ f + x.index) (ply : Nat)
    (beforeLast : Option (Option NodeId)) :
    Triple (· = C) (playItems (H.lineItems f L[0]?) ply beforeLast) fun r C' =>
      ∃ ply' D' φ' baseC', r = .ok ply' ∧ History.Rebuilds b0 H baseH D' φ' C' baseC' ∧
        History.Processed H D D' φ φ' o ∧ ∀ x ∈ L.toList, D' x := by
  cases first : L[0]? with
  | none =>
    rw [History.lineItems_none, playItems]
    refine triple_pure _ fun C' same => ⟨ply, D, φ, baseC, rfl, same ▸ rebuilds, .refl H D φ o, ?_⟩
    have empty : L.size = 0 := by simpa using first
    intro x member
    simp [← Array.length_toList, List.length_eq_zero_iff] at empty
    simp [empty] at member
  | some node =>
    have at_ : L.toList[0]? = some node := by simpa using first
    refine (line o L 0 node D φ C baseC ply beforeLast rebuilds opened listed at_
      (fun x member => by simp [fresh x member]) current (fuel node (List.mem_of_getElem? at_))).mono
      (fun _ same => same) ?_
    rintro r C' ⟨ply', D', φ', baseC', ok, rebuilds', processed, done⟩
    exact ⟨ply', D', φ', baseC', ok, rebuilds', processed, fun x member =>
      (done x member).mpr (by rw [if_pos rfl, List.take_length]; exact member)⟩

/-- Reading the lines of the nodes after the `j`-th of a list as variations, each from the image
of the list's owner and back to where the reader was, rebuilds the rest of the list and everything
below it. -/
theorem triple_variations {f : Nat} (line : ReadsLine b0 H baseH f) {o : Option NodeId}
    {L : Array NodeId} (listed : H.continuations? o = some L) {start : Option NodeId} {node : NodeId} :
    ∀ (vs : List NodeId) (j : Nat) (D : NodeId → Prop) (φ : NodeId → NodeId) (C : History)
      (baseC : Option NodeId → Board) (ply : Nat), L.toList.drop j = vs → 0 < j →
      History.Rebuilds b0 H baseH D φ C baseC → History.Opened D o → o.map φ = start → D node →
      C.current = some (φ node) → (∀ x ∈ L.toList, D x ↔ x ∈ L.toList.take j) →
      (∀ x ∈ vs, H.nodes.size ≤ f + x.index) →
      Triple (· = C) (playItems (vs.map fun v => .variation (H.lineItems f (some v))) ply (some start))
        fun r C' => ∃ ply' D' φ' baseC', r = .ok ply' ∧ History.Rebuilds b0 H baseH D' φ' C' baseC' ∧
          History.Processed H D D' φ φ' o ∧ C'.current = some (φ' node) ∧ ∀ x ∈ L.toList, D' x
  | [], j, D, φ, C, baseC, ply, rest, _, rebuilds, _, _, _, current, done, _ => by
    rw [List.map_nil, playItems]
    refine triple_pure _ fun C' same =>
      ⟨ply, D, φ, baseC, rfl, same ▸ rebuilds, .refl H D φ o, same ▸ current, fun x member => ?_⟩
    have whole : L.toList.take j = L.toList := List.take_of_length_le (List.drop_eq_nil_iff.mp rest)
    exact (done x member).mpr (by rw [whole]; exact member)
  | v :: vs, j, D, φ, C, baseC, ply, rest, positive, rebuilds, opened, owner, done, current, before,
      fuel => by
    have at_ : L.toList[j]? = some v := by
      simpa [List.head?_drop] using congrArg List.head? rest
    have tail : L.toList.drop (j + 1) = vs := by
      rw [← List.drop_drop, rest]
      rfl
    rw [List.map_cons, playItems]
    refine triple_get_bind fun h same => ?_
    subst same
    dsimp only
    refine Triple.bind (R := fun r h' => r = .ok ⟨⟩ ∧ History.Anchored b0 h' ∧ History.SameTree h h' ∧
        h'.current = start)
      (triple_goTo_present rebuilds.played.anchored (fun id target => ?_) ply "(") (fun _ => ?_)
      fun _ _ post => by cases post.1
    · rw [← owner] at target
      obtain ⟨x, rfl, same⟩ := Option.map_eq_some_iff.mp target
      exact same ▸ rebuilds.contains_image opened
    refine Triple.of_each fun C₁ post => ?_
    obtain ⟨-, anchored₁, same₁, current₁⟩ := post
    refine Triple.bind (line o L j v D φ C₁ baseC ply none (rebuilds.sameTree same₁ anchored₁.1) opened
        listed at_ before (by rw [current₁, owner]) (fuel v (.head _))) (fun ply₂ => ?_)
      fun _ _ post => ?_
    · refine Triple.of_each fun C₂ post => ?_
      obtain ⟨ply', D₂, φ₂, baseC₂, ok, rebuilds₂, processed₂, done₂⟩ := post
      cases ok
      obtain ⟨node₂, image₂⟩ := processed₂.keeps node done
      refine Triple.bind (R := fun r h' => r = .ok ⟨⟩ ∧ History.Anchored b0 h' ∧ History.SameTree C₂ h' ∧
          h'.current = h.current)
        (triple_goTo_present rebuilds₂.played.anchored (fun id target => ?_) ply₂ ")") (fun _ => ?_)
        fun _ _ post => by cases post.1
      · rw [current, ← image₂] at target
        exact Option.some.inj target ▸ rebuilds₂.contains_image node₂
      refine Triple.of_each fun C₃ post => ?_
      obtain ⟨-, anchored₃, same₃, current₃⟩ := post
      refine ((triple_variations line listed vs (j + 1) D₂ φ₂ C₃ baseC₂ ply₂ tail (by omega)
        (rebuilds₂.sameTree same₃ anchored₃.1) (processed₂.opened opened)
        (by rw [processed₂.map_eq opened, owner]) node₂ (by rw [current₃, current, image₂])
        (fun x member => by simpa [Nat.pos_iff_ne_zero.mp positive] using done₂ x member)
        fun x member => fuel x (.tail _ member))).mono (fun _ same => same) ?_
      rintro r C' ⟨ply'', D', φ', baseC', ok, rebuilds', processed', current', all'⟩
      exact ⟨ply'', D', φ', baseC', ok, rebuilds', processed₂.trans processed' fun _ _ other => other,
        current', all'⟩
    · obtain ⟨_, _, _, _, ok, _⟩ := post
      cases ok

theorem readsLine (playedH : History.Played b0 baseH H) : ∀ f, ReadsLine b0 H baseH f
  | 0 => by
    intro o L k node D φ C baseC ply beforeLast rebuilds opened listed at_ before current fuel
    obtain ⟨n, found, -⟩ := playedH.sound.shaped.entries o L listed node (List.mem_of_getElem? at_)
    have := History.index_lt_of_node? found
    omega
  | f + 1 => by
    intro o L k node D φ C baseC ply beforeLast rebuilds opened listed at_ before current fuel
    have shaped := playedH.sound.shaped
    obtain ⟨n, found, rfl⟩ := shaped.entries o L listed node (List.mem_of_getElem? at_)
    have notDone := History.Rebuilds.not_done_next playedH.recorded listed at_ before
    have notOwn : n.parent ≠ some node := fun own =>
      absurd (shaped.parent node n found node own).2 (Nat.lt_irrefl _)
    have children := History.Rebuilds.fresh_children playedH.recorded rebuilds found notDone
    have childList : H.continuations? (some node) = some n.continuations := by
      simp [History.continuations?, found]
    have below : ∀ y ∈ n.continuations.toList, H.nodes.size ≤ f + y.index := fun y member => by
      obtain ⟨ny, fy, py⟩ := shaped.entries (some node) n.continuations childList y member
      have := (shaped.parent y ny fy node py).2
      omega
    obtain ⟨km, res, read, distinct, run, rebuilds₁⟩ :=
      rebuilds.next playedH.recorded found opened listed at_ before current
    have opened₁ : History.Opened (fun x => D x ∨ x = node) n.parent := opened.mono fun _ d => .inl d
    rw [History.lineItems_succ_of_node f found listed]
    refine triple_move_attach read distinct run ?_
    by_cases first : k = 0
    · subst first
      have head : L[0]? = some node := by simpa using at_
      rw [if_pos head, playItems_variations_append]
      have later : ∀ x ∈ L.toList.drop 1, H.nodes.size ≤ f + x.index := fun x member => by
        have := playedH.lt_of_mem_drop_one listed at_ member
        omega
      refine Triple.bind (triple_variations (readsLine playedH f) listed (L.toList.drop 1) 1 _ _ _ _
          (ply + 1) rfl Nat.one_pos rebuilds₁ opened₁ (by rw [opened.map_update notDone, current])
          (.inr rfl) (by simp) (History.Rebuilds.done_take_succ at_ before) later)
        (fun ply₂ => ?_) fun _ _ post => ?_
      · refine Triple.of_each fun C₂ post => ?_
        obtain ⟨ply', D₂, φ₂, baseC₂, ok, rebuilds₂, processed₂, current₂, all₂⟩ := post
        cases ok
        have fresh₂ : ∀ y ∈ n.continuations.toList, ¬ D₂ y := fun y member done =>
          children y member (processed₂.frame (some node) (.inr rfl) (Ne.symm notOwn) _ childList y member
            done)
        refine (triple_firstLine (readsLine playedH f) rebuilds₂
          ((History.opened_some D₂ node).mpr (processed₂.keeps node (.inr rfl)).1)
          childList fresh₂ current₂ below ply₂ _).mono (fun _ same => same) ?_
        rintro r C' ⟨ply'', D', φ', baseC', ok, rebuilds', processed', full⟩
        refine ⟨ply'', D', φ', baseC', ok, rebuilds',
          processed₂.line shaped found notDone processed' full, fun x member => ?_⟩
        rw [if_pos rfl, List.take_length]
        exact iff_of_true (processed'.keeps x (all₂ x member)).1 member
      · obtain ⟨_, _, _, _, ok, _⟩ := post
        cases ok
    · have notHead : ¬ L[0]? = some node := fun head => by
        have at₀ : L.toList[0]? = some node := by simpa using head
        obtain ⟨inside₀, same₀⟩ := List.getElem?_eq_some_iff.mp at₀
        obtain ⟨inside, same⟩ := List.getElem?_eq_some_iff.mp at_
        exact first ((shaped.nodup listed).getElem_inj_iff.mp (same₀.trans same.symm)).symm
      rw [if_neg notHead, List.map_nil, List.nil_append]
      refine (triple_firstLine (readsLine playedH f) rebuilds₁
        ((History.opened_some _ node).mpr (.inr rfl)) childList children (by simp) below (ply + 1)
        _).mono (fun _ same => same) ?_
      rintro r C' ⟨ply', D', φ', baseC', ok, rebuilds', processed, full⟩
      refine ⟨ply', D', φ', baseC', ok, rebuilds',
        (History.Processed.refl H _ _ n.parent).line shaped found notDone processed full,
        fun x member => ?_⟩
      rw [if_neg first, ← History.Rebuilds.done_take_succ at_ before x member]
      exact ⟨processed.frame n.parent opened₁ notOwn L listed x member,
        fun done => (processed.keeps x done).1⟩

theorem triple_readBody_rebuilds (playedH : History.Played b0 baseH H) (coherent : b0.Coherent)
    (settled : b0.Settled) :
    Triple (· = History.new b0) (readBody H.movetextItems) fun r C =>
      r = .ok ⟨⟩ ∧ ∃ D φ baseC, History.Rebuilds b0 H baseH D φ C baseC ∧
        (∀ x, H.contains x = true → D x) ∧ C.current = none := by
  unfold readBody playLine History.movetextItems History.rewind
  refine Triple.bind (triple_firstLine (readsLine playedH _)
      (History.Rebuilds.start playedH.recorded coherent settled)
      (History.opened_none _) rfl (fun _ _ never => never) rfl (fun x _ => by omega) 0 none) (fun ply => ?_)
    fun _ _ post => ?_
  · refine Triple.of_each fun C post => ?_
    obtain ⟨ply', D, φ, baseC, ok, rebuilds, processed, root⟩ := post
    refine (triple_goTo_present rebuilds.played.anchored
      (fun _ (unreached : (none : Option NodeId) = some _) => by cases unreached) ply "").mono
      (fun _ same => same) ?_
    rintro r C' ⟨ok', anchored', same', current'⟩
    exact ⟨ok', D, φ, baseC, rebuilds.sameTree same' anchored'.1,
      fun x live => processed.covers playedH.sound.shaped root live, current'⟩
  · obtain ⟨_, _, _, _, ok, _⟩ := post
    cases ok

end Lines

end Pgn

end Chess
