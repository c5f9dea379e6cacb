import Mathlib
import Chess.Proofs.Pgn.Rebuild
import Chess.Proofs.Pgn.TagNames

namespace Chess

/-! Reading a written game back. A game read from text has tags named by identifiers, so its
text parses as its tags, the items of its tree and its result; reading these rebuilds its tree
node for node from the same start. The two trees are then alike up to the ids of their nodes, so
they write the same movetext, and the game read back writes the same text. -/

namespace History

/-- `φ` carries the tree of `h` onto the tree of `h'`: the start's list and the list after each
node go to the lists at the images, in the same order; a node's parent goes to its image's
parent; an image holds a move that plays as the node's and is written the same; and `φ` is one to
one from the nodes of `h` onto those of `h'`. -/
structure Iso (h h' : History) (φ : NodeId → NodeId) : Prop where
  root : h'.root = h.root.map φ
  lists : ∀ x L, h.continuations? (some x) = some L → h'.continuations? (some (φ x)) = some (L.map φ)
  parent : ∀ x, h.contains x = true → h'.parent? (φ x) = (h.parent? x).map φ
  moves : ∀ x m, h.get? x = some m →
    ∃ m', h'.get? (φ x) = some m' ∧ m'.san = m.san ∧ m'.playsSame m = true
  injective : ∀ x y, h.contains x = true → h.contains y = true → φ x = φ y → x = y
  onto : ∀ y, h'.contains y = true → ∃ x, h.contains x = true ∧ φ x = y

namespace Rebuilds

variable {b0 : Board} {H C : History} {baseH baseC : Option NodeId → Board} {D : NodeId → Prop}
  {φ : NodeId → NodeId}

theorem list_eq_whole (recordedH : Recorded b0 baseH H) (rebuilds : Rebuilds b0 H baseH D φ C baseC)
    (covers : ∀ x, H.contains x = true → D x) {o : Option NodeId} (opened : Opened D o)
    {L : Array NodeId} (listed : H.continuations? o = some L) :
    C.continuations? (o.map φ) = some (L.map φ) := by
  have whole := rebuilds.list_eq recordedH opened listed (j := L.toList.length) fun x member => by
    simp only [List.take_length, member, iff_true]
    exact covers x (recordedH.sound.shaped.contains_of_listed listed member)
  obtain ⟨cl, clisted, same⟩ := Option.map_eq_some_iff.mp whole
  rw [clisted, List.take_length] at *
  exact congrArg some (Array.ext' (by rw [same, Array.toList_map]))

theorem iso (recordedH : Recorded b0 baseH H) (rebuilds : Rebuilds b0 H baseH D φ C baseC)
    (covers : ∀ x, H.contains x = true → D x) : Iso H C φ where
  root := by
    have whole := rebuilds.list_eq_whole recordedH covers (opened_none D) (o := none) rfl
    exact Option.some.inj whole
  lists x L listed := by
    have live : H.contains x = true := by
      simp only [continuations?, Option.map_eq_some_iff] at listed
      obtain ⟨n, found, -⟩ := listed
      exact contains_of_node? found
    exact rebuilds.list_eq_whole recordedH covers ((opened_some D x).mpr (covers x live)) listed
  parent x live := rebuilds.parent recordedH (covers x live)
  moves x m got := by
    obtain ⟨m₀, m', got₀, got', san, plays⟩ := rebuilds.moves x (covers x (by
      obtain ⟨n, found, -⟩ := Option.map_eq_some_iff.mp got
      exact contains_of_node? found))
    rw [got] at got₀
    cases got₀
    exact ⟨m', got', san, plays⟩
  injective x y liveX liveY same := rebuilds.injective x y (covers x liveX) (covers y liveY) same
  onto y live := by
    obtain ⟨x, done, rfl⟩ := rebuilds.onto y live
    obtain ⟨n, found⟩ := rebuilds.live done
    exact ⟨x, contains_of_node? found, rfl⟩

end Rebuilds

namespace Iso

variable {h h' : History} {φ : NodeId → NodeId} (iso : Iso h h' φ)
include iso

theorem continuations? {o : Option NodeId} (live : ∀ x, o = some x → h.contains x = true) :
    h'.continuations? (o.map φ) = (h.continuations? o).map (·.map φ) := by
  cases o with
  | none => simp [History.continuations?, iso.root]
  | some x =>
    obtain ⟨n, found⟩ := Option.isSome_iff_exists.mp (live x rfl)
    have listed : h.continuations? (some x) = some n.continuations := by
      simp [History.continuations?, found]
    rw [Option.map_some, iso.lists x _ listed, listed, Option.map_some]

theorem ancestry {target : Option NodeId} {line : List NodeId} (path : Ancestry h target line) :
    Ancestry h' (target.map φ) (line.map φ) := by
  induction path with
  | start => exact .start
  | @node x n line found up ih =>
    obtain ⟨m', got', -⟩ := iso.moves x n.move (by simp [get?, found])
    obtain ⟨n', found', -⟩ := Option.map_eq_some_iff.mp got'
    have parent := iso.parent x (contains_of_node? found)
    simp only [parent?, found', found, Option.bind_some] at parent
    rw [List.map_append, List.map_singleton, Option.map_some]
    exact .node found' (parent ▸ ih)

theorem lineTo (shaped : h.Shaped) (shaped' : h'.Shaped) {o : Option NodeId}
    (live : ∀ x, o = some x → h.contains x = true) : h'.lineTo (o.map φ) = (h.lineTo o).map φ := by
  obtain ⟨line, path⟩ : ∃ line, Ancestry h o line := by
    cases o with
    | none => exact ⟨[], .start⟩
    | some x =>
      obtain ⟨n, found⟩ := Option.isSome_iff_exists.mp (live x rfl)
      exact shaped.ancestry found
  rw [shaped.lineTo_eq path, shaped'.lineTo_eq (iso.ancestry path)]

theorem moveNumber (shaped : h.Shaped) (shaped' : h'.Shaped) (side : h'.startSide = h.startSide)
    (fullmove : h'.startFullmove = h.startFullmove) {o : Option NodeId}
    (live : ∀ x, o = some x → h.contains x = true) : h'.moveNumber (o.map φ) = h.moveNumber o := by
  unfold History.moveNumber
  rw [iso.lineTo shaped shaped' live, List.length_map, side, fullmove]

theorem first_iff {L : Array NodeId} (live : ∀ y ∈ L.toList, h.contains y = true) {x : NodeId}
    (liveX : h.contains x = true) : L[0]?.map φ = some (φ x) ↔ L[0]? = some x := by
  cases first : L[0]? with
  | none => simp
  | some y =>
    have member : y ∈ L.toList := List.mem_of_getElem? (by simpa using first)
    simp only [Option.map_some, Option.some.injEq]
    exact ⟨iso.injective y x (live y member) liveX, congrArg φ⟩

theorem lineTokens (shaped : h.Shaped) (shaped' : h'.Shaped) (side : h'.startSide = h.startSide)
    (fullmove : h'.startFullmove = h.startFullmove) :
    ∀ (f : Nat) (o : Option NodeId) (numbered : Bool), (∀ x, o = some x → h.contains x = true) →
      h'.lineTokens f (o.map φ) numbered = h.lineTokens f o numbered
  | 0, o, numbered, _ => by cases o <;> rfl
  | f + 1, none, numbered, _ => rfl
  | f + 1, some x, numbered, live => by
    obtain ⟨n, found⟩ := Option.isSome_iff_exists.mp (live x rfl)
    have gotH : h.get? x = some n.move := by simp [get?, found]
    obtain ⟨m', got', san, -⟩ := iso.moves x n.move gotH
    have parentH : h.parent? x = n.parent := by simp [parent?, found]
    have parentC : h'.parent? (φ x) = n.parent.map φ := by rw [iso.parent x (live x rfl), parentH]
    have liveParent : ∀ p, n.parent = some p → h.contains p = true := fun p same =>
      (shaped.parent x n found p same).1
    obtain ⟨siblings, listedS, -⟩ := shaped.listed x n found
    have listedS' : h'.continuations? (n.parent.map φ) = some (siblings.map φ) := by
      rw [iso.continuations? liveParent, listedS, Option.map_some]
    have listedC : h.continuations? (some x) = some n.continuations := by
      simp [History.continuations?, found]
    have listedC' := iso.lists x _ listedC
    have liveSiblings : ∀ y ∈ siblings.toList, h.contains y = true := fun y member =>
      shaped.contains_of_listed listedS member
    have liveNext : ∀ y, n.continuations[0]? = some y → h.contains y = true := fun y first =>
      shaped.contains_of_listed listedC (List.mem_of_getElem? (by simpa using first))
    rw [Option.map_some, History.lineTokens, History.lineTokens, gotH, got']
    simp only [parentH, parentC, listedS, listedS', listedC, listedC', Option.getD_some,
      Option.bind_some, iso.moveNumber shaped shaped' side fullmove liveParent, san,
      Array.getElem?_map, Array.toList_map, iso.first_iff liveSiblings (live x rfl), ← List.map_drop]
    rw [lineTokens shaped shaped' side fullmove f n.continuations[0]? _ liveNext]
    by_cases head : siblings[0]? = some x
    · have variations : ((siblings.toList.drop 1).map φ).flatMap
          (fun v => "(" :: h'.lineTokens f (some v) true ++ [")"]) =
          (siblings.toList.drop 1).flatMap fun v => "(" :: h.lineTokens f (some v) true ++ [")"] := by
        rw [List.flatMap_map]
        refine List.flatMap_congr fun v member => ?_
        rw [show some (φ v) = (some v).map φ from rfl, lineTokens shaped shaped' side fullmove f (some v)
          true fun y same => Option.some.inj same ▸ liveSiblings v (List.mem_of_mem_drop member)]
      simp only [head, if_true, variations, List.isEmpty_map]
    · simp only [head, if_false, List.flatMap_nil]

theorem size_eq (full : ∀ x : NodeId, x.index < h.nodes.size → h.contains x = true)
    (full' : ∀ x : NodeId, x.index < h'.nodes.size → h'.contains x = true) :
    h'.nodes.size = h.nodes.size := by
  have image : ∀ x, h.contains x = true → (φ x).index < h'.nodes.size := fun x live => by
    obtain ⟨m, got⟩ : ∃ m, h.get? x = some m := by
      obtain ⟨n, found⟩ := Option.isSome_iff_exists.mp live
      exact ⟨n.move, by simp [get?, found]⟩
    obtain ⟨m', got', -⟩ := iso.moves x m got
    obtain ⟨n', found', -⟩ := Option.map_eq_some_iff.mp got'
    exact index_lt_of_node? found'
  have same := Finset.card_bij (s := Finset.range h.nodes.size) (t := Finset.range h'.nodes.size)
    (fun i _ => (φ ⟨i⟩).index)
    (fun i member => Finset.mem_range.mpr (image _ (full _ (Finset.mem_range.mp member))))
    (fun i member j member' eq => by
      have := iso.injective ⟨i⟩ ⟨j⟩ (full _ (Finset.mem_range.mp member))
        (full _ (Finset.mem_range.mp member')) (by cases hφi : φ ⟨i⟩; cases hφj : φ ⟨j⟩; simp_all)
      simpa using this)
    (fun j member => by
      obtain ⟨x, live, image⟩ := iso.onto ⟨j⟩ (full' _ (Finset.mem_range.mp member))
      obtain ⟨n, found⟩ := Option.isSome_iff_exists.mp live
      exact ⟨x.index, Finset.mem_range.mpr (index_lt_of_node? found), by rw [image]⟩)
  simpa using same.symm

theorem movetextTokens (shaped : h.Shaped) (shaped' : h'.Shaped) (side : h'.startSide = h.startSide)
    (fullmove : h'.startFullmove = h.startFullmove) (size : h'.nodes.size = h.nodes.size) :
    h'.movetextTokens = h.movetextTokens := by
  unfold History.movetextTokens
  rw [iso.root, Array.getElem?_map, size]
  refine iso.lineTokens shaped shaped' side fullmove _ _ _ fun y first => ?_
  exact shaped.contains_of_listed (rfl : h.continuations? none = some h.root)
    (List.mem_of_getElem? (by simpa using first))

end Iso

end History

namespace Pgn

theorem resultOf_resultToken (r : Option GameResult) : resultOf (resultToken r) = r := by
  rcases r with _ | r
  · rfl
  · cases r <;> rfl

theorem unescape_quoted_tags (tags : List (String × String)) :
    ((tags.map fun tag => (tag.1, quoted tag.2)).map fun tag => (tag.1, unescape tag.2)) = tags := by
  rw [List.map_map]
  refine (List.map_congr_left fun tag _ => ?_).trans (List.map_id tags)
  show (tag.1, unescape (quoted tag.2)) = tag
  rw [quoted, unescape_quoted_escape]

/-- A game grown by play from the position its tags start it from, its tags named by identifiers,
reads back from its text as one game: its tags and result, and a tree grown from the same start
that its own tree is carried onto. -/
theorem read_write_of_played {g : PgnGame} (named : ∀ tag ∈ g.tags.toList, Identifier tag.1)
    {b0 : Board} (start : startOf g.tags.toList = .ok b0) {base : Option NodeId → Board}
    (played : History.Played b0 base g.history) :
    ∃ C φ baseC, Pgn.read g.write = .ok [⟨g.tags, C, g.result⟩] ∧ History.Played b0 baseC C ∧
      History.Iso g.history C φ := by
  have reach := reachable_of_startOf start
  obtain ⟨j, run⟩ := buildGame_run ⟨g.tags.toList.map fun tag => (tag.1, quoted tag.2),
    g.history.movetextItems, resultToken g.result⟩ #[]
  dsimp only at run
  rw [unescape_quoted_tags, start] at run
  simp only [Except.bind] at run
  have post := triple_readBody_rebuilds played reach.coherent reach.settled (History.new b0) j rfl
  generalize ((readBody g.history.movetextItems).run.run (History.new b0)).run j = out at run post
  obtain ⟨⟨r, C⟩, j'⟩ := out
  obtain ⟨ok, D, φ, baseC, rebuilds, covers, -⟩ := post
  subst ok
  refine ⟨C, φ, baseC, read_single (parse_write_items named) ?_, rebuilds.played,
    rebuilds.iso played.recorded covers⟩
  rw [run]
  simp only [Array.toArray_toList, resultOf_resultToken]
  rfl

/-- Reading back the text of a game read from text gives one game, with the same tags and result,
grown by play from the same start, its tree carried onto the first game's, node for node, with the
same lists in the same order and moves that play the same and are written the same; so it writes
the same text. -/
theorem read_undoes_write {t : String} {gs : List PgnGame} (read : Pgn.read t = .ok gs) {g : PgnGame}
    (member : g ∈ gs) :
    ∃ g2 : PgnGame, Pgn.read g.write = .ok [g2] ∧ g2.tags = g.tags ∧ g2.result = g.result ∧
      (∃ b0 base base2, History.Played b0 base g.history ∧ History.Played b0 base2 g2.history) ∧
      (∃ φ, History.Iso g.history g2.history φ) ∧ g2.write = g.write := by
  obtain ⟨texts, parsed, gt, within, b0, base, start, played, -, tags, -⟩ := played_of_read read member
  have named : ∀ tag ∈ g.tags.toList, Identifier tag.1 := by
    rw [tags]
    intro tag listed
    simp only [List.mem_map] at listed
    obtain ⟨raw, rawListed, rfl⟩ := listed
    exact parse_tags_named parsed gt within raw rawListed
  have startSame : startOf g.tags.toList = .ok b0 := by
    rw [tags, List.toList_toArray]
    exact start
  obtain ⟨C, φ, baseC, readBack, playedC, iso⟩ := read_write_of_played named startSame played
  refine ⟨⟨g.tags, C, g.result⟩, readBack, rfl, rfl, ⟨b0, base, baseC, played, playedC⟩, ⟨φ, iso⟩, ?_⟩
  have side : C.startSide = g.history.startSide :=
    playedC.sound.startSide.trans played.sound.startSide.symm
  have fullmove : C.startFullmove = g.history.startFullmove :=
    playedC.sound.startFullmove.trans played.sound.startFullmove.symm
  simp only [PgnGame.write, iso.movetextTokens played.sound.shaped playedC.sound.shaped side fullmove
    (iso.size_eq played.full playedC.full)]

/-- The game 1. e4 e5 (1... c5) with one tag, as the reader builds it, writes a text that
reads back as a game that reads back as itself. -/
theorem read_undoes_write_variation :
    ∃ g0 : PgnGame, ((buildGame ⟨[("Event", "\"Casual\"")],
        [.move "e4", .move "e5", .variation [.move "c5"]], "*"⟩).run #[]).1 = .ok g0 ∧
      g0.tags = #[("Event", "Casual")] ∧ g0.history.nodes.size = 3 ∧
      (g0.history.continuations? (some ⟨0⟩)).map Array.size = some 2 ∧
      ∃ g, Pgn.read g0.write = .ok [g] ∧
        ∃ g2 : PgnGame, Pgn.read g.write = .ok [g2] ∧ g2.tags = g.tags ∧ g2.result = g.result ∧
          (∃ b0 base base2, History.Played b0 base g.history ∧ History.Played b0 base2 g2.history) ∧
          (∃ φ, History.Iso g.history g2.history φ) ∧ g2.write = g.write := by
  have check : (((buildGame ⟨[("Event", "\"Casual\"")],
      [.move "e4", .move "e5", .variation [.move "c5"]], "*"⟩).run #[]).1.toOption.map fun g =>
        g.tags == #[("Event", "Casual")] && g.history.nodes.size == 3 &&
          (g.history.continuations? (some ⟨0⟩)).map Array.size == some 2) = some true := by
    simp only [buildGame, playLine, playItems]
    decide +kernel
  obtain ⟨g0, built, facts⟩ := Except.ok_of_toOption_map check
  obtain ⟨⟨tagged, size⟩, branches⟩ : (g0.tags = #[("Event", "Casual")] ∧ g0.history.nodes.size = 3) ∧
      (g0.history.continuations? (some ⟨0⟩)).map Array.size = some 2 := by
    simpa using facts
  obtain ⟨b0, base, start, played, -, -, -⟩ := played_of_buildGame built
  have named : ∀ tag ∈ g0.tags.toList, Identifier tag.1 := by
    rw [tagged]
    intro tag listed
    simp only [List.mem_singleton] at listed
    subst listed
    have letters : "Event".toList = ['E', 'v', 'e', 'n', 't'] := rfl
    refine ⟨by simp [letters], ?_⟩
    rw [letters]
    simp [identChar, isAlnum, isAlpha, isDigit]
  have startSame : startOf g0.tags.toList = .ok b0 := by
    rw [tagged]
    exact start
  obtain ⟨C, φ, baseC, readBack, -, -⟩ := read_write_of_played named startSame played
  exact ⟨g0, built, tagged, size, branches, _, readBack,
    read_undoes_write readBack (List.mem_singleton_self _)⟩

end Pgn

end Chess
