import Chess.Proofs.Record.Replay
import Chess.Proofs.Pgn.RoundTrip

namespace Chess

/-! Replaying a written record. A history grown from a position read from FEN text, by calls
whose added moves play as listed ones, writes a record that replays: the record's FEN reads back
as the same position, and replaying its moves rebuilds the tree node for node and goes back to
the start. The two trees are alike up to the ids of their nodes, with moves written the same in
both notations, and the rebuilt tree's slots are all filled in the order its lists run; so the
rebuilt history writes the same record. -/

theorem Board.ofFen_fen {text : String} {b : Board} (read : Board.ofFen text = .ok b) :
    Board.ofFen b.fen = .ok b := by
  obtain ⟨st, -, built⟩ := Except.bind_eq_ok.mp read
  split at built
  · rename_i made
    cases built
    rw [Board.ofFen, parse_fen, setup_ofSetup made]
    simp [made]
  · cases built

namespace History

theorem Rebuilds.uci {b0 : Board} {H C : History} {baseH baseC : Option NodeId → Board}
    {D : NodeId → Prop} {φ : NodeId → NodeId} (recordedH : Recorded b0 baseH H)
    (rebuilds : Rebuilds b0 H baseH D φ C baseC) {x : NodeId} (done : D x) {m m' : Move}
    (got : H.get? x = some m) (got' : C.get? (φ x) = some m') : m'.uci = m.uci := by
  obtain ⟨n, found, rfl⟩ := Option.map_eq_some_iff.mp got
  obtain ⟨n', found', rfl⟩ := Option.map_eq_some_iff.mp got'
  obtain ⟨v, n₀, r, returns, cv, sv, legal, run, -, stored⟩ := recordedH.listed x n found
  obtain ⟨v', n₀', r', returns', cv', sv', legal', run', -, stored'⟩ :=
    rebuilds.played.listed (φ x) n' found'
  have opened : Opened D n.parent := by simpa [parent?, found] using rebuilds.closed x done
  obtain ⟨σ, mir⟩ := rebuilds.boards n.parent opened
  have parent : n'.parent = n.parent.map φ := by
    simpa [parent?, found, found'] using rebuilds.parent recordedH done
  rw [parent] at returns'
  have mirrored := (returns.toRestores.mirrors_symm.comp mir).comp returns'.toRestores.mirrors
  obtain ⟨m₀, m₀', got₀, got₀', -, plays⟩ := rebuilds.moves x done
  simp only [get?, found, found', Option.map_some, Option.some.injEq] at got₀ got₀'
  subst got₀ got₀'
  rw [stored, stored', Move.playsSame_with_executed, Move.playsSame_comm,
    Move.playsSame_with_executed, Move.playsSame_comm] at plays
  rw [stored, stored']
  exact Move.uci_played_mirrored mirrored cv cv' sv sv' legal legal' run run' plays

theorem recordLine_dead {C : History} {x : NodeId} (dead : C.node? x = none) (f : Nat) :
    C.recordLine f (some x) = [] := by
  cases f with
  | zero => rfl
  | succ f => simp [recordLine, get?, dead]

theorem Played.recordLine_fuel {b0 : Board} {base : Option NodeId → Board} {C : History}
    (played : Played b0 base C) : ∀ (f f' : Nat) (x : NodeId), C.nodes.size ≤ f + x.index →
      C.nodes.size ≤ f' + x.index → C.recordLine f (some x) = C.recordLine f' (some x) := by
  intro f
  induction f with
  | zero =>
    intro f' x enough _
    have dead : C.node? x = none := node?_eq_none_of_size_le (by omega)
    rw [recordLine_dead dead, recordLine_dead dead]
  | succ g ih =>
    intro f' x enough enough'
    cases found : C.node? x with
    | none => rw [recordLine_dead found, recordLine_dead found]
    | some n =>
      obtain ⟨g', rfl⟩ : ∃ g', f' = g' + 1 := ⟨f' - 1, by have := index_lt_of_node? found; omega⟩
      have shaped := played.sound.shaped
      obtain ⟨L, listed, -⟩ := shaped.listed x n found
      have listedC : C.continuations? (some x) = some n.continuations := by
        simp [continuations?, found]
      have later : ∀ y, x.index < y.index → C.recordLine g (some y) = C.recordLine g' (some y) :=
        fun y after => ih g' y (by omega) (by omega)
      have next : C.recordLine g n.continuations[0]? = C.recordLine g' n.continuations[0]? := by
        cases first : n.continuations[0]? with
        | none => rw [recordLine_none, recordLine_none]
        | some c =>
          obtain ⟨nc, fc, pc⟩ := shaped.entries (some x) n.continuations listedC c
            (List.mem_of_getElem? (by simpa using first))
          exact later c (shaped.parent c nc fc x pc).2
      rw [recordLine_succ_of_node g found listed, recordLine_succ_of_node g' found listed, next]
      split
      · rename_i head
        rw [List.map_congr_left fun v member =>
          later v (played.lt_of_mem_drop_one listed (by simpa using head) member)]
      · rfl

namespace Iso

variable {h h' : History} {φ : NodeId → NodeId} (iso : Iso h h' φ)
include iso

theorem recordLine (shaped : h.Shaped)
    (uci : ∀ x m m', h.get? x = some m → h'.get? (φ x) = some m' → m'.uci = m.uci) :
    ∀ (f : Nat) (o : Option NodeId), (∀ x, o = some x → h.contains x = true) →
      h'.recordLine f (o.map φ) = h.recordLine f o
  | 0, o, _ => by cases o <;> rfl
  | f + 1, none, _ => rfl
  | f + 1, some x, live => by
    obtain ⟨n, found⟩ := Option.isSome_iff_exists.mp (live x rfl)
    have gotH : h.get? x = some n.move := by simp [get?, found]
    obtain ⟨m', got', san, -⟩ := iso.moves x n.move gotH
    have written := uci x n.move m' gotH got'
    obtain ⟨n', found', rfl⟩ := Option.map_eq_some_iff.mp got'
    have liveParent : ∀ p, n.parent = some p → h.contains p = true := fun p same =>
      (shaped.parent x n found p same).1
    obtain ⟨siblings, listedS, -⟩ := shaped.listed x n found
    have parent : n'.parent = n.parent.map φ := by
      simpa [parent?, found, found'] using iso.parent x (live x rfl)
    have listedS' : h'.continuations? n'.parent = some (siblings.map φ) := by
      rw [parent, iso.continuations? liveParent, listedS, Option.map_some]
    have listedC : h.continuations? (some x) = some n.continuations := by
      simp [History.continuations?, found]
    have below : n'.continuations = n.continuations.map φ := by
      simpa [History.continuations?, found'] using iso.lists x _ listedC
    have liveSiblings : ∀ y ∈ siblings.toList, h.contains y = true := fun y member =>
      shaped.contains_of_listed listedS member
    have liveNext : ∀ y, n.continuations[0]? = some y → h.contains y = true := fun y first =>
      shaped.contains_of_listed listedC (List.mem_of_getElem? (by simpa using first))
    rw [Option.map_some, recordLine_succ_of_node f found' listedS', recordLine_succ_of_node f found listedS,
      written, san, below]
    simp only [Array.getElem?_map, iso.first_iff liveSiblings (live x rfl)]
    rw [recordLine shaped uci f n.continuations[0]? liveNext]
    by_cases head : siblings[0]? = some x
    · have variations : ((siblings.map φ).toList.drop 1).map (fun v => h'.recordLine f (some v)) =
          (siblings.toList.drop 1).map fun v => h.recordLine f (some v) := by
        rw [Array.toList_map, ← List.map_drop, List.map_map]
        refine List.map_congr_left fun v member => ?_
        exact recordLine shaped uci f (some v) fun y same =>
          Option.some.inj same ▸ liveSiblings v (List.mem_of_mem_drop member)
      simp only [head, if_true, variations]
    · simp only [head, if_false]

theorem size_le (full' : ∀ x : NodeId, x.index < h'.nodes.size → h'.contains x = true) :
    h'.nodes.size ≤ h.nodes.size := by
  have onto := Finset.card_le_card_of_surjOn (s := Finset.range h.nodes.size)
    (t := Finset.range h'.nodes.size) (fun i => (φ ⟨i⟩).index) fun j member => by
      obtain ⟨x, live, image⟩ := iso.onto ⟨j⟩ (full' _ (Finset.mem_range.mp member))
      obtain ⟨n, found⟩ := Option.isSome_iff_exists.mp live
      refine ⟨x.index, Finset.mem_range.mpr (index_lt_of_node? found), ?_⟩
      show (φ x).index = j
      rw [image]
  simpa using onto

end Iso

end History

namespace GameRecord

theorem toHistoryNoted_quiet (r : GameRecord) {b : Board} (read : Board.ofFen r.fen = .ok b) :
    ∃ j, r.toHistoryNoted.quiet =
      ((((do replayLine r.moves; step "" History.rewind : ReplayM Unit).run.run (History.new b)).run j).1.1.map
        fun _ => (((do replayLine r.moves; step "" History.rewind : ReplayM Unit).run.run
          (History.new b)).run j).1.2) := by
  refine ⟨((Board.ofFenNoted r.fen).run #[]).2, ?_⟩
  unfold toHistoryNoted Noted.quiet
  rw [Id.run, Noted.run_bind, Board.blind_ofFenNoted, Board.quiet_ofFenNoted, read]
  dsimp only
  rw [Noted.run_bind]
  generalize (((do replayLine r.moves; step "" History.rewind : ReplayM Unit).run.run (History.new b)).run
    ((Board.ofFenNoted r.fen).run #[]).2) = out
  obtain ⟨⟨res, h⟩, j'⟩ := out
  rfl

/-- The record of a history grown from a position read from FEN text, by calls whose added moves
play as listed ones, replays into a history back at its start, whose tree is carried onto the
first one's node for node, with the same lists in the same order and moves that play the same and
are written the same; so it writes the same record. -/
theorem toHistory_ofHistory {text : String} {b0 : Board} (start : Board.ofFen text = .ok b0)
    {h : History} (grown : History.Grown b0 h) (result : Option GameResult) :
    ∃ h2, (ofHistory h result).toHistoryNoted.quiet = .ok h2 ∧ h2.current = none ∧
      (∃ φ, History.Iso h h2 φ) ∧ ofHistory h2 result = ofHistory h result := by
  have reach : b0.Reachable := .ofFen start
  obtain ⟨⟨baseH, recordedH⟩, startFen⟩ := grown.recorded reach.coherent reach.settled
  have fen : Board.ofFen (ofHistory h result).fen = .ok b0 := by
    show Board.ofFen h.startFen = .ok b0
    rw [startFen]
    exact Board.ofFen_fen start
  obtain ⟨j, quiet⟩ := toHistoryNoted_quiet (ofHistory h result) fen
  have post := triple_replay_rebuilds recordedH reach.coherent reach.settled (History.new b0) j rfl
  have kept := triple_replay_startFen (s := b0.fen) (h.recordLine (h.nodes.size + 1) h.root[0]?)
    (History.new b0) j rfl
  have replayed : (ofHistory h result).toHistoryNoted.quiet =
      ((((do replayLine (h.recordLine (h.nodes.size + 1) h.root[0]?); step "" History.rewind :
        ReplayM Unit).run.run (History.new b0)).run j).1.1.map fun _ =>
          (((do replayLine (h.recordLine (h.nodes.size + 1) h.root[0]?); step "" History.rewind :
            ReplayM Unit).run.run (History.new b0)).run j).1.2) := quiet
  generalize ((((do replayLine (h.recordLine (h.nodes.size + 1) h.root[0]?); step "" History.rewind :
    ReplayM Unit).run.run (History.new b0)).run j)) = out at replayed post kept
  obtain ⟨⟨r, C⟩, j'⟩ := out
  dsimp only at replayed post kept
  obtain ⟨ok, D, φ, baseC, rebuilds, covers, current⟩ := post
  subst ok
  have iso := rebuilds.iso recordedH covers
  refine ⟨C, replayed, current, ⟨φ, iso⟩, ?_⟩
  have liveRoot : ∀ x, h.root[0]? = some x → h.contains x = true := fun x first =>
    recordedH.sound.shaped.contains_of_listed (rfl : h.continuations? none = some h.root)
      (List.mem_of_getElem? (by simpa using first))
  have written : ∀ x m m', h.get? x = some m → C.get? (φ x) = some m' → m'.uci = m.uci :=
    fun x m m' got got' => by
      obtain ⟨n, found, -⟩ := Option.map_eq_some_iff.mp got
      exact rebuilds.uci recordedH (covers x (History.contains_of_node? found)) got got'
  have sizes := iso.size_le rebuilds.played.full
  have lines : C.recordLine (C.nodes.size + 1) C.root[0]? = h.recordLine (h.nodes.size + 1) h.root[0]? := by
    rw [iso.root, Array.getElem?_map]
    cases first : h.root[0]? with
    | none => rw [Option.map_none, History.recordLine_none, History.recordLine_none]
    | some x =>
      rw [Option.map_some, rebuilds.played.recordLine_fuel _ (h.nodes.size + 1) (φ x) (by omega) (by omega)]
      exact iso.recordLine recordedH.sound.shaped written _ (some x) fun y same =>
        liveRoot y (first.trans same)
  simp only [ofHistory, lines, kept, startFen]

/-- From the two kings read from FEN text, the white king's step is a history grown by calls a
record keeps track of, and its record replays into a history that writes the same record. -/
theorem toHistory_ofHistory_kingStep :
    ∃ b0 h, Board.ofFen "4k3/8/8/8/8/8/8/4K3 w - - 0 1" = .ok b0 ∧
      h = ((History.run (History.Call.addMove (Square.ofNat 4) (Square.ofNat 12) none).act
        (History.new b0)).run #[]).1.2 ∧ History.Grown b0 h ∧
      ∃ h2, (ofHistory h none).toHistoryNoted.quiet = .ok h2 ∧ h2.current = none ∧
        (∃ φ, History.Iso h h2 φ) ∧ ofHistory h2 none = ofHistory h none := by
  obtain ⟨b0, read⟩ : ∃ b0, Board.ofFen "4k3/8/8/8/8/8/8/4K3 w - - 0 1" = .ok b0 := by
    have ok : (Board.ofFen "4k3/8/8/8/8/8/8/4K3 w - - 0 1").toBool = true := by decide +kernel
    cases read : Board.ofFen "4k3/8/8/8/8/8/8/4K3 w - - 0 1" with
    | ok b0 => exact ⟨b0, rfl⟩
    | error e =>
      rw [read] at ok
      cases ok
  have grown : History.Grown b0 _ :=
    .step (.addMove (Square.ofNat 4) (Square.ofNat 12) none) #[] .new trivial
  exact ⟨b0, _, read, rfl, grown, toHistory_ofHistory read grown none⟩

end GameRecord

end Chess
