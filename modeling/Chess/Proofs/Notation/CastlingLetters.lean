import Chess.Proofs.Notation.FenRoundTrip
import Chess.Proofs.Move.Prepare

namespace Chess

/-! Castling letters naming files. A letter of the castling field other than `KQkq` names a
file; read beside the king letter of its colour on its back rank, it only picks the wing the
file lies on. A position built from the text grants that wing to its outermost rook, the one
every castle there moves, whether or not a rook stands on the named file, and the text is
turned down only when the wing holds no rook of the colour. -/

namespace CastleRights

theorem get_set (r : CastleRights) (c : Color) (side : CastleSide) (v : Bool) (c' : Color)
    (side' : CastleSide) :
    (r.set c side v).get c' side' = if (c', side') = (c, side) then v else r.get c' side' := by
  cases c <;> cases side <;> cases c' <;> cases side' <;> rfl

end CastleRights

/-- A file lies beyond a king's file on a wing: above it on the kingside, below it on the
queenside. -/
def CastleSide.Beyond : CastleSide → Fin 8 → Fin 8 → Prop
  | .kingside, kingFile, file => kingFile < file
  | .queenside, kingFile, file => file < kingFile

instance (side : CastleSide) (kingFile file : Fin 8) : Decidable (side.Beyond kingFile file) :=
  match side with
  | .kingside => inferInstanceAs (Decidable (kingFile < file))
  | .queenside => inferInstanceAs (Decidable (file < kingFile))

theorem List.head?_filterMap_first {α β : Type} {l : List α} {g : α → Option β}
    {R : α → α → Prop} (sorted : l.Pairwise R) {v : β} (first : (l.filterMap g).head? = some v) :
    ∃ a ∈ l, g a = some v ∧ ∀ x ∈ l, (g x).isSome → x = a ∨ R a x := by
  rw [List.head?_filterMap, List.findSome?_eq_some_iff] at first
  obtain ⟨pre, a, post, rfl, found, before⟩ := first
  have after := (List.pairwise_cons.mp (List.pairwise_append.mp sorted).2.1).1
  refine ⟨a, by simp, found, fun x member some => ?_⟩
  rcases List.mem_append.mp member with early | late
  · rw [before x early] at some
    cases some
  · rcases List.mem_cons.mp late with rfl | later
    · exact Or.inl rfl
    · exact Or.inr (after x later)

namespace Fen

def castlingColor (a : Char) : Color := if a.isUpper then .white else .black

/-- One round of reading the castling field: a space ends it, and a letter, named or a file,
sets one right. -/
def castlingStep (st : Setup) (rights : CastleRights) : Reader (ForInStep CastleRights) := do
  let c ← peek
  if c = ' ' then return .done rights
  let (color, side) ←
    match c with
    | 'K' => pure (Color.white, CastleSide.kingside)
    | 'k' => pure (.black, .kingside)
    | 'Q' => pure (.white, .queenside)
    | 'q' => pure (.black, .queenside)
    | _ =>
      let color := if c.isUpper then Color.white else Color.black
      let some file := File.ofChar? c.toLower | throw .invalidCastle
      match castleSideForFile st color file with
      | .ok side => pure (color, side)
      | .error e => throw e
  advance
  return .yield (rights.set color side true)

theorem readCastling_eq (st : Setup) : readCastling st = (do
    if (← peek) = '-' then
      advance
      return {}
    bind (forIn [0, 1, 2, 3] {} fun _ rights => castlingStep st rights) pure) := by
  unfold readCastling castlingStep
  rfl

theorem castlingStep_run_space (st : Setup) (rights : CastleRights) (cs : List Char) :
    (castlingStep st rights).run (' ' :: cs) = .ok (.done rights, ' ' :: cs) := by
  simp [castlingStep]

theorem castlingStep_run_letter {st : Setup} {rights : CastleRights} {a : Char} {cs : List Char}
    {step : ForInStep CastleRights} {rest : List Char}
    (run : (castlingStep st rights).run (a :: cs) = .ok (step, rest)) (letter : a ≠ ' ') :
    rest = cs ∧ ∃ c side, step = .yield (rights.set c side true) ∧
      (a ∉ ['K', 'Q', 'k', 'q'] → ∀ f, File.ofChar? a.toLower = some f →
        c = castlingColor a ∧ castleSideForFile st c f = .ok side) := by
  unfold castlingStep at run
  simp only [StateT.run_bind, peek_run, Except.ok_bind, letter, if_false] at run
  split at run
  case h_5 _ notK notk notQ notq =>
    cases file : File.ofChar? a.toLower with
    | none => simp [file] at run
    | some f =>
      cases side : castleSideForFile st (if a.isUpper then .white else .black) f with
      | error e => simp [file, side] at run
      | ok w =>
        simp [file, side] at run
        obtain ⟨rfl, rfl⟩ := run
        exact ⟨rfl, _, w, rfl, fun _ f' file' =>
          ⟨rfl, by rw [← Option.some.inj file', side]⟩⟩
  all_goals
    simp at run
    obtain ⟨rfl, rfl⟩ := run
    exact ⟨rfl, _, _, rfl, fun named => absurd (by decide) named⟩

/-- What the rounds of reading castling letters take: characters other than a space, up to a
space or one per round. The rights only grow, and each file letter taken sets the wing of its
file beside the king of its colour. -/
theorem forIn_castlingStep_run_inv (st : Setup) :
    ∀ (l : List Nat) (acc : CastleRights) (cs : List Char) {rights : CastleRights}
      {rest : List Char},
      (forIn l acc fun _ rights => castlingStep st rights).run cs = .ok (rights, rest) →
      ∃ taken, cs = taken ++ rest ∧ ' ' ∉ taken ∧
        (∀ c side, acc.get c side = true → rights.get c side = true) ∧
        ∀ a ∈ taken, a ∉ ['K', 'Q', 'k', 'q'] → ∀ f, File.ofChar? a.toLower = some f →
          ∃ side, castleSideForFile st (castlingColor a) f = .ok side ∧
            rights.get (castlingColor a) side = true
  | [], acc, cs, _, _, run => by
    simp only [List.forIn_nil, StateT.run_pure] at run
    obtain ⟨rfl, rfl⟩ := run
    exact ⟨[], rfl, by simp, fun _ _ held => held, by simp⟩
  | i :: l, acc, [], _, _, run => by
    simp [List.forIn_cons, castlingStep, peek] at run
  | i :: l, acc, a :: cs, _, _, run => by
    by_cases space : a = ' '
    · subst space
      simp only [List.forIn_cons, StateT.run_bind, castlingStep_run_space, Except.ok_bind,
        StateT.run_pure] at run
      obtain ⟨rfl, rfl⟩ := run
      exact ⟨[], rfl, by simp, fun _ _ held => held, by simp⟩
    · rw [List.forIn_cons, StateT.run_bind] at run
      obtain ⟨⟨step, r⟩, stepped, more⟩ := Except.bind_eq_ok.mp run
      obtain ⟨rfl, c, side, rfl, named⟩ := castlingStep_run_letter stepped space
      obtain ⟨taken, rfl, plain, grows, letters⟩ :=
        forIn_castlingStep_run_inv st l (acc.set c side true) r more
      refine ⟨a :: taken, rfl, ?_, fun c' side' held => grows c' side' ?_, ?_⟩
      · simpa [Ne.symm space] using plain
      · rw [CastleRights.get_set]
        split <;> simp_all
      · intro a' member unnamed f file
        rcases List.mem_cons.mp member with rfl | later
        · obtain ⟨rfl, found⟩ := named unnamed f file
          exact ⟨side, found, grows _ _ (by simp [CastleRights.get_set])⟩
        · exact letters a' later unnamed f file

theorem readCastling_run_inv {st : Setup} {field more rest : List Char} {rights : CastleRights}
    (plain : ' ' ∉ field) (run : (readCastling st).run (field ++ ' ' :: more) = .ok (rights, ' ' :: rest))
    {a : Char} (member : a ∈ field) (unnamed : a ∉ ['K', 'Q', 'k', 'q']) {f : File}
    (file : File.ofChar? a.toLower = some f) :
    ∃ side, castleSideForFile st (castlingColor a) f = .ok side ∧
      rights.get (castlingColor a) side = true := by
  obtain ⟨x, xs, rfl⟩ := List.exists_cons_of_ne_nil (List.ne_nil_of_mem member)
  rw [readCastling_eq] at run
  obtain ⟨y, r, peeked, run⟩ := run_bind_eq_ok run
  rw [List.cons_append, peek_run] at peeked
  obtain ⟨rfl, rfl⟩ := Prod.mk.inj (Except.ok.inj peeked)
  split at run
  · rename_i dash
    subst dash
    simp only [StateT.run_bind, advance_run, Except.ok_bind, StateT.run_pure] at run
    have spaced := (Prod.mk.inj (Except.ok.inj run)).2
    have empty : xs = [] := by
      refine List.eq_nil_iff_forall_not_mem.mpr fun z inXs => ?_
      obtain ⟨w, ws, rfl⟩ := List.exists_cons_of_ne_nil (List.ne_nil_of_mem inXs)
      rw [List.cons_append, List.cons.injEq] at spaced
      exact plain (spaced.1 ▸ List.mem_cons_of_mem _ List.mem_cons_self)
    subst empty
    rw [List.mem_singleton.mp member] at file
    cases file
  · obtain ⟨read, r', looped, finished⟩ := run_bind_eq_ok run
    obtain ⟨rfl, rfl⟩ := Prod.mk.inj (Except.ok.inj finished)
    obtain ⟨taken, split, plainTaken, -, letters⟩ := forIn_castlingStep_run_inv st _ {} _ looped
    obtain ⟨rfl, -⟩ := eq_of_append_cons (P := (· ≠ ' ')) (by simp) (by simp)
      (fun z inField same => plain (same ▸ inField)) (fun z inTaken same => plainTaken (same ▸ inTaken))
      split
    exact letters a member unnamed f file

theorem fields_run_letter {st₀ : Setup} (side : Color) {sideLetter : Char}
    {field more rest : List Char} {st : Setup} (plainField : ' ' ∉ field)
    (run : (do
        advance
        expect ' '
        let castling ← readCastling st₀
        expect ' '
        let enPassant ← readEnPassant side
        expect ' '
        let halfmove ← readHalfmove
        expect ' '
        let fullmove ← readFullmove
        pure { st₀ with side, castling, enPassant, halfmove, fullmove } : Reader Setup).run
      (sideLetter :: ' ' :: (field ++ ' ' :: more)) = .ok (st, rest))
    {a : Char} (member : a ∈ field) (unnamed : a ∉ ['K', 'Q', 'k', 'q']) {f : File}
    (file : File.ofChar? a.toLower = some f) :
    ∃ wing, castleSideForFile st (castlingColor a) f = .ok wing ∧
      st.castling.get (castlingColor a) wing = true := by
  obtain ⟨_, r₁, advanced, run1⟩ := run_bind_eq_ok run
  rw [advance_run] at advanced
  obtain ⟨-, rfl⟩ := Prod.mk.inj (Except.ok.inj advanced)
  obtain ⟨_, r₂, expected, run2⟩ := run_bind_eq_ok run1
  rw [expect_run] at expected
  obtain ⟨-, rfl⟩ := Prod.mk.inj (Except.ok.inj expected)
  obtain ⟨castling, r₃, readRights, run3⟩ := run_bind_eq_ok run2
  obtain ⟨_, r₄, expected, run4⟩ := run_bind_eq_ok run3
  rw [eq_cons_of_expect_run expected] at readRights
  obtain ⟨wing, found, granted⟩ := readCastling_run_inv plainField readRights member unnamed file
  obtain ⟨_, _, -, run5⟩ := run_bind_eq_ok run4
  obtain ⟨_, _, -, run6⟩ := run_bind_eq_ok run5
  obtain ⟨_, _, -, run7⟩ := run_bind_eq_ok run6
  obtain ⟨_, _, -, run8⟩ := run_bind_eq_ok run7
  obtain ⟨_, _, -, run9⟩ := run_bind_eq_ok run8
  obtain ⟨rfl, -⟩ := Prod.mk.inj (Except.ok.inj run9)
  exact ⟨wing, found, granted⟩

theorem readFen_run_letter {placement field more rest : List Char} {sideLetter : Char}
    {st : Setup} (plainPlacement : ' ' ∉ placement) (plainField : ' ' ∉ field)
    (run : readFen.run (placement ++ ' ' :: sideLetter :: ' ' :: (field ++ ' ' :: more)) =
      .ok (st, rest))
    {a : Char} (member : a ∈ field) (unnamed : a ∉ ['K', 'Q', 'k', 'q']) {f : File}
    (file : File.ofChar? a.toLower = some f) :
    ∃ wing, castleSideForFile st (castlingColor a) f = .ok wing ∧
      st.castling.get (castlingColor a) wing = true := by
  unfold readFen at run
  obtain ⟨st₀, r₁, placed, run1⟩ := run_bind_eq_ok run
  obtain ⟨-, -, pres, -, text, presPlain, -⟩ := readPlacement_run_inv placed
  obtain ⟨_, r₂, expected, run2⟩ := run_bind_eq_ok run1
  rw [eq_cons_of_expect_run expected] at text
  have spaceFree : ∀ x ∈ List.intercalate ['/'] pres, x ≠ ' ' :=
    forall_mem_intercalate (by decide) fun p member x inP same => (presPlain p member).1 (same ▸ inP)
  obtain ⟨-, rfl⟩ := eq_of_append_cons (P := (· ≠ ' ')) (by simp) (by simp)
    (fun x inPlacement same => plainPlacement (same ▸ inPlacement)) spaceFree text
  obtain ⟨c, r₃, peeked, run3⟩ := run_bind_eq_ok run2
  rw [peek_run] at peeked
  obtain ⟨rfl, rfl⟩ := Prod.mk.inj (Except.ok.inj peeked)
  dsimp only at run3
  split at run3
  · rw [pure_bind] at run3
    exact fields_run_letter .white plainField run3 member unnamed file
  · rw [pure_bind] at run3
    exact fields_run_letter .black plainField run3 member unnamed file
  · cases run3

theorem castleSideForFile_eq_ok {st : Setup} {c : Color} {f : File} {wing : CastleSide}
    (found : castleSideForFile st c f = .ok wing) :
    ∃ kf : Fin 8, st.letterAt kf (Rank.back c).index = pieceLetter .king c ∧
      wing.Beyond kf f.index := by
  unfold castleSideForFile at found
  cases first : (List.finRange 8).find?
      (fun f => st.letterAt f (Rank.back c).index = pieceLetter .king c) with
  | none => simp [first] at found
  | some kf =>
    have king := List.find?_some first
    simp only [decide_eq_true_eq] at king
    refine ⟨kf, king, ?_⟩
    simp only [first] at found
    by_cases above : f.index > kf
    · simp only [above, if_true] at found
      cases found
      exact above
    · by_cases below : f.index < kf
      · simp only [above, below, if_true, if_false] at found
        cases found
        exact below
      · simp [above, below] at found


theorem readFen_run_of_parse {text : String} {st : Setup} (parsed : parse text = .ok st) :
    ∃ rest, readFen.run (Text.trimBlank text).toList = .ok (st, rest) := by
  rw [parse_eq] at parsed
  cases run : readFen.run (Text.trimBlank text).toList with
  | error e =>
    rw [run] at parsed
    cases parsed
  | ok result =>
    rw [run] at parsed
    exact ⟨result.2, by rw [← Except.ok.inj parsed]⟩

end Fen

namespace Board

variable {b : Board}

theorem Coherent.castleRook?_outermost (coherent : b.Coherent) {c : Color} {side : CastleSide}
    {r r' : PieceId} {s s' ks : Square} (rook : b.castleRook? c side = some r)
    (held : b.occupant s = some r) (kingSq : b.kingSquare c = some ks)
    (held' : b.occupant s' = some r') (kind' : (b.piece r').kind = .rook)
    (color' : (b.piece r').color = c) (rank' : s'.rank = Rank.back c)
    (beyond : side.Beyond ks.file.index s'.file.index) :
    ¬ side.Beyond s.file.index s'.file.index := by
  unfold castleRook? wingRooks at rook
  simp only [kingSq] at rook
  split at rook
  · cases rook
  have standing : ∀ {t : Square} {id : PieceId}, b.occupant t = some id → t.rank = Rank.back c →
      b.occupant (Square.make ⟨⟨t.file.index.val % 8, Nat.mod_lt _ (by decide)⟩⟩ (Rank.back c)) =
        some id := by
    intro t id occupied rank
    have same : Square.make ⟨⟨t.file.index.val % 8, Nat.mod_lt _ (by decide)⟩⟩ (Rank.back c) = t := by
      rw [← rank]
      conv_rhs => rw [← Square.make_file_rank t]
      simp [Nat.mod_eq_of_lt t.file.index.isLt]
    rw [same, occupied]
  have castleSquare : ∀ {a : Nat}, b.occupant
      (Square.make ⟨⟨a % 8, Nat.mod_lt _ (by decide)⟩⟩ (Rank.back c)) = some r → a < 8 →
      s.file.index.val = a := by
    intro a occupied small
    rw [← coherent.square_eq_of_occupant occupied held]
    simp [Nat.mod_eq_of_lt small]
  cases side with
  | kingside =>
    have sorted : ((List.range 8).filter fun x => decide (x > ks.file.index.val)).reverse.Pairwise
        (· > ·) :=
      List.pairwise_reverse.mpr (List.pairwise_lt_range.filter _)
    obtain ⟨a, member, found, first⟩ := List.head?_filterMap_first sorted rook
    simp only [List.mem_reverse, List.mem_filter, List.mem_range] at member
    split at found
    · split at found
      · cases found
        rename_i occupied _
        have atA := castleSquare occupied member.1
        have later := first s'.file.index.val
          (List.mem_reverse.mpr (List.mem_filter.mpr
            ⟨List.mem_range.mpr s'.file.index.isLt, decide_eq_true (Fin.lt_def.mp beyond)⟩))
          (by rw [standing held' rank']; simp [color', kind'])
        simp only [CastleSide.Beyond, Fin.lt_def]
        omega
      · cases found
    · cases found
  | queenside =>
    have sorted : ((List.range 8).filter fun x => decide (x < ks.file.index.val)).Pairwise (· < ·) :=
      List.pairwise_lt_range.filter _
    obtain ⟨a, member, found, first⟩ := List.head?_filterMap_first sorted rook
    simp only [List.mem_filter, List.mem_range] at member
    split at found
    · split at found
      · cases found
        rename_i occupied _
        have atA := castleSquare occupied member.1
        have later := first s'.file.index.val
          (List.mem_filter.mpr
            ⟨List.mem_range.mpr s'.file.index.isLt, decide_eq_true (Fin.lt_def.mp beyond)⟩)
          (by rw [standing held' rank']; simp [color', kind'])
        simp only [CastleSide.Beyond, Fin.lt_def]
        omega
      · cases found
    · cases found

/-! ### Positions read from a text -/

theorem ofFen_eq_ok_iff {text : String} :
    Board.ofFen text = .ok b ↔ ∃ st, Fen.parse text = .ok st ∧ Board.ofSetup st = .ok b := by
  unfold ofFen
  cases Fen.parse text with
  | error e => simp
  | ok st => cases built : ofSetup st <;> simp [built]

theorem ofFen_eq_error {text : String} {st : Setup} {e : MoveError} (parsed : Fen.parse text = .ok st)
    (rejected : Board.ofSetup st = .error e) : Board.ofFen text = .error (.invalidPosition e) := by
  simp [ofFen, parsed, rejected]

theorem letterOn_of_occupant {s : Square} {id : PieceId} (held : b.occupant s = some id) :
    b.letterOn s = pieceLetter (b.piece id).kind (b.piece id).color := by
  simp [letterOn, pieceAt?, held, Piece.letter]

theorem Coherent.kingSquare_eq_some_iff_letterOn (coherent : b.Coherent) {c : Color} {s : Square} :
    b.kingSquare c = some s ↔ b.letterOn s = pieceLetter .king c := by
  constructor
  · intro kingSq
    obtain ⟨id, held, kind, color⟩ := (coherent.kingSquare_eq_some_iff c s).mp kingSq
    rw [letterOn_of_occupant held, kind, color]
  · intro shown
    rw [coherent.kingSquare_eq_some_iff_kinds, ← pieceOfLetter?_letterOn, shown,
      pieceOfLetter?_pieceLetter]

theorem beyond_of_mem_wingRooks {c : Color} {side : CastleSide} {r : PieceId}
    (member : r ∈ b.wingRooks c side) :
    ∃ ks s, b.kingSquare c = some ks ∧ b.occupant s = some r ∧
      side.Beyond ks.file.index s.file.index := by
  obtain ⟨ks, s, kingSq, held, -, kingside, queenside⟩ := file_of_mem_wingRooks member
  refine ⟨ks, s, kingSq, held, ?_⟩
  cases side with
  | kingside => exact kingside rfl
  | queenside => exact queenside rfl

section Letter

variable {text : String} {placement field more : List Char} {sideLetter a : Char} {f : File}
  {c : Color}

/-- A position read from a text whose castling field holds a file letter: the king of the
letter's colour stands on its back rank with the letter's file on one wing of it, the colour may
castle on that wing, and it castles there with its outermost rook of the wing, wherever the
named file is. -/
theorem castleRook_of_castlingLetter
    (split : (Text.trimBlank text).toList =
      placement ++ ' ' :: sideLetter :: ' ' :: (field ++ ' ' :: more))
    (plainPlacement : ' ' ∉ placement) (plainField : ' ' ∉ field) (member : a ∈ field)
    (unnamed : a ∉ ['K', 'Q', 'k', 'q']) (file : File.ofChar? a.toLower = some f)
    (color : Fen.castlingColor a = c) (built : Board.ofFen text = .ok b) :
    ∃ ks wing r s, b.kingSquare c = some ks ∧ ks.rank = Rank.back c ∧
      wing.Beyond ks.file.index f.index ∧ b.canCastle c wing = true ∧
      b.castleRook? c wing = some r ∧ b.occupant s = some r ∧ (b.piece r).kind = .rook ∧
      (b.piece r).color = c ∧ s.rank = Rank.back c ∧ wing.Beyond ks.file.index s.file.index ∧
      (∀ r' s', b.occupant s' = some r' → (b.piece r').kind = .rook → (b.piece r').color = c →
        s'.rank = Rank.back c → wing.Beyond ks.file.index s'.file.index →
        ¬ wing.Beyond s.file.index s'.file.index) ∧
      ∀ plan, b.castlePlan? c wing = some plan → plan.rook = r ∧ plan.rookFrom = s := by
  subst color
  obtain ⟨st, parsed, fromSetup⟩ := ofFen_eq_ok_iff.mp built
  have coherent := (WellFormed.ofSetup fromSetup).toCoherent
  have shows : b.setup = st := setup_ofSetup fromSetup
  obtain ⟨rest, run⟩ := Fen.readFen_run_of_parse parsed
  rw [split] at run
  obtain ⟨wing, found, granted⟩ :=
    Fen.readFen_run_letter plainPlacement plainField run member unnamed file
  obtain ⟨kf, kingLetter, beyondF⟩ := Fen.castleSideForFile_eq_ok found
  have kingSq : b.kingSquare (Fen.castlingColor a) =
      some (Square.make ⟨kf⟩ (Rank.back (Fen.castlingColor a))) := by
    refine coherent.kingSquare_eq_some_iff_letterOn.mpr ?_
    rw [← setup_letterOn, shows]
    simpa [Setup.letterOn] using kingLetter
  have can : b.canCastle (Fen.castlingColor a) wing = true := by
    rw [← castleRights_get]
    rw [← shows] at granted
    exact granted
  obtain ⟨-, r, -, rook⟩ := exists_of_canCastle can
  obtain ⟨s, held, rank, color, kind⟩ := occupant_of_castleRook? rook
  obtain ⟨ks, s', kingSq', held', beyondS⟩ := beyond_of_mem_wingRooks (List.mem_of_head? rook)
  obtain rfl : s = s' := coherent.square_eq_of_occupant held held'
  obtain rfl : ks = Square.make ⟨kf⟩ (Rank.back (Fen.castlingColor a)) :=
    Option.some.inj (kingSq'.symm.trans kingSq)
  refine ⟨_, wing, r, s, kingSq, Square.rank_make _ _, by simpa using beyondF, can, rook, held,
    kind, color, rank, beyondS, fun r' s' held' kind' color' rank' beyond' =>
      coherent.castleRook?_outermost rook held kingSq held' kind' color' rank' beyond', ?_⟩
  intro plan planned
  obtain ⟨-, rook', -, rookFrom, -⟩ := castlePlan?_eq_some planned
  obtain rfl : plan.rook = r := Option.some.inj (rook'.symm.trans rook)
  exact ⟨rfl, Option.some.inj (rookFrom.symm.trans (coherent.piece_square_of_occupant held))⟩

/-- A file letter in the castling field of a text settles one wing of the king of its colour.
A position read from the text castles there with the outermost rook of that colour on the wing,
wherever the named file is; the text is turned down as an invalid position when the wing, as its
placement shows it, holds no rook of the colour. -/
theorem castlingLetter_grants_outermost_rook
    (split : (Text.trimBlank text).toList =
      placement ++ ' ' :: sideLetter :: ' ' :: (field ++ ' ' :: more))
    (plainPlacement : ' ' ∉ placement) (plainField : ' ' ∉ field) (member : a ∈ field)
    (unnamed : a ∉ ['K', 'Q', 'k', 'q']) (file : File.ofChar? a.toLower = some f)
    (color : Fen.castlingColor a = c) :
    (∀ b, Board.ofFen text = .ok b → ∃ ks wing r s, b.kingSquare c = some ks ∧
      ks.rank = Rank.back c ∧ wing.Beyond ks.file.index f.index ∧ b.canCastle c wing = true ∧
      b.castleRook? c wing = some r ∧ b.occupant s = some r ∧ (b.piece r).kind = .rook ∧
      (b.piece r).color = c ∧ s.rank = Rank.back c ∧ wing.Beyond ks.file.index s.file.index ∧
      (∀ r' s', b.occupant s' = some r' → (b.piece r').kind = .rook → (b.piece r').color = c →
        s'.rank = Rank.back c → wing.Beyond ks.file.index s'.file.index →
        ¬ wing.Beyond s.file.index s'.file.index) ∧
      ∀ plan, b.castlePlan? c wing = some plan → plan.rook = r ∧ plan.rookFrom = s) ∧
    (∀ st, Fen.parse text = .ok st →
      (∀ (kf : Fin 8) (wing : CastleSide), st.letterAt kf (Rank.back c).index = pieceLetter .king c →
        wing.Beyond kf f.index → ∀ f', wing.Beyond kf f' →
          st.letterAt f' (Rank.back c).index ≠ pieceLetter .rook c) →
      ∃ e, Board.ofFen text = .error (.invalidPosition e)) := by
  refine ⟨fun b built =>
    castleRook_of_castlingLetter split plainPlacement plainField member unnamed file color built, ?_⟩
  intro st parsed rookless
  cases fromSetup : Board.ofSetup st with
  | error e => exact ⟨e, ofFen_eq_error parsed fromSetup⟩
  | ok b =>
    obtain ⟨ks, wing, r, s, kingSq, kingRank, beyondF, -, -, held, kind, color', rank, beyondS, -⟩ :=
      castleRook_of_castlingLetter split plainPlacement plainField member unnamed file color
        (ofFen_eq_ok_iff.mpr ⟨st, parsed, fromSetup⟩)
    have coherent := (WellFormed.ofSetup fromSetup).toCoherent
    have shown (t : Square) : st.letterAt t.file.index t.rank.index = b.letterOn t := by
      rw [← setup_ofSetup fromSetup]
      exact setup_letterOn b t
    have kingLetter := shown ks
    rw [kingRank, coherent.kingSquare_eq_some_iff_letterOn.mp kingSq] at kingLetter
    have rookLetter := shown s
    rw [rank, letterOn_of_occupant held, kind, color'] at rookLetter
    exact absurd rookLetter (rookless _ wing kingLetter beyondF _ beyondS)

/-- The b-file letter beside a king on e1 and a rook on a1 gives White a castle rook. -/
theorem castlingLetter_grants_outermost_rook_bFile :
    ∃ b, Board.ofFen "4k3/8/8/8/8/8/8/R3K3 w B - 0 1" = .ok b ∧
      ∃ wing r, b.canCastle .white wing = true ∧ b.castleRook? .white wing = some r ∧
        (b.piece r).kind = .rook := by
  have split : (Text.trimBlank "4k3/8/8/8/8/8/8/R3K3 w B - 0 1").toList =
      "4k3/8/8/8/8/8/8/R3K3".toList ++ ' ' :: 'w' :: ' ' :: (['B'] ++ ' ' :: "- 0 1".toList) := by
    decide +kernel
  have accepted : (Board.ofFen "4k3/8/8/8/8/8/8/R3K3 w B - 0 1").toOption.isSome = true := by
    decide +kernel
  cases built : Board.ofFen "4k3/8/8/8/8/8/8/R3K3 w B - 0 1" with
  | error e =>
    rw [built] at accepted
    cases accepted
  | ok b =>
    obtain ⟨-, wing, r, -, -, -, -, can, rook, -, kind, -⟩ :=
      (castlingLetter_grants_outermost_rook split (by decide +kernel) (by decide) (a := 'B')
        (by decide) (by decide) (f := ⟨1⟩) (by decide +kernel) (c := .white) (by decide)).1 b built
    exact ⟨b, rfl, wing, r, can, rook, kind⟩

/-- The b-file letter is accepted beside a king on e1 and a rook on a1 alone, with b1 empty:
the right goes to the a1 rook. -/
theorem ofFen_accepts_letter_of_rookless_file :
    (Board.ofFen "4k3/8/8/8/8/8/8/R3K3 w B - 0 1").toOption.map
      (fun b => (b.occupant (Square.ofNat 1)).isNone && b.canCastle .white .queenside) =
      some true := by
  decide +kernel

end Letter

end Board

end Chess
