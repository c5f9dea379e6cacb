import Chess.Proofs.Board.Settled
import Chess.Proofs.Board.Coherence

namespace Chess

/-! What regeneration computes for a square. Two coherent boards that show one position (the
same kind and colour on every square, the same side to move, en-passant file and castling
rights) may still differ in piece ids, roster order, move counts and captured pieces. The
passes of regeneration read none of these: the passes that run over a roster change only the
piece they visit, or the piece it pins, so they are read piece by piece here, and their order
does not matter. -/

/-- What the movement rules read of a piece on a square: kind, colour and the squares it was
last found to reach. -/
structure Sight where
  kind : PieceKind
  color : Color
  targets : SquareSet
  guards : SquareSet
  quiet : SquareSet
  castleTargets : SquareSet

def Piece.sight (p : Piece) : Sight :=
  ⟨p.kind, p.color, p.targets, p.guards, p.quiet, p.castleTargets⟩

@[simp] theorem Piece.square_default : (default : Piece).square = none := rfl

def CastlePlan.route (plan : CastlePlan) : CastlePlan := { plan with king := ⟨0⟩, rook := ⟨0⟩ }

def Status.sight (st : Status) : Status :=
  { st with kingside := st.kingside.map CastlePlan.route,
            queenside := st.queenside.map CastlePlan.route }

namespace Board

def sightOn (b : Board) (s : Square) : Option Sight :=
  (b.occupant s).bind fun id => (b.piece? id).map Piece.sight

section Edits

variable (b : Board)

theorem modifyPiece_of_fixes {id : PieceId} {f : Piece → Piece}
    (fixes : ∀ p, b.piece? id = some p → f p = p) : b.modifyPiece id f = b := by
  have pieces : b.pieces.modify id.index f = b.pieces := by
    apply Array.ext
    · simp
    · intro i inside _
      simp only [Array.getElem_modify]
      split
      · rename_i here
        subst here
        exact fixes _ (by simp [piece?])
      · rfl
  simp [modifyPiece, pieces]

theorem modifyPiece_eq_of_piece? {id : PieceId} {p : Piece} (found : b.piece? id = some p)
    (f : Piece → Piece) : b.modifyPiece id f = b.modifyPiece id fun _ => f p := by
  have pieces : b.pieces.modify id.index f = b.pieces.modify id.index fun _ => f p := by
    apply Array.ext
    · simp
    · intro i inside _
      simp only [Array.getElem_modify]
      split
      · rename_i here
        subst here
        simp only [piece?, Array.getElem?_eq_some_iff] at found
        rw [found.2]
      · rfl
  simp [modifyPiece, pieces]

theorem eq_modifyPiece_of_cases {w : Board} {id : PieceId} {f : Piece → Piece}
    (missing : b.piece? id = none → w = b)
    (found : ∀ p, b.piece? id = some p → w = b.modifyPiece id fun _ => f p) :
    w = b.modifyPiece id f := by
  cases held : b.piece? id with
  | none =>
    rw [missing held, modifyPiece_of_fixes]
    simp [held]
  | some p => rw [found p held, ← modifyPiece_eq_of_piece? b held]

theorem modifyPiece_const_self {id : PieceId} {p : Piece} (found : b.piece? id = some p) :
    b.modifyPiece id (fun _ => p) = b :=
  modifyPiece_of_fixes b fun q held => by rw [found] at held; exact Option.some.inj held

end Edits

theorem piece?_foldl_own {r : Board} {F : Board → PieceId → Board} {G : PieceId → Piece → Piece}
    (keeps : ∀ id p, (G id p).bare = p.bare)
    (step : ∀ z id, z.bare = r.bare → F z id = z.modifyPiece id (G id)) :
    ∀ (ids : List PieceId), ids.Nodup → ∀ z, z.bare = r.bare → ∀ t,
      (ids.foldl F z).piece? t = (z.piece? t).map fun p => if t ∈ ids then G t p else p
  | [], _, z, _, t => by simp
  | id :: rest, nodup, z, same, t => by
    have fresh := List.nodup_cons.mp nodup
    have same' : (z.modifyPiece id (G id)).bare = r.bare :=
      (bare_modifyPiece z id (keeps id)).trans same
    rw [List.foldl_cons, step z id same, piece?_foldl_own keeps step rest fresh.2 _ same' t,
      piece?_modifyPiece]
    by_cases here : t = id
    · subst here
      simp [fresh.1, Function.comp_def]
    · simp [here]

section Passes

variable (b : Board)

/-- The targets a piece on `origin` keeps when the side to move is in check from the single
piece on `checker`: the checker's square and, against a slider, the squares between it and
the king; a pawn also keeps its en-passant capture of a checking pawn. -/
def keptInCheck (kingSq checker origin : Square) (p : Piece) : SquareSet :=
  let allowed :=
    match b.pieceAt? checker with
    | some q =>
      if q.kind.slides then SquareSet.single checker ∪ Square.between checker kingSq
      else SquareSet.single checker
    | none => SquareSet.single checker
  let kept := p.targets ∩ allowed
  if p.kind = .pawn then
    (p.targets \ allowed).toList.foldl (fun kept s =>
      if (b.occupant s).isNone ∧ b.enPassantVictim? origin s b.side = some checker then
        kept.insert s
      else kept) kept
  else kept

/-- What a single check leaves of a piece of the side to move: its king is left alone, any
other piece on the board keeps `keptInCheck`. -/
def inCheckStep (king : PieceId) (kingSq checker : Square) (id : PieceId) (p : Piece) : Piece :=
  match p.square with
  | some origin =>
    if id = king then p else { p with targets := b.keptInCheck kingSq checker origin p }
  | none => p

/-- The targets a pawn on `origin` keeps once each en-passant capture that would leave the
king on `kingSq` attacked, on the occupancy `occ` of the board before the pass, is dropped. -/
def keptAfterEnPassant (kingSq : Square) (occ : SquareSet) (origin : Square) (p : Piece) :
    SquareSet :=
  p.targets.toList.foldl (fun kept s =>
    if s.file = origin.file ∨ (b.occupant s).isSome then kept
    else
      match b.enPassantVictim? origin s b.side with
      | some victim =>
        let after := ((occ.erase origin).erase victim).insert s
        if b.isAttackedWith kingSq b.side.opponent after then kept.erase s else kept
      | none => kept) p.targets

/-- What the en-passant check leaves of a piece of the side to move: a pawn on the board keeps
`keptAfterEnPassant`, any other piece is left alone. -/
def enPassantStep (kingSq : Square) (occ : SquareSet) (p : Piece) : Piece :=
  match p.square with
  | some origin =>
    if p.kind ≠ .pawn then p else { p with targets := b.keptAfterEnPassant kingSq occ origin p }
  | none => p

theorem piece?_freezeAllBut (nodup : (b.roster b.side).toList.Nodup) (king t : PieceId) :
    (b.freezeAllBut king).piece? t = (b.piece? t).map fun p =>
      if t ∈ (b.roster b.side).toList ∧ t ≠ king then { p with targets := SquareSet.empty }
      else p := by
  unfold freezeAllBut
  rw [← Array.foldl_toList, piece?_foldl_own (r := b)
    (G := fun id q => if id = king then q else { q with targets := SquareSet.empty })
    (fun id p => by split <;> rfl) (fun z id _ => ?_) _ nodup b rfl t]
  · congr 1
    funext p
    by_cases here : t = king <;> simp [here]
  · by_cases here : id = king
    · simp only [here, if_true]
      exact (modifyPiece_of_fixes z fun _ _ => rfl).symm
    · simp [here]

theorem piece?_restrictToCheckResolutions (nodup : (b.roster b.side).toList.Nodup)
    (king : PieceId) (kingSq checker : Square) (t : PieceId) :
    (b.restrictToCheckResolutions king kingSq checker).piece? t = (b.piece? t).map fun p =>
      if t ∈ (b.roster b.side).toList then b.inCheckStep king kingSq checker t p else p := by
  unfold restrictToCheckResolutions
  rw [← Array.foldl_toList, piece?_foldl_own (r := b) (G := b.inCheckStep king kingSq checker)
    (fun id p => ?_) (fun z id same => ?_) _ nodup b rfl t]
  · unfold inCheckStep
    split
    · split <;> rfl
    · rfl
  · have agree := Agree.of_bare same
    apply eq_modifyPiece_of_cases z
    · intro missing
      simp [Board.piece, missing]
    · intro p found
      simp only [piece_eq_of_piece? z found]
      cases square : p.square with
      | none =>
        simp only [inCheckStep, square]
        exact (modifyPiece_const_self z found).symm
      | some origin =>
        by_cases here : id = king
        · simp only [inCheckStep, square, if_pos here]
          exact (modifyPiece_const_self z found).symm
        · simp only [inCheckStep, square, if_neg here]
          rw [modifyPiece_eq_of_piece? z found]
          simp only [agree.occupant, agree.enPassantVictim?, square]
          rfl

theorem piece?_dropExposingEnPassant (nodup : (b.roster b.side).toList.Nodup) (kingSq : Square)
    (t : PieceId) :
    (b.dropExposingEnPassant kingSq).piece? t = (b.piece? t).map fun p =>
      if t ∈ (b.roster b.side).toList then b.enPassantStep kingSq b.occupancy p else p := by
  unfold dropExposingEnPassant
  rw [← Array.foldl_toList, piece?_foldl_own (r := b)
    (G := fun _ => b.enPassantStep kingSq b.occupancy) (fun id p => ?_) (fun z id same => ?_)
    _ nodup b rfl t]
  · unfold enPassantStep
    split
    · split <;> rfl
    · rfl
  · have agree := Agree.of_bare same
    apply eq_modifyPiece_of_cases z
    · intro missing
      simp [Board.piece, missing]
    · intro p found
      simp only [piece_eq_of_piece? z found]
      cases square : p.square with
      | none =>
        simp only [enPassantStep, square]
        exact (modifyPiece_const_self z found).symm
      | some origin =>
        by_cases pawn : p.kind ≠ .pawn
        · simp only [enPassantStep, square, if_pos pawn]
          exact (modifyPiece_const_self z found).symm
        · simp only [enPassantStep, square, if_neg pawn]
          rw [modifyPiece_eq_of_piece? z found]
          simp only [agree.occupant, agree.enPassantVictim?, agree.isAttackedWith, square]
          rfl

/-- One square of the scan from an enemy slider toward the king: a blocked line stays
blocked, the first piece met is kept, and a second piece or a first piece of the slider's own
side blocks the line. -/
def pinScanStep (them : Color) (acc : Option PieceId × Bool) (s : Square) : Option PieceId × Bool :=
  match acc with
  | (_, true) => acc
  | (pinned, false) =>
    match b.occupant s with
    | some id =>
      if pinned.isSome ∨ (b.piece id).color = them then (pinned, true) else (some id, false)
    | none => acc

/-- The scan from an enemy slider toward the king over the squares between them: the first
piece met, and whether the line is blocked. -/
def pinScan (them : Color) (squares : List Square) : Option PieceId × Bool :=
  squares.foldl (b.pinScanStep them) (none, false)

/-- The piece an enemy slider pins to the king on `kingSq`, with the line it must keep to:
the slider's square and the squares between. -/
def pinOf? (kingSq : Square) (them : Color) (enemy : PieceId) : Option (PieceId × List Square) :=
  let p := b.piece enemy
  match p.square with
  | some origin =>
    if !p.kind.slides then none
    else
      match origin.lineTo? kingSq p.kind.directions false with
      | some line =>
        match b.pinScan them (line.drop 1) with
        | (some pinned, false) => some (pinned, line)
        | _ => none
      | none => none
  | none => none

theorem restrictPins_eq (kingSq : Square) (them : Color) :
    b.restrictPins kingSq them = (b.roster them).toList.foldl (fun z e =>
      (z.pinOf? kingSq them e).elim z fun pin =>
        z.modifyPiece pin.1 fun q => { q with targets := q.targets ∩ SquareSet.ofList pin.2 }) b := by
  unfold restrictPins
  rw [← Array.foldl_toList]
  congr 1
  funext z e
  simp only [pinOf?]
  cases square : (z.piece e).square with
  | none => rfl
  | some origin =>
    by_cases slides : (z.piece e).kind.slides = true
    · cases reach : origin.lineTo? kingSq (z.piece e).kind.directions false with
      | none => simp [slides, reach]
      | some line =>
        simp only [slides, reach, Bool.not_true, Bool.false_eq_true, if_false]
        cases scan : z.pinScan them (line.drop 1) with
        | mk pinned blocked =>
          split
          · rename_i pinned' scanned
            cases scanned.symm.trans scan
            rfl
          · rename_i unpinned
            cases pinned with
            | none => rfl
            | some pinned =>
              cases blocked with
              | true => rfl
              | false => exact absurd scan (unpinned pinned)
    · simp [slides]

theorem pinScan_of_bare {z : Board} (same : z.bare = b.bare) (them : Color) (squares : List Square) :
    z.pinScan them squares = b.pinScan them squares := by
  unfold pinScan
  congr 1
  funext acc s
  unfold pinScanStep
  split
  · rfl
  · rw [occupant_of_bare same]
    split
    · rename_i id _
      rw [← Piece.bare_color, piece_bare_of_bare same id, Piece.bare_color]
    · rfl

theorem pinOf?_of_bare {z : Board} (same : z.bare = b.bare) (kingSq : Square) (them : Color)
    (enemy : PieceId) : z.pinOf? kingSq them enemy = b.pinOf? kingSq them enemy := by
  have bare := piece_bare_of_bare same enemy
  have kind : (z.piece enemy).kind = (b.piece enemy).kind := by
    rw [← Piece.bare_kind, bare, Piece.bare_kind]
  have square : (z.piece enemy).square = (b.piece enemy).square := by
    rw [← Piece.bare_square, bare, Piece.bare_square]
  simp only [pinOf?, kind, square, pinScan_of_bare b same]

theorem piece?_restrictPins (kingSq : Square) (them : Color) (t : PieceId) :
    (b.restrictPins kingSq them).piece? t = (b.piece? t).map fun p =>
      { p with targets := p.targets.filter fun w => (b.roster them).toList.all fun e =>
          (b.pinOf? kingSq them e).all fun pin => pin.1 ≠ t || pin.2.contains w } := by
  rw [restrictPins_eq]
  suffices pass : ∀ (enemies : List PieceId) (z : Board), z.bare = b.bare →
      (enemies.foldl (fun z e => (z.pinOf? kingSq them e).elim z fun pin =>
        z.modifyPiece pin.1 fun q => { q with targets := q.targets ∩ SquareSet.ofList pin.2 })
          z).piece? t =
      (z.piece? t).map fun p =>
        { p with targets := p.targets.filter fun w => enemies.all fun e =>
            (b.pinOf? kingSq them e).all fun pin => pin.1 ≠ t || pin.2.contains w } by
    exact pass _ b rfl
  intro enemies
  induction enemies with
  | nil =>
    intro z _
    simp only [List.foldl_nil, List.all_nil]
    cases z.piece? t with
    | none => rfl
    | some p =>
      simp only [Option.map_some, Option.some.injEq]
      have kept : p.targets.filter (fun _ => true) = p.targets := SquareSet.ext fun w => by simp
      rw [kept]
  | cons e rest ih =>
    intro z same
    rw [List.foldl_cons, pinOf?_of_bare b same]
    cases pin : b.pinOf? kingSq them e with
    | none =>
      simp only [Option.elim_none]
      rw [ih z same]
      simp [pin]
    | some pin' =>
      obtain ⟨pinned, line⟩ := pin'
      simp only [Option.elim_some]
      have same' : (z.modifyPiece pinned fun q =>
          { q with targets := q.targets ∩ SquareSet.ofList line }).bare = b.bare :=
        (bare_modifyPiece (f := fun q => { q with targets := q.targets ∩ SquareSet.ofList line })
          z pinned fun _ => rfl).trans same
      rw [ih _ same', piece?_modifyPiece]
      by_cases here : t = pinned
      · subst here
        rw [if_pos rfl]
        cases z.piece? t with
        | none => rfl
        | some p =>
          simp only [Option.map_some, Option.some.injEq]
          congr 1
          exact SquareSet.ext fun w => by simp [pin, Bool.and_assoc]
      · rw [if_neg here]
        simp [pin, Ne.symm here]

end Passes

end Board

end Chess
