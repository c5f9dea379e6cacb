import Chess.Proofs.Pgn.Parse
import Chess.Proofs.Pgn.Wrap

namespace Chess

/-! The items a written game reads back as. Each line of the tree writes its first move, after a
first sibling the other siblings' lines as variations, then the rest of the line; move numbers
are tokens only and leave no item. The tokens `lineTokens` writes are a movetext of these items,
so a written game parses as its tags, these items and its result. -/

namespace History

/-- The movetext items of the line from a node, as `lineTokens` writes it: the node's move,
then, after a first sibling, the other siblings' lines as variations, then the line after the
node. At most `fuel` nodes deep. -/
def lineItems (h : History) : Nat → Option NodeId → List PgnItem
  | 0, _ => []
  | _, none => []
  | fuel + 1, some id =>
    match h.get? id with
    | none => []
    | some m =>
      let siblings := (h.continuations? (h.parent? id)).getD #[]
      let others := if siblings[0]? = some id then siblings.toList.drop 1 else []
      .move m.san :: (others.map fun v => .variation (h.lineItems fuel (some v)) :
        List PgnItem) ++ h.lineItems fuel ((h.continuations? (some id)).bind (·[0]?))

def movetextItems (h : History) : List PgnItem :=
  h.lineItems (h.nodes.size + 1) h.root[0]?

end History

namespace Pgn

theorem Movetext.append {xs ys : List PgnItem} {ts us : List String} (first : Movetext xs ts)
    (second : Movetext ys us) : Movetext (xs ++ ys) (ts ++ us) := by
  induction first with
  | nil => exact second
  | move word _ ih => exact .move word ih
  | numbered numeral _ ih => exact .numbered numeral ih
  | variation inside _ _ ih =>
    rw [List.cons_append, List.cons_append, List.append_assoc, List.cons_append]
    exact .variation inside ih

theorem isAlpha_letter (f : File) : isAlpha f.letter = true := by
  obtain ⟨⟨i, bound⟩⟩ := f
  revert i
  decide

theorem isDigit_digit (r : Rank) : isDigit r.digit = true := by
  obtain ⟨⟨i, bound⟩⟩ := r
  revert i
  decide

theorem sanChar_of_isAlpha {d : Char} (alpha : isAlpha d = true) : sanChar d = true := by
  simp [sanChar, isAlnum, alpha]

theorem sanChar_of_isDigit {d : Char} (digit : isDigit d = true) : sanChar d = true := by
  simp [sanChar, isAlnum, digit]

theorem isAlpha_sanLetter {k : PieceKind} {c : Char} (letter : k.sanLetter? = some c) :
    isAlpha c = true := by
  cases k <;> simp [PieceKind.sanLetter?] at letter <;> subst letter <;> decide

theorem sanChar_of_isMark {mark : List Char} (marked : San.IsMark mark) : ∀ d ∈ mark, sanChar d = true := by
  rcases marked with rfl | rfl | rfl <;> simp <;> decide

theorem sanChar_moveText {letter : Option Char} (lettered : ∀ c ∈ letter, isAlpha c = true)
    (file : Option File) (rank : Option Rank) (capture : Bool) (t : Square) {promotion : Option Char}
    (promoted : ∀ c ∈ promotion, isAlpha c = true) {mark : List Char} (marked : San.IsMark mark) :
    ∀ d ∈ San.moveText letter file rank capture t promotion mark, sanChar d = true := by
  intro d member
  simp only [San.moveText, San.promotionText, San.captureText, List.mem_append, List.mem_cons,
    Option.mem_toList, Option.map_eq_some_iff] at member
  rcases member with ((((found | ⟨f, -, rfl⟩) | ⟨r, -, rfl⟩) | x) | rfl | rfl | promo | marks)
  · exact sanChar_of_isAlpha (lettered d found)
  · exact sanChar_of_isAlpha (isAlpha_letter f)
  · exact sanChar_of_isDigit (isDigit_digit r)
  · have capture : d = 'x' := by cases capture <;> simp_all
    subst capture
    decide
  · exact sanChar_of_isAlpha (isAlpha_letter t.file)
  · exact sanChar_of_isDigit (isDigit_digit t.rank)
  · rcases promotion with _ | p
    · simp at promo
    · simp only [List.mem_cons, List.not_mem_nil, or_false] at promo
      rcases promo with rfl | rfl
      · decide
      · exact sanChar_of_isAlpha (promoted d rfl)
  · exact sanChar_of_isMark marked d marks

theorem sanToken_of_moveText {t : String} {letter : Option Char}
    (lettered : ∀ c ∈ letter, isAlpha c = true) {file : Option File} {rank : Option Rank}
    (lead : letter = none → file = none → rank = none) {capture : Bool} {target : Square}
    {promotion : Option Char} (promoted : ∀ c ∈ promotion, isAlpha c = true) {mark : List Char}
    (marked : San.IsMark mark) (text : t.toList = San.moveText letter file rank capture target promotion mark) :
    SanToken t := by
  have chars := sanChar_moveText lettered file rank capture target promoted marked
  rw [← text] at chars
  obtain ⟨ch, more, spelled, alpha⟩ : ∃ ch more, t.toList = ch :: more ∧ isAlpha ch = true := by
    rw [text]
    rcases letter with _ | c
    · rcases file with _ | f
      · rw [lead rfl rfl]
        cases capture
        · exact ⟨_, _, rfl, isAlpha_letter target.file⟩
        · exact ⟨_, _, rfl, by decide⟩
      · exact ⟨_, _, rfl, isAlpha_letter f⟩
    · exact ⟨_, _, rfl, lettered c rfl⟩
  exact ⟨ch, more, spelled, alpha, fun d member => chars d (by rw [spelled]; exact .tail _ member)⟩

theorem Move.san_sanToken (m : Move) : SanToken m.san := by
  cases castle : m.castle with
  | some side =>
    obtain ⟨mark, marked, text⟩ := Move.san_toList_of_castle castle
    have marks := sanChar_of_isMark marked
    cases side
    · refine ⟨'O', ['-', 'O'] ++ mark, by simpa [CastleSide.san] using text, by decide, ?_⟩
      simp only [List.mem_append, List.mem_cons, List.not_mem_nil, or_false]
      rintro d ((rfl | rfl) | marking)
      · decide
      · decide
      · exact marks d marking
    · refine ⟨'O', ['-', 'O', '-', 'O'] ++ mark, by simpa [CastleSide.san] using text, by decide, ?_⟩
      simp only [List.mem_append, List.mem_cons, List.not_mem_nil, or_false]
      rintro d ((rfl | rfl | rfl | rfl) | marking)
      · decide
      · decide
      · decide
      · decide
      · exact marks d marking
  | none =>
    by_cases pawn : m.kind = .pawn
    · obtain ⟨mark, marked, text⟩ := Move.san_toList_pawn castle pawn
      exact sanToken_of_moveText (by simp) (fun _ _ => rfl)
        (fun c found => by
          obtain ⟨k, -, letter⟩ := Option.bind_eq_some_iff.mp found
          exact isAlpha_sanLetter letter) marked text
    · obtain ⟨mark, marked, text⟩ := Move.san_toList_piece castle pawn
      refine sanToken_of_moveText (fun c found => isAlpha_sanLetter found) (fun unlettered => ?_)
        (by simp) marked text
      cases kind : m.kind <;> simp_all [PieceKind.sanLetter?]

theorem numberToken (n : UInt32) {dots : String} (nonempty : dots ≠ "")
    (dotted : ∀ c ∈ dots.toList, c = '.') : NumberToken (toString n ++ dots) := by
  refine ⟨(toString n).toList, dots.toList, by simp, ?_, ?_, ?_, dotted⟩
  · rw [Fen.toList_toString_uInt32]
    exact Nat.toDigits_ne_nil
  · intro ch member
    rw [Fen.toList_toString_uInt32] at member
    have bounds := Fen.toNat_bounds_of_isDigit (Fen.isDigit_of_mem_toDigits member)
    rw [isDigit_iff]
    exact bounds
  · simpa using nonempty

theorem movetext_variations {f : NodeId → List PgnItem} {g : NodeId → List String} :
    ∀ {vs : List NodeId}, (∀ v ∈ vs, Movetext (f v) (g v)) →
      Movetext (vs.map fun v => .variation (f v)) (vs.flatMap fun v => "(" :: g v ++ [")"])
  | [], _ => .nil
  | v :: vs, each => by
    simp only [List.map_cons, List.flatMap_cons, List.cons_append, List.append_assoc]
    exact .variation (each v (.head _)) (movetext_variations fun w member => each w (.tail _ member))

theorem movetext_lineItems (h : History) :
    ∀ (fuel : Nat) (o : Option NodeId) (numbered : Bool),
      Movetext (h.lineItems fuel o) (h.lineTokens fuel o numbered)
  | 0, _, _ => by simpa [History.lineItems, History.lineTokens] using Movetext.nil
  | fuel + 1, none, _ => by simpa [History.lineItems, History.lineTokens] using Movetext.nil
  | fuel + 1, some id, numbered => by
    rw [History.lineItems, History.lineTokens]
    cases found : h.get? id with
    | none => exact .nil
    | some m =>
      dsimp only
      generalize h.moveNumber (h.parent? id) = numbering
      obtain ⟨number, side⟩ := numbering
      dsimp only
      generalize (if ((h.continuations? (h.parent? id)).getD #[])[0]? = some id
        then ((h.continuations? (h.parent? id)).getD #[]).toList.drop 1 else []) = others
      have played : ∀ after, Movetext (.move m.san :: ((others.map fun v =>
          .variation (h.lineItems fuel (some v)) : List PgnItem) ++ _))
          (m.san :: (others.flatMap (fun v => "(" :: h.lineTokens fuel (some v) true ++ [")"]) ++
            h.lineTokens fuel _ after)) :=
        fun after => .move (Move.san_sanToken m)
          ((movetext_variations fun v _ => movetext_lineItems h fuel (some v) true).append
            (movetext_lineItems h fuel ((h.continuations? (some id)).bind (·[0]?)) after))
      simp only [List.cons_append, List.append_assoc]
      cases side with
      | white => exact .numbered (numberToken number (by decide) (by simp)) (played _)
      | black =>
        cases numbered with
        | false => exact played _
        | true => exact .numbered (numberToken number (by decide) (by simp)) (played _)

theorem movetext_movetextItems (h : History) : Movetext h.movetextItems h.movetextTokens :=
  movetext_lineItems h _ _ true

theorem parse_write_items {g : PgnGame} (named : ∀ tag ∈ g.tags.toList, Identifier tag.1) :
    parse g.write = .ok [⟨g.tags.toList.map (fun tag => (tag.1, quoted tag.2)),
      g.history.movetextItems, resultToken g.result⟩] :=
  parse_write named (movetext_movetextItems g.history)

end Pgn

end Chess
