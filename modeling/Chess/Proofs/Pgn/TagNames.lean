import Chess.Proofs.Pgn.Parse

namespace Chess

namespace Pgn

/-! The names of the tags a text is read with. A tag pair's name is what the identifier rule
takes at its place, so every tag of every game a text parses as is named by an identifier,
whatever the rest of the text. -/

section Yields

variable {α β : Type}

def Yields (x : Scan α) (P : α → Prop) : Prop := ∀ a, P (x.run a).1

theorem yields_pure {v : α} {P : α → Prop} (holds : P v) : Yields (pure v : Scan α) P := fun _ => holds

theorem Yields.bind {x : Scan α} {f : α → Scan β} {P : α → Prop} {Q : β → Prop} (first : Yields x P)
    (rest : ∀ v, P v → Yields (f v) Q) : Yields (x >>= f) Q := fun a =>
  rest _ (first a) _

theorem yields_bind_any {x : Scan α} {f : α → Scan β} {Q : β → Prop} (rest : ∀ v, Yields (f v) Q) :
    Yields (x >>= f) Q := fun _ => rest _ _

theorem Returns.yields_bind {x : Scan α} {f : α → Scan β} {v : α} {Q : β → Prop} (first : Returns x v)
    (rest : Yields (f v) Q) : Yields (x >>= f) Q := fun a => by
  show Q ((f (x.run a).1).run (x.run a).2).1
  rw [first a]
  exact rest _

theorem Yields.tracked {body : Scan (Option (α × Cursor))} {P : Option (α × Cursor) → Prop}
    (yields : Yields body P) (r : PgnRule) (c : Cursor) : Yields (tracked r c body) P := by
  refine yields_bind_any fun _ => yields.bind fun out holds => ?_
  cases out with
  | none => exact yields_bind_any fun _ => yields_pure holds
  | some _ => exact yields_pure holds

end Yields

theorem tagPair_named (c : Cursor) :
    Yields (tagPair c) fun out => ∀ tag c', out = some (tag, c') → Identifier tag.1 := by
  unfold tagPair
  refine Yields.tracked ?_ _ _
  cases charAt '[' c with
  | none => exact yields_pure fun _ _ unread => by cases unread
  | some c1 =>
    refine (Returns.tracked (returns_pure _) _ _).yields_bind ?_
    cases read : identifierAt (skip c1) with
    | none => exact yields_pure fun _ _ unread => by cases unread
    | some found =>
      obtain ⟨name, c2⟩ := found
      have named := identifierAt_identifier read
      refine (Returns.tracked (returns_pure _) _ _).yields_bind ?_
      cases stringAt (skip c2) with
      | none => exact yields_pure fun _ _ unread => by cases unread
      | some quotedValue =>
        dsimp only
        cases charAt ']' (skip quotedValue.2) with
        | none => exact yields_pure fun _ _ unread => by cases unread
        | some c4 =>
          refine yields_pure fun tag c' read => ?_
          cases read
          exact named

theorem tagPairs_named :
    ∀ (fuel : Nat) (c : Cursor), Yields (tagPairs fuel c) fun out => ∀ tag ∈ out.1, Identifier tag.1
  | 0, c => by
    rw [tagPairs]
    exact yields_pure fun _ member => by cases member
  | fuel + 1, c => by
    rw [tagPairs]
    refine (tagPair_named c).bind fun out named => ?_
    cases out with
    | none => exact yields_pure fun _ member => by cases member
    | some found =>
      obtain ⟨tag, c'⟩ := found
      refine (tagPairs_named fuel (skip c')).bind fun more namedMore => ?_
      obtain ⟨more, c''⟩ := more
      have first := named tag c' rfl
      cases more with
      | nil => exact yields_pure (List.forall_mem_singleton.mpr first)
      | cons next rest => exact yields_pure (List.forall_mem_cons.mpr ⟨first, namedMore⟩)

theorem game_named (fuel : Nat) (c : Cursor) :
    Yields (game fuel c) fun out => ∀ gt c', out = some (gt, c') → ∀ tag ∈ gt.tags, Identifier tag.1 := by
  unfold game
  refine Yields.tracked ((tagPairs_named fuel c).bind fun tagged named => ?_) _ _
  obtain ⟨tags, c1⟩ := tagged
  refine yields_bind_any fun moved => ?_
  obtain ⟨items, c2⟩ := moved
  refine yields_bind_any fun ended => ?_
  cases ended with
  | none => exact yields_pure fun _ _ unread => by cases unread
  | some found =>
    refine yields_pure fun gt c' read => ?_
    cases read
    exact named

theorem games_named (fuel : Nat) :
    ∀ (n : Nat) (c : Cursor), Yields (games fuel n c) fun out => ∀ gt ∈ out.1, ∀ tag ∈ gt.tags, Identifier tag.1
  | 0, c => by
    rw [games]
    exact yields_pure fun _ member => by cases member
  | n + 1, c => by
    rw [games]
    refine (game_named fuel c).bind fun out named => ?_
    cases out with
    | none => exact yields_pure fun _ member => by cases member
    | some found =>
      obtain ⟨gt, c'⟩ := found
      refine (games_named fuel n (skip c')).bind fun more namedMore => ?_
      obtain ⟨more, c''⟩ := more
      have first := named gt c' rfl
      cases more with
      | nil => exact yields_pure (List.forall_mem_singleton.mpr first)
      | cons next rest => exact yields_pure (List.forall_mem_cons.mpr ⟨first, namedMore⟩)

theorem parse_tags_named {text : String} {texts : List PgnText} (parsed : parse text = .ok texts) :
    ∀ gt ∈ texts, ∀ tag ∈ gt.tags, Identifier tag.1 := by
  have read : Yields (file (3 * text.toList.length + 4) ⟨text.toList, 0⟩)
      fun out => ∀ gs c, out = some (gs, c) → ∀ gt ∈ gs, ∀ tag ∈ gt.tags, Identifier tag.1 := by
    unfold file
    refine Yields.tracked ((games_named _ _ _).bind fun read named => ?_) _ _
    obtain ⟨gs, c1⟩ := read
    refine yields_bind_any fun ended => ?_
    cases ended with
    | none => exact yields_pure fun _ _ unread => by cases unread
    | some found =>
      refine yields_pure fun gs' c read => ?_
      cases read
      exact named
  have value := read {}
  unfold parse at parsed
  simp only [] at parsed
  generalize (file (3 * text.toList.length + 4) ⟨text.toList, 0⟩).run {} = out at value parsed
  obtain ⟨o, a⟩ := out
  cases o with
  | none => cases parsed
  | some found =>
    obtain ⟨gs, c⟩ := found
    cases parsed
    exact value _ c rfl

end Pgn

end Chess
