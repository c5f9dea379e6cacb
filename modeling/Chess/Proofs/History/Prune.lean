import Chess.Proofs.History.Tree

namespace Chess

namespace History

/-! Dropping a subtree. The walk behind `dropSubtree` empties a pending node's slot and goes
on with the nodes it lists; it ends having emptied exactly the nodes below the ones pending,
and it changes nothing else. -/

variable {h : History}

@[simp] theorem node?_emptied (next x : NodeId) :
    ({ h with nodes := h.nodes.modify next.index fun _ => none } : History).node? x =
      if x = next then none else h.node? x := by
  simp only [node?]
  by_cases same : x = next
  · subst x
    simp only [Array.getElem?_modify, if_true]
    cases h.nodes[next.index]? <;> rfl
  · have index : next.index ≠ x.index := fun eq => same (by cases x; cases next; simp_all)
    simp [same, Array.getElem?_modify, index]

theorem child_emptied {next a b : NodeId} : ({ h with nodes := h.nodes.modify next.index fun _ => none } : History).Child a b ↔ a ≠ next ∧ h.Child a b := by
  simp only [Child, node?_emptied]
  by_cases same : a = next <;> simp [same]

theorem eq_of_below_of_node?_eq_none {a x : NodeId} (gone : h.node? a = none) (below : h.Below a x) :
    x = a := by
  rcases Relation.ReflTransGen.cases_head below with same | ⟨c, ⟨n, found, -⟩, -⟩
  · exact same.symm
  · rw [gone] at found
    cases found

theorem below_emptied {next p x : NodeId} {n : Node} (found : h.node? next = some n)
    (below : h.Below p x) :
    x = next ∨ ({ h with nodes := h.nodes.modify next.index fun _ => none } : History).Below p x ∨ ∃ c ∈ n.continuations.toList, ({ h with nodes := h.nodes.modify next.index fun _ => none } : History).Below c x := by
  induction below with
  | refl =>
    by_cases same : p = next
    · exact .inl same
    · exact .inr (.inl .refl)
  | @tail y x _ child ih =>
    by_cases last : x = next
    · exact .inl last
    right
    by_cases through : y = next
    · subst y
      obtain ⟨n', found', member⟩ := child
      rw [found] at found'
      cases found'
      exact .inr ⟨x, member, .refl⟩
    · have step : ({ h with nodes := h.nodes.modify next.index fun _ => none } : History).Child y x := child_emptied.mpr ⟨through, child⟩
      rcases ih with same | above | ⟨c, member, above⟩
      · exact absurd same through
      · exact .inl (above.tail step)
      · exact .inr ⟨c, member, above.tail step⟩

theorem Below.of_emptied {next a x : NodeId} (below : ({ h with nodes := h.nodes.modify next.index fun _ => none } : History).Below a x) :
    h.Below a x := by
  unfold Below at below ⊢
  exact Relation.ReflTransGen.mono (fun _ _ child => (child_emptied.mp child).2) _ _ below

theorem node?_dropSubtree_go (pending : List NodeId) (h : History) (x : NodeId) :
    ((∃ p ∈ pending, h.Below p x) → (dropSubtree.go pending h).node? x = none) ∧
      ((¬∃ p ∈ pending, h.Below p x) → (dropSubtree.go pending h).node? x = h.node? x) := by
  fun_induction dropSubtree.go pending h with
  | case1 h => simp
  | case2 next rest h n found ih =>
    obtain ⟨ihReached, ihKept⟩ := ih
    constructor
    · rintro ⟨p, member, below⟩
      by_cases same : x = next
      · subst x
        by_cases again : ∃ q ∈ n.continuations.toList ++ rest, ({ h with nodes := h.nodes.modify next.index fun _ => none } : History).Below q next
        · exact ihReached again
        · rw [ihKept again, node?_emptied, if_pos rfl]
      · refine ihReached ?_
        rcases List.mem_cons.mp member with rfl | later
        · rcases below_emptied found below with reached | above | ⟨c, listed, above⟩
          · exact absurd reached same
          · exact absurd (eq_of_below_of_node?_eq_none (by simp) above) same
          · exact ⟨c, List.mem_append_left _ listed, above⟩
        · rcases below_emptied found below with reached | above | ⟨c, listed, above⟩
          · exact absurd reached same
          · exact ⟨p, List.mem_append_right _ later, above⟩
          · exact ⟨c, List.mem_append_left _ listed, above⟩
    · intro unreached
      have apart : x ≠ next := fun same => unreached ⟨next, by simp, same ▸ .refl⟩
      rw [ihKept ?_, node?_emptied, if_neg apart]
      rintro ⟨q, member, above⟩
      rcases List.mem_append.mp member with listed | later
      · exact unreached ⟨next, by simp, .head ⟨n, found, listed⟩ above.of_emptied⟩
      · exact unreached ⟨q, by simp [later], above.of_emptied⟩
  | case3 next rest h gone ih =>
    obtain ⟨ihReached, ihKept⟩ := ih
    constructor
    · rintro ⟨p, member, below⟩
      rcases List.mem_cons.mp member with rfl | later
      · have same := eq_of_below_of_node?_eq_none gone below
        subst x
        by_cases again : ∃ q ∈ rest, h.Below q p
        · exact ihReached again
        · rw [ihKept again, gone]
      · exact ihReached ⟨p, later, below⟩
    · intro unreached
      exact ihKept fun ⟨q, member, above⟩ => unreached ⟨q, by simp [member], above⟩

theorem dropSubtree_go_eq (pending : List NodeId) (h : History) :
    dropSubtree.go pending h = { h with nodes := (dropSubtree.go pending h).nodes } := by
  fun_induction dropSubtree.go pending h with
  | case1 h => rfl
  | case2 next rest h n found ih => exact ih
  | case3 next rest h gone ih => exact ih

theorem dropSubtree_go_append (first rest : List NodeId) (h : History) :
    dropSubtree.go (first ++ rest) h = dropSubtree.go rest (dropSubtree.go first h) := by
  fun_induction dropSubtree.go first h with
  | case1 h => rfl
  | case2 next pending h n found ih =>
    rw [List.cons_append, dropSubtree.go]
    split
    · rename_i n' found'
      rw [found] at found'
      cases found'
      rw [← List.append_assoc]
      exact ih
    · rename_i gone
      rw [found] at gone
      cases gone
  | case3 next pending h gone ih =>
    rw [List.cons_append, dropSubtree.go]
    split
    · rename_i n' found
      rw [gone] at found
      cases found
    · exact ih

theorem foldl_dropSubtree (lines : List NodeId) (h : History) :
    lines.foldl dropSubtree h = dropSubtree.go lines h := by
  induction lines generalizing h with
  | nil => simp [dropSubtree.go]
  | cons c rest ih =>
    rw [List.foldl_cons, ih, dropSubtree, ← dropSubtree_go_append]
    rfl

theorem child_modifyContinuations {o : Option NodeId} {f : Array NodeId → Array NodeId}
    {a b : NodeId} (away : ∀ p, o = some p → a ≠ p) :
    (h.modifyContinuations o f).Child a b ↔ h.Child a b := by
  cases o with
  | none => rfl
  | some p => simp [Child, node?_modifyContinuations_some, away p rfl]

theorem below_modifyContinuations {o : Option NodeId} {f : Array NodeId → Array NodeId}
    {c x : NodeId} (avoid : ∀ p, o = some p → ¬h.Below c p) :
    (h.modifyContinuations o f).Below c x ↔ h.Below c x := by
  constructor
  · intro below
    induction below with
    | refl => exact .refl
    | @tail a b _ child ih =>
      have away : ∀ p, o = some p → a ≠ p := fun p owner same => avoid p owner (same ▸ ih)
      exact ih.tail ((child_modifyContinuations away).mp child)
  · intro below
    induction below with
    | refl => exact .refl
    | @tail a b above child ih =>
      have away : ∀ p, o = some p → a ≠ p := fun p owner same => avoid p owner (same ▸ above)
      exact ih.tail ((child_modifyContinuations away).mpr child)

end History

end Chess
