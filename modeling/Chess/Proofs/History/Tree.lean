import Mathlib.Logic.Relation
import Chess.Proofs.History.Triple

namespace Chess

namespace History

/-! The tree of a history. Nodes live in slots of an arena; a node names its parent, and the
parent (or the start, for a first move) lists the node among its continuations. A history is
shaped when every parent lives and has a smaller id, every node is listed once by its parent,
every listed node lives and names the lister as parent, and no two moves listed together play
the same. In a shaped history the line to a node is its path of ancestors, which the fuelled
walk `lineTo` finds. -/

variable {h h' : History}

section Lookup

/-! Where each edit of a history leaves its nodes and lists. -/

@[simp] theorem node?_setMove (id x : NodeId) (m : Move) :
    (h.setMove id m).node? x = if x = id then (h.node? x).map ({ · with move := m }) else h.node? x := by
  unfold node? setMove
  split
  · subst x
    simp only [Array.getElem?_modify, if_true]
    cases h.nodes[id.index]? <;> simp
  · rename_i apart
    have index : id.index ≠ x.index := fun same => apart (by cases x; cases id; simp_all)
    simp [Array.getElem?_modify, index]

@[simp] theorem size_setMove (id : NodeId) (m : Move) : (h.setMove id m).nodes.size = h.nodes.size := by
  simp [setMove]

@[simp] theorem root_setMove (id : NodeId) (m : Move) : (h.setMove id m).root = h.root := rfl

@[simp] theorem current_setMove (id : NodeId) (m : Move) : (h.setMove id m).current = h.current := rfl

@[simp] theorem node?_modifyContinuations_none (f : Array NodeId → Array NodeId) (x : NodeId) :
    (h.modifyContinuations none f).node? x = h.node? x := rfl

@[simp] theorem node?_modifyContinuations_some (o : NodeId) (f : Array NodeId → Array NodeId)
    (x : NodeId) : (h.modifyContinuations (some o) f).node? x =
      if x = o then (h.node? x).map fun n => { n with continuations := f n.continuations }
      else h.node? x := by
  simp only [node?, modifyContinuations]
  by_cases same : x = o
  · subst x
    simp only [Array.getElem?_modify, if_true]
    cases h.nodes[o.index]? <;> simp
  · have index : o.index ≠ x.index := fun eq => same (by cases x; cases o; simp_all)
    simp [same, Array.getElem?_modify, index]

@[simp] theorem root_modifyContinuations_none (f : Array NodeId → Array NodeId) :
    (h.modifyContinuations none f).root = f h.root := rfl

@[simp] theorem root_modifyContinuations_some (o : NodeId) (f : Array NodeId → Array NodeId) :
    (h.modifyContinuations (some o) f).root = h.root := rfl

@[simp] theorem continuations?_setMove (id : NodeId) (m : Move) (o : Option NodeId) :
    (h.setMove id m).continuations? o = h.continuations? o := by
  cases o with
  | none => rfl
  | some o =>
    simp only [continuations?, node?_setMove]
    split <;> simp_all [Option.map_map, Function.comp_def]

theorem continuations?_modifyContinuations (o o' : Option NodeId) (f : Array NodeId → Array NodeId) :
    (h.modifyContinuations o f).continuations? o' =
      if o' = o then (h.continuations? o').map f else h.continuations? o' := by
  cases o with
  | none => cases o' <;> simp [continuations?]
  | some o =>
    cases o' with
    | none => simp [continuations?, modifyContinuations]
    | some o' =>
      simp only [continuations?, node?_modifyContinuations_some, Option.some.injEq]
      split <;> simp [Option.map_map, Function.comp_def]

theorem index_lt_of_node? {id : NodeId} {n : Node} (found : h.node? id = some n) :
    id.index < h.nodes.size := by
  unfold node? at found
  refine Nat.lt_of_not_le fun outside => ?_
  rw [Array.getElem?_eq_none outside] at found
  cases found

end Lookup

def Apart (h : History) (a b : NodeId) : Prop :=
  ∀ ma mb, h.get? a = some ma → h.get? b = some mb → ma.playsSame mb = false

/-- The shape of a game tree. Every node's parent lives and has a smaller id, and lists the
node exactly once (the start's list for a first move); every node listed lives and names the
lister as its parent; and no two moves listed together play the same. -/
structure Shaped (h : History) : Prop where
  parent : ∀ id n, h.node? id = some n → ∀ p, n.parent = some p →
    h.contains p = true ∧ p.index < id.index
  listed : ∀ id n, h.node? id = some n →
    ∃ list, h.continuations? n.parent = some list ∧ list.toList.count id = 1
  entries : ∀ owner list, h.continuations? owner = some list →
    ∀ e ∈ list.toList, ∃ n, h.node? e = some n ∧ n.parent = owner
  apart : ∀ owner list, h.continuations? owner = some list → list.toList.Pairwise h.Apart

/-- `line` runs from the start down to `target`, each node the parent of the next. -/
inductive Ancestry (h : History) : Option NodeId → List NodeId → Prop
  | start : Ancestry h none []
  | node {id : NodeId} {n : Node} {line : List NodeId} (found : h.node? id = some n)
      (up : Ancestry h n.parent line) : Ancestry h (some id) (line ++ [id])

namespace Ancestry

variable {target : Option NodeId} {line : List NodeId}

theorem go_eq (path : Ancestry h target line) {fuel : Nat} (enough : line.length ≤ fuel)
    (acc : List NodeId) : lineTo.go h fuel target acc = line ++ acc := by
  induction path generalizing fuel acc with
  | start => cases fuel <;> rfl
  | @node id n line found up ih =>
    obtain ⟨fuel, rfl⟩ : ∃ f, fuel = f + 1 := ⟨fuel - 1, by simp at enough; omega⟩
    have parent : h.parent? id = n.parent := by simp [parent?, found]
    rw [lineTo.go, parent, ih (by simp at enough; omega)]
    simp

theorem live (path : Ancestry h target line) : ∀ x ∈ line, ∃ n, h.node? x = some n := by
  induction path with
  | start => simp
  | @node id n line found up ih =>
    intro x member
    rcases List.mem_append.mp member with inner | last
    · exact ih x inner
    · rw [List.mem_singleton.mp last]
      exact ⟨n, found⟩

theorem unique (path : Ancestry h target line) {line' : List NodeId}
    (path' : Ancestry h target line') : line = line' := by
  induction path generalizing line' with
  | start => cases path'; rfl
  | @node id n line found up ih =>
    cases path' with
    | node found' up' =>
      rw [found] at found'
      cases found'
      rw [ih up']

theorem transfer (path : Ancestry h target line)
    (keeps : ∀ x ∈ line, ∀ n, h.node? x = some n → ∃ n', h'.node? x = some n' ∧ n'.parent = n.parent) :
    Ancestry h' target line := by
  induction path with
  | start => exact .start
  | @node id n line found up ih =>
    obtain ⟨n', found', parent⟩ := keeps id (by simp) n found
    exact .node found' (parent ▸ ih fun x member => keeps x (by simp [member]))

theorem of_mem (path : Ancestry h target line) {x : NodeId} (member : x ∈ line) :
    ∃ pre, Ancestry h (some x) pre ∧ pre <+: line := by
  induction path with
  | start => simp at member
  | @node id n line found up ih =>
    rcases List.mem_append.mp member with inner | last
    · obtain ⟨pre, path, leading⟩ := ih inner
      exact ⟨pre, path, leading.trans ⟨[id], rfl⟩⟩
    · rw [List.mem_singleton.mp last]
      exact ⟨_, .node found up, ⟨[], List.append_nil _⟩⟩

end Ancestry

namespace Shaped

variable (shaped : h.Shaped)
include shaped

theorem length_le {target : Option NodeId} {line : List NodeId} (path : Ancestry h target line) :
    line.length ≤ (target.map (·.index + 1)).getD 0 := by
  induction path with
  | start => simp
  | @node id n line found up ih =>
    cases parent : n.parent with
    | none =>
      rw [parent] at up
      cases up
      simp
    | some p =>
      have smaller := (shaped.parent id n found p parent).2
      rw [parent] at ih
      simp at ih ⊢
      omega

theorem lineTo_eq {target : Option NodeId} {line : List NodeId} (path : Ancestry h target line) :
    h.lineTo target = line := by
  have short : line.length ≤ h.nodes.size + 1 := by
    have bound := shaped.length_le path
    cases path with
    | start => simp
    | node found up =>
      have inside := index_lt_of_node? found
      simp at bound ⊢
      omega
  simpa [lineTo] using path.go_eq short []

theorem ancestry {id : NodeId} {n : Node} (found : h.node? id = some n) :
    ∃ line, Ancestry h (some id) line := by
  induction id using WellFounded.induction (measure NodeId.index).wf generalizing n with
  | _ id ih =>
    cases parent : n.parent with
    | none => exact ⟨_, .node found (by rw [parent]; exact .start)⟩
    | some p =>
      obtain ⟨live, smaller⟩ := shaped.parent id n found p parent
      obtain ⟨np, foundP⟩ := Option.isSome_iff_exists.mp live
      obtain ⟨line, up⟩ := ih p smaller foundP
      exact ⟨_, .node found (by rw [parent]; exact up)⟩

end Shaped

def Child (h : History) (a b : NodeId) : Prop := ∃ n, h.node? a = some n ∧ b ∈ n.continuations.toList

def Below (h : History) (a b : NodeId) : Prop := Relation.ReflTransGen h.Child a b

namespace Shaped

variable (shaped : h.Shaped)
include shaped

theorem parent_of_child {a b : NodeId} (child : h.Child a b) :
    ∃ n, h.node? b = some n ∧ n.parent = some a := by
  obtain ⟨na, foundA, member⟩ := child
  exact shaped.entries (some a) na.continuations (by simp [continuations?, foundA]) b member

theorem mem_of_below {a x : NodeId} (below : h.Below a x) {line : List NodeId}
    (path : Ancestry h (some x) line) : a ∈ line := by
  induction below generalizing line with
  | refl => cases path; simp
  | @tail b c _ child ih =>
    obtain ⟨nc, foundC, parent⟩ := shaped.parent_of_child child
    cases path with
    | node found up =>
      rw [foundC] at found
      cases found
      rw [parent] at up
      exact List.mem_append_left _ (ih up)

theorem index_le_of_below {a x : NodeId} (below : h.Below a x) : a.index ≤ x.index := by
  induction below with
  | refl => exact Nat.le_refl _
  | @tail b c _ child ih =>
    obtain ⟨nc, foundC, parent⟩ := shaped.parent_of_child child
    have smaller := (shaped.parent c nc foundC b parent).2
    omega

end Shaped

end History

end Chess
