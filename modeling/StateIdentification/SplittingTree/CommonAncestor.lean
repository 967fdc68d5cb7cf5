import StateIdentification.SplittingTree.Basic

/-!
# Lowest common ancestors

Where in a splitting tree a set of states is held together for the last time. One pass from the last
node to the root marks every node, and a descent from the root follows the marks.

## Main definitions

- `Marks`: a number for every node. Marks of an earlier query may be handed on, to be overwritten.
- `SplittingTree.mark`: a leaf is marked with the number of its states in the set, an inner node
  with the number of its children that have a mark.
- `SplittingTree.lowestCommonAncestor`: the lowest node that holds at least two states of the set
  together.
-/

namespace StateIdentification

/-- A number for every node of a tree. -/
structure Marks where
  values : Array Nat
deriving DecidableEq, Repr

namespace Marks

/-- No marks. -/
def empty : Marks := ⟨#[]⟩

instance : EmptyCollection Marks := ⟨empty⟩

/-- The mark of a node. -/
def get (m : Marks) (id : Nat) : Nat := m.values.getD id 0

/-- Zeros for the given number of nodes, in place of the earlier marks. -/
def reset (m : Marks) (size : Nat) : Marks :=
  ⟨(m.values.shrink size).map (fun _ => 0) ++ Array.replicate (size - m.values.size) 0⟩

/-- The earlier marks leave no trace. -/
theorem reset_eq (m : Marks) (size : Nat) : m.reset size = ⟨Array.replicate size 0⟩ := by
  simp only [reset, Marks.mk.injEq]
  apply Array.ext
  · simp
    omega
  · intro i h₁ h₂
    simp [Array.getElem_append]

@[simp]
theorem size_reset (m : Marks) (size : Nat) : (m.reset size).values.size = size := by
  rw [reset_eq, Array.size_replicate]

/-- Changes the mark of a node. -/
def set (m : Marks) (id mark : Nat) : Marks := ⟨m.values.setIfInBounds id mark⟩

theorem get_set_self {m : Marks} {id : Nat} (h : id < m.values.size) (mark : Nat) :
    (m.set id mark).get id = mark := by
  simp [get, set, h]

theorem get_set_ne {m : Marks} {id other : Nat} (h : id ≠ other) (mark : Nat) :
    (m.set id mark).get other = m.get other := by
  simp [get, set, h]

end Marks

namespace SplittingTree

/-- The mark of a node, where `m` has those of its children: the number of states in the set for a
leaf, and the number of marked children for an inner node. -/
def markOf (t : SplittingTree) (p : State → Bool) (m : Marks) (id : Nat) : Nat :=
  if t.isLeaf id then (t.states id).countP p else (t.children id).countP (0 < m.get ·)

/-- Marks all nodes from the last one to the root, so children come before their parent. -/
def mark (t : SplittingTree) (scratch : Marks) (p : State → Bool) : Marks :=
  t.ids.foldr (fun id m => m.set id (t.markOf p m id)) (scratch.reset t.size)

/-- The first node on the way down from `id` with a mark greater than one, where each step goes to
the first marked child. Without such a node, the way ends where it cannot go on. -/
def descend (t : SplittingTree) (m : Marks) (id : Nat) : Nat :=
  if 1 < m.get id then id
  else
    match _h : (t.children id).find? (0 < m.get ·) with
    | none => id
    | some c => t.descend m c
termination_by t.size - id
decreasing_by
  have hm := List.mem_of_find?_eq_some _h
  have := Arena.lt_of_mem_children hm
  have := Arena.lt_size_of_mem_children hm
  omega

/-- The lowest node that holds at least two states of the set together, which then are in different
children of it or in the same leaf. For one state it is the leaf of that state, and for none it is
the root. The marks of all nodes are given as well. -/
def lowestCommonAncestor (t : SplittingTree) (scratch : Marks) (p : State → Bool) : Nat × Marks :=
  let m := t.mark scratch p
  (t.descend m Arena.root, m)

end SplittingTree

end StateIdentification
