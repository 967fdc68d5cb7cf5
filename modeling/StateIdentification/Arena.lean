/-!
# Rooted trees in an arena

A rooted tree whose nodes are numbered in order of creation. The root has number zero, and nodes are
only ever added below a node that is there already, so children have greater numbers than their
parent.

## Main definitions

- `Arena`: a tree with a label in every node.
- `Arena.single`, `Arena.grow`: the tree of one node, and new children for a node.
- `Arena.trail?`: the path from a node down to the leaf that a property of labels leads to.
- `Arena.preorder`: the nodes of a subtree, each before its children.
-/

namespace StateIdentification

/-- A node with its label, the numbers of its children, and its distance to the root. -/
structure Node (α : Type u) where
  label : α
  children : List Nat
  depth : Nat
deriving DecidableEq, Repr

/-- A rooted tree, stored by the numbers of its nodes. -/
structure Arena (α : Type u) where
  nodes : Array (Node α)
  nodes_pos : 0 < nodes.size
  children_lt : ∀ (id : Nat) (node : Node α), nodes[id]? = some node →
    ∀ c ∈ node.children, id < c ∧ c < nodes.size

namespace Arena

variable {α : Type u}

/-- The number of the root. -/
def root : Nat := 0

/-- The tree that consists of a root. -/
def single (label : α) : Arena α where
  nodes := #[⟨label, [], 0⟩]
  nodes_pos := by simp
  children_lt id node h := by
    obtain rfl : id = 0 := by have := (Array.getElem?_eq_some_iff.mp h).1; simp at this; exact this
    obtain rfl := Option.some.inj h
    simp

/-- The number of nodes. -/
def size (t : Arena α) : Nat := t.nodes.size

/-- The numbers of all nodes in order of creation. -/
def ids (t : Arena α) : List Nat := List.range t.size

/-- The children of a node in order of creation. -/
def children (t : Arena α) (id : Nat) : List Nat :=
  (t.nodes[id]?.map (·.children)).getD []

/-- The distance of a node to the root. -/
def depth (t : Arena α) (id : Nat) : Nat := (t.nodes[id]?.map (·.depth)).getD 0

/-- The label of a node. -/
def label [Inhabited α] (t : Arena α) (id : Nat) : α :=
  (t.nodes[id]?.map (·.label)).getD default

/-- Whether a node has no children. -/
def isLeaf (t : Arena α) (id : Nat) : Bool := (t.children id).isEmpty

/-- The leaves in order of creation. -/
def leaves (t : Arena α) : List Nat := t.ids.filter t.isLeaf

/-- The number of leaves. -/
def leafCount (t : Arena α) : Nat := t.leaves.length

theorem lt_of_mem_children {t : Arena α} {id c : Nat} (h : c ∈ t.children id) : id < c := by
  unfold children at h
  cases hn : t.nodes[id]? with
  | none => simp [hn] at h
  | some node => exact (t.children_lt id node hn c (by simpa [hn] using h)).1

theorem lt_size_of_mem_children {t : Arena α} {id c : Nat} (h : c ∈ t.children id) :
    c < t.size := by
  unfold children at h
  cases hn : t.nodes[id]? with
  | none => simp [hn] at h
  | some node => exact (t.children_lt id node hn c (by simpa [hn] using h)).2

/-- Gives a node new children with the given labels, and changes its own label. -/
def grow (t : Arena α) (id : Nat) (relabel : α → α) (labels : List α) : Arena α where
  nodes :=
    t.nodes.modify id (fun node =>
      { node with
        label := relabel node.label
        children := node.children ++ List.range' t.size labels.length }) ++
    (labels.map fun label => Node.mk label [] (t.depth id + 1)).toArray
  nodes_pos := by have := t.nodes_pos; simp; omega
  children_lt i node h c hc := by
    have old (present : Node α) (hp : t.nodes[i]? = some present) (hm : c ∈ present.children) :
        i < c ∧ c < t.nodes.size + labels.length := by
      have := t.children_lt i present hp c hm
      omega
    simp only [Array.getElem?_append, Array.size_modify, Array.getElem?_modify] at h
    simp only [Array.size_append, Array.size_modify, List.size_toArray, List.length_map]
    split at h
    · split at h
      · obtain ⟨present, hp, rfl⟩ := Option.map_eq_some_iff.mp h
        rcases List.mem_append.mp hc with hm | hm
        · exact old present hp hm
        · have := List.mem_range'_1.mp hm
          simp only [size] at this
          omega
      · exact old node h hc
    · simp only [List.getElem?_toArray, List.getElem?_map, Option.map_eq_some_iff] at h
      obtain ⟨label, _, rfl⟩ := h
      simp at hc

@[simp]
theorem size_single (label : α) : (single label).size = 1 := rfl

@[simp]
theorem children_single (label : α) (id : Nat) : (single label).children id = [] := by
  cases id <;> simp [single, children]

@[simp]
theorem size_grow (t : Arena α) (id : Nat) (relabel : α → α) (labels : List α) :
    (t.grow id relabel labels).size = t.size + labels.length := by
  simp [grow, size]

/-- The nodes that were there come first, and one new node for each label follows. -/
theorem getElem?_nodes_grow (t : Arena α) (id : Nat) (relabel : α → α) (labels : List α) (c : Nat) :
    (t.grow id relabel labels).nodes[c]? =
      if c < t.size then
        if id = c then
          t.nodes[c]?.map fun node =>
            { node with
              label := relabel node.label
              children := node.children ++ List.range' t.size labels.length }
        else t.nodes[c]?
      else labels[c - t.size]?.map fun label => ⟨label, [], t.depth id + 1⟩ := by
  simp only [grow, size, Array.getElem?_append, Array.size_modify, Array.getElem?_modify,
    List.getElem?_toArray, List.getElem?_map]
  rfl

/-- The new children come behind the old ones, and all other nodes keep theirs. -/
theorem children_grow (t : Arena α) {id : Nat} (h : id < t.size) (relabel : α → α)
    (labels : List α) (c : Nat) :
    (t.grow id relabel labels).children c =
      if c = id then t.children id ++ List.range' t.size labels.length else t.children c := by
  have outside (hc : ¬ c < t.size) : t.nodes[c]? = none := by simpa [size] using hc
  simp only [children, getElem?_nodes_grow]
  grind [size]

/-- The nodes that were there keep their depth. -/
theorem depth_grow_of_lt (t : Arena α) {c : Nat} (h : c < t.size) (id : Nat) (relabel : α → α)
    (labels : List α) : (t.grow id relabel labels).depth c = t.depth c := by
  simp only [depth, getElem?_nodes_grow, if_pos h]
  grind

/-- The new nodes lie one level below their parent. -/
theorem depth_grow_add (t : Arena α) {labels : List α} {n : Nat} (h : n < labels.length) (id : Nat)
    (relabel : α → α) : (t.grow id relabel labels).depth (t.size + n) = t.depth id + 1 := by
  rw [depth, getElem?_nodes_grow, if_neg (by omega)]
  simp [h]

/-- A node and everything below it, each node before its children. -/
def preorder (t : Arena α) (id : Nat) : List Nat :=
  id :: (t.children id).attach.flatMap fun c => t.preorder c.1
termination_by t.size - id
decreasing_by
  have := lt_of_mem_children c.2
  have := lt_size_of_mem_children c.2
  omega

theorem preorder_eq (t : Arena α) (id : Nat) :
    t.preorder id = id :: (t.children id).flatMap t.preorder := by
  rw [preorder, List.flatMap_subtype fun _ _ => rfl, List.unattach_attach]

variable [Inhabited α]

@[simp]
theorem label_single (l : α) : (single l).label root = l := rfl

/-- Only the node that was grown has a changed label. -/
theorem label_grow_of_lt (t : Arena α) {c : Nat} (h : c < t.size) (id : Nat) (relabel : α → α)
    (labels : List α) :
    (t.grow id relabel labels).label c = if c = id then relabel (t.label id) else t.label c := by
  simp only [label, getElem?_nodes_grow, if_pos h]
  grind [size]

theorem label_grow_add (t : Arena α) {labels : List α} {n : Nat} (h : n < labels.length) (id : Nat)
    (relabel : α → α) : (t.grow id relabel labels).label (t.size + n) = labels[n] := by
  rw [label, getElem?_nodes_grow, if_neg (by omega)]
  simp [h]

/-- The nodes from `id` down to a leaf, where each step goes to the first child whose label
satisfies `holds`. There is no such path if the search ends before a leaf. -/
def trail? (t : Arena α) (holds : α → Bool) (id : Nat) : Option (List Nat) :=
  if t.isLeaf id then some [id]
  else
    match _h : (t.children id).find? fun c => holds (t.label c) with
    | none => none
    | some c => (t.trail? holds c).map (id :: ·)
termination_by t.size - id
decreasing_by
  have hm := List.mem_of_find?_eq_some _h
  have := lt_of_mem_children hm
  have := lt_size_of_mem_children hm
  omega

/-- The nodes from the root down to the leaf that `holds` leads to. -/
def trailFromRoot? (t : Arena α) (holds : α → Bool) : Option (List Nat) :=
  if holds (t.label root) then t.trail? holds root else none

end Arena

end StateIdentification
