import Mathlib.Data.Nat.Basic
import Mathlib.Logic.ExistsUnique
import Mathlib.Order.Basic
import StateIdentification.Arena

/-!
# Leaves, growth and trails of trees in an arena

Children have greater numbers than their parent, so statements about a subtree follow from those
about the subtrees of its children. If in addition every node but the root has one parent,
statements about the nodes follow from those about their parents.

## Main definitions

- `Arena.Rooted`: every node but the root has one parent.
- `Arena.parent?`, `Arena.ancestors`: the node right above a node, and all nodes above it.

## Main results

- `Arena.inductionOnChildren`, `Arena.Rooted.induction`: induction from the leaves and to them.
- `Arena.Rooted.ancestors_child`: the ancestors of a child are those of its parent and the parent.
- `Arena.Rooted.ancestors_grow`: a node keeps its ancestors if a leaf gets children.
- `Arena.mem_leaves_grow`, `Arena.Rooted.grow`: what becomes of a tree if a leaf gets children.
- `Arena.map_part_label_grow`, `Arena.map_part_children_grow`: the labels of its children.
- `Arena.trail?_of_child`: a trail goes on in a child.
- `Arena.Rooted.trail?_eq_ancestors`: a trail passes the ancestors of the leaf that it ends in.
-/

namespace StateIdentification.Arena

variable {α : Type u} {t : Arena α} {id c : Nat}

theorem isLeaf_iff : t.isLeaf id ↔ t.children id = [] := List.isEmpty_iff

theorem not_isLeaf_of_mem (h : c ∈ t.children id) : ¬ t.isLeaf id := by
  rw [isLeaf_iff]
  exact List.ne_nil_of_mem h

theorem lt_size_of_not_isLeaf (h : ¬ t.isLeaf id) : id < t.size := by
  rw [isLeaf_iff] at h
  obtain ⟨c, hc⟩ := List.exists_mem_of_ne_nil _ h
  exact (lt_of_mem_children hc).trans (lt_size_of_mem_children hc)

theorem root_lt_size (t : Arena α) : root < t.size := t.nodes_pos

theorem mem_leaves : id ∈ t.leaves ↔ id < t.size ∧ t.isLeaf id := by
  simp [leaves, ids]

/-- A property of a node may be proved from the same property of its children. -/
@[elab_as_elim]
theorem inductionOnChildren {motive : Nat → Prop}
    (node : ∀ id, (∀ c ∈ t.children id, motive c) → motive id) (id : Nat) : motive id := by
  induction hn : t.size - id using Nat.strongRecOn generalizing id with
  | ind n ih =>
    refine node id fun c hc => ?_
    have hlt := lt_of_mem_children hc
    have hsize := lt_size_of_mem_children hc
    exact ih (t.size - c) (by omega) c rfl

/-- Every node but the root is a child of exactly one node. -/
def Rooted (t : Arena α) : Prop := ∀ id, 0 < id → id < t.size → ∃! p, id ∈ t.children p

theorem Rooted.parent_unique (h : t.Rooted) {p q : Nat} (hp : c ∈ t.children p)
    (hq : c ∈ t.children q) : p = q :=
  (h c (Nat.zero_lt_of_lt (lt_of_mem_children hp)) (lt_size_of_mem_children hp)).unique hp hq

/-- A property of the root that every node hands on to its children holds in all nodes. -/
@[elab_as_elim]
theorem Rooted.induction (h : t.Rooted) {motive : (id : Nat) → id < t.size → Prop}
    (atRoot : motive root t.root_lt_size)
    (child : ∀ p c (hp : p < t.size) (hc : c ∈ t.children p),
      motive p hp → motive c (lt_size_of_mem_children hc))
    (id : Nat) (hid : id < t.size) : motive id hid := by
  induction id using Nat.strongRecOn with
  | ind id ih =>
    rcases Nat.eq_zero_or_pos id with rfl | hpos
    · exact atRoot
    · obtain ⟨p, hp, -⟩ := h id hpos hid
      have hlt := lt_of_mem_children hp
      exact child p id (hlt.trans hid) hp (ih p hlt (hlt.trans hid))

section Grow

variable {relabel : α → α} {labels : List α}

/-- A leaf gets the new nodes as its children, and all other nodes keep theirs. -/
theorem children_grow_leaf (hid : id ∈ t.leaves) (relabel : α → α) (labels : List α) (c : Nat) :
    (t.grow id relabel labels).children c =
      if c = id then List.range' t.size labels.length else t.children c := by
  obtain ⟨hlt, hl⟩ := mem_leaves.mp hid
  rw [children_grow _ hlt, isLeaf_iff.mp hl, List.nil_append]

theorem mem_children_grow_leaf (hid : id ∈ t.leaves) {d : Nat} :
    d ∈ (t.grow id relabel labels).children c ↔
      (c = id ∧ t.size ≤ d ∧ d < t.size + labels.length) ∨ (c ≠ id ∧ d ∈ t.children c) := by
  rw [children_grow_leaf hid]
  split
  case isTrue heq => simp [heq, List.mem_range'_1]
  case isFalse hother => simp [hother]

theorem isLeaf_grow (hid : id ∈ t.leaves) (hne : labels ≠ []) :
    (t.grow id relabel labels).isLeaf c ↔ c ≠ id ∧ t.isLeaf c := by
  rw [isLeaf_iff, isLeaf_iff, children_grow_leaf hid]
  split
  case isTrue heq => simp [heq, hne]
  case isFalse hother => simp [hother]

/-- The inner nodes after a leaf got children are that leaf and the old inner nodes. -/
theorem eq_or_not_isLeaf_of_grow (hid : id ∈ t.leaves) (hne : labels ≠ [])
    (hl : ¬ (t.grow id relabel labels).isLeaf c) : c = id ∨ (c ≠ id ∧ ¬ t.isLeaf c) := by
  rw [isLeaf_grow hid hne, not_and_or, Decidable.not_not] at hl
  by_cases heq : c = id
  · exact .inl heq
  · exact .inr ⟨heq, hl.resolve_left heq⟩

theorem mem_leaves_grow (hid : id ∈ t.leaves) (hne : labels ≠ []) :
    c ∈ (t.grow id relabel labels).leaves ↔
      (c ≠ id ∧ c ∈ t.leaves) ∨ ∃ n < labels.length, c = t.size + n := by
  obtain ⟨hlt, -⟩ := mem_leaves.mp hid
  rw [mem_leaves, mem_leaves, isLeaf_grow hid hne, size_grow]
  have outside (hc : t.size ≤ c) : t.isLeaf c := by
    by_contra hl
    exact absurd (lt_size_of_not_isLeaf hl) (Nat.not_lt.mpr hc)
  constructor
  · rintro ⟨hc, hother, hl⟩
    rcases Nat.lt_or_ge c t.size with hlt' | hge
    · exact .inl ⟨hother, hlt', hl⟩
    · exact .inr ⟨c - t.size, by omega, by omega⟩
  · rintro (⟨hother, hlt', hl⟩ | ⟨n, hn, rfl⟩)
    · exact ⟨by omega, hother, hl⟩
    · exact ⟨by omega, by omega, outside (by omega)⟩

theorem label_of_size_le [Inhabited α] (h : t.size ≤ c) : t.label c = default := by
  have : t.nodes[c]? = none := Array.getElem?_eq_none_iff.mpr h
  simp [label, this]

/-- A part of the labels that is the default in all new ones changes in the grown node only. -/
theorem part_label_grow [Inhabited α] {β : Type v} (part : α → β)
    (hnew : ∀ l ∈ labels, part l = part default) (hid : id < t.size) (relabel : α → α) (c : Nat) :
    part ((t.grow id relabel labels).label c) =
      if c = id then part (relabel (t.label id)) else part (t.label c) := by
  rcases Nat.lt_or_ge c t.size with hlt | hge
  · rw [label_grow_of_lt _ hlt]
    split <;> rfl
  · obtain ⟨n, rfl⟩ := Nat.exists_eq_add_of_le hge
    rw [if_neg (by omega), label_of_size_le hge]
    rcases Nat.lt_or_ge n labels.length with hn | hn
    · rw [label_grow_add _ hn, hnew _ (List.getElem_mem hn)]
    · rw [label_of_size_le (by rw [size_grow]; omega)]

/-- A part of the labels that does not change in the grown node stays in all old nodes. -/
theorem part_label_grow_of_lt [Inhabited α] {β : Type v} (part : α → β)
    (hsame : part (relabel (t.label id)) = part (t.label id)) (hc : c < t.size)
    (labels : List α) : part ((t.grow id relabel labels).label c) = part (t.label c) := by
  rw [label_grow_of_lt _ hc]
  split
  case isTrue heq => rw [heq, hsame]
  case isFalse => rfl

/-- The new nodes have the new labels. -/
theorem map_part_label_grow [Inhabited α] {β : Type v} (part : α → β) (t : Arena α) (id : Nat)
    (relabel : α → α) (labels : List α) :
    (List.range' t.size labels.length).map (fun c => part ((t.grow id relabel labels).label c)) =
      labels.map part := by
  refine List.ext_getElem (by simp) fun n hl hr => ?_
  have hn : n < labels.length := by simpa using hr
  simpa using congrArg part (t.label_grow_add hn id relabel)

/-- The children of the other inner nodes keep a part of the labels that does not change in the
grown node. -/
theorem map_part_children_grow [Inhabited α] {β : Type v} (part : α → β) (hid : id ∈ t.leaves)
    (hsame : part (relabel (t.label id)) = part (t.label id)) (labels : List α) (hne : c ≠ id) :
    ((t.grow id relabel labels).children c).map
        (fun d => part ((t.grow id relabel labels).label d)) =
      (t.children c).map fun d => part (t.label d) := by
  rw [children_grow_leaf hid, if_neg hne]
  exact List.map_congr_left fun d hd =>
    part_label_grow_of_lt part hsame (lt_size_of_mem_children hd) labels

/-- The new nodes have one parent, and the old ones keep theirs. -/
theorem Rooted.grow (h : t.Rooted) (hid : id ∈ t.leaves) (relabel : α → α) (labels : List α) :
    (t.grow id relabel labels).Rooted := by
  obtain ⟨-, hleaf⟩ := mem_leaves.mp hid
  intro c hpos hc
  rw [size_grow] at hc
  rcases Nat.lt_or_ge c t.size with hlt | hge
  · obtain ⟨p, hpc, hunique⟩ := h c hpos hlt
    have hne : p ≠ id := by
      rintro rfl
      exact not_isLeaf_of_mem hpc hleaf
    refine ⟨p, (mem_children_grow_leaf hid).mpr (.inr ⟨hne, hpc⟩), fun q hq => ?_⟩
    rcases (mem_children_grow_leaf hid).mp hq with ⟨-, hnew, -⟩ | ⟨-, hq⟩
    · omega
    · exact hunique q hq
  · refine ⟨id, (mem_children_grow_leaf hid).mpr (.inl ⟨rfl, hge, hc⟩), fun q hq => ?_⟩
    rcases (mem_children_grow_leaf hid).mp hq with ⟨rfl, -⟩ | ⟨-, hq⟩
    · rfl
    · have := lt_size_of_mem_children hq
      omega

end Grow

/-- The node that a node is a child of. -/
def parent? (t : Arena α) (id : Nat) : Option Nat := t.ids.find? fun p => id ∈ t.children p

theorem mem_children_of_parent? {p : Nat} (h : t.parent? id = some p) : id ∈ t.children p :=
  of_decide_eq_true (List.find?_some (p := fun p => decide (id ∈ t.children p)) h)

theorem Rooted.parent?_eq (h : t.Rooted) (hc : c ∈ t.children id) : t.parent? c = some id := by
  cases hp : t.parent? c with
  | none =>
    have hid : id ∈ t.ids := List.mem_range.mpr (lt_size_of_not_isLeaf (not_isLeaf_of_mem hc))
    exact absurd (decide_eq_true hc) (List.find?_eq_none.mp hp id hid)
  | some p => rw [h.parent_unique (mem_children_of_parent? hp) hc]

/-- The nodes above a node, from the root down to its parent. -/
def ancestors (t : Arena α) (id : Nat) : List Nat :=
  match _h : t.parent? id with
  | none => []
  | some p => t.ancestors p ++ [p]
termination_by id
decreasing_by exact lt_of_mem_children (mem_children_of_parent? _h)

@[simp]
theorem ancestors_root (t : Arena α) : t.ancestors root = [] := by
  rw [ancestors]
  split
  case h_1 => rfl
  case h_2 p hp =>
    exact absurd (lt_of_mem_children (mem_children_of_parent? hp)) (Nat.not_lt_zero p)

theorem Rooted.ancestors_child (h : t.Rooted) (hc : c ∈ t.children id) :
    t.ancestors c = t.ancestors id ++ [id] := by
  rw [ancestors]
  split
  case h_1 hnone => cases hnone.symm.trans (h.parent?_eq hc)
  case h_2 p hp => rw [Option.some.inj (hp.symm.trans (h.parent?_eq hc))]

/-- A leaf lies above no other node. -/
theorem Rooted.notMem_ancestors (h : t.Rooted) (hid : id ∈ t.leaves) (hc : c < t.size) :
    id ∉ t.ancestors c := by
  induction c, hc using h.induction with
  | atRoot => simp
  | child p c hp hc ih =>
    rw [h.ancestors_child hc, List.mem_append, List.mem_singleton, not_or]
    refine ⟨ih, ?_⟩
    rintro rfl
    exact not_isLeaf_of_mem hc (mem_leaves.mp hid).2

/-- The nodes above an old node stay the same if a leaf gets children. -/
theorem Rooted.ancestors_grow (h : t.Rooted) (hid : id ∈ t.leaves) (relabel : α → α)
    (labels : List α) (hc : c < t.size) :
    (t.grow id relabel labels).ancestors c = t.ancestors c := by
  have hgrow := h.grow hid relabel labels
  obtain ⟨-, hl⟩ := mem_leaves.mp hid
  induction c, hc using h.induction with
  | atRoot => rw [ancestors_root, ancestors_root]
  | child p c hp hc ih =>
    have hne : p ≠ id := by
      rintro rfl
      exact not_isLeaf_of_mem hc hl
    rw [hgrow.ancestors_child ((mem_children_grow_leaf hid).mpr (.inr ⟨hne, hc⟩)), ih,
      h.ancestors_child hc]

section Trail

variable [Inhabited α] {holds : α → Bool}

theorem trail?_of_isLeaf (h : t.isLeaf id) : t.trail? holds id = some [id] := by
  rw [trail?, if_pos h]

/-- From a node one of whose children satisfies the property, the trail goes on in such a child. -/
theorem trail?_of_child (holds : α → Bool) (h : ∃ c ∈ t.children id, holds (t.label c)) :
    ∃ c ∈ t.children id, holds (t.label c) ∧
      t.trail? holds id = (t.trail? holds c).map (id :: ·) := by
  obtain ⟨x, hx, hpx⟩ := h
  rw [trail?, if_neg (not_isLeaf_of_mem hx)]
  split
  case h_1 hnone => exact absurd hpx (List.find?_eq_none.mp hnone x hx)
  case h_2 c hsome =>
    exact ⟨c, List.mem_of_find?_eq_some hsome,
      List.find?_some (p := fun c => holds (t.label c)) hsome, rfl⟩

/-- If the property is always handed on to some child, the trail exists. It passes nodes with the
property only, goes on in a child of every inner node that it passes, and ends in a leaf. -/
theorem trail?_eq_some (t : Arena α) (holds : α → Bool)
    (down : ∀ id, ¬ t.isLeaf id → holds (t.label id) → ∃ c ∈ t.children id, holds (t.label c))
    (hid : id < t.size) (h : holds (t.label id)) :
    ∃ l, t.trail? holds id = some l ∧ id ∈ l ∧
      (∀ a ∈ l, a < t.size ∧ holds (t.label a)) ∧
      (∀ a ∈ l, ¬ t.isLeaf a → ∃ c ∈ t.children a, c ∈ l) ∧
      ∃ leaf, l.getLast? = some leaf ∧ t.isLeaf leaf := by
  induction id using t.inductionOnChildren with
  | node id ih =>
    by_cases hl : t.isLeaf id
    · exact ⟨[id], trail?_of_isLeaf hl, by simp, by simp [hid, h], by simp [hl], id, rfl, hl⟩
    · obtain ⟨c, hc, hholds, heq⟩ := trail?_of_child holds (down id hl h)
      obtain ⟨l, htrail, hmem, hall, hdown, leaf, hlast, hleaf⟩ :=
        ih c hc (lt_size_of_mem_children hc) hholds
      refine ⟨id :: l, by rw [heq, htrail]; rfl, List.mem_cons_self, ?_, ?_, leaf, ?_, hleaf⟩
      · exact List.forall_mem_cons.mpr ⟨⟨hid, h⟩, hall⟩
      · intro a ha hla
        rcases List.mem_cons.mp ha with rfl | ha
        · exact ⟨c, hc, List.mem_cons_of_mem _ hmem⟩
        · obtain ⟨d, hd, hdl⟩ := hdown a ha hla
          exact ⟨d, hd, List.mem_cons_of_mem _ hdl⟩
      · rw [List.getLast?_cons, hlast, Option.getD_some]

/-- A trail ends in a node, and it passes the nodes above that node. -/
theorem Rooted.trail?_eq_ancestors (h : t.Rooted) {l : List Nat}
    (ht : t.trail? holds id = some l) :
    ∃ leaf, l.getLast? = some leaf ∧ t.ancestors id ++ l = t.ancestors leaf ++ [leaf] := by
  induction id using t.inductionOnChildren generalizing l with
  | node id ih =>
    rw [trail?] at ht
    split at ht
    · obtain rfl := Option.some.inj ht
      exact ⟨id, rfl, rfl⟩
    · split at ht
      case h_1 => cases ht
      case h_2 c hsome =>
        have hc := List.mem_of_find?_eq_some hsome
        obtain ⟨m, hm, rfl⟩ := Option.map_eq_some_iff.mp ht
        obtain ⟨leaf, hlast, heq⟩ := ih c hc hm
        refine ⟨leaf, by rw [List.getLast?_cons, hlast, Option.getD_some], ?_⟩
        rwa [h.ancestors_child hc, List.append_assoc] at heq

end Trail

end StateIdentification.Arena
