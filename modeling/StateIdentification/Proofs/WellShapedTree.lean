import StateIdentification.Proofs.ArenaCounting
import StateIdentification.Proofs.GrowthRun
import StateIdentification.Proofs.TurnByTurn

/-!
# Every splitting tree is well shaped

The nodes of a splitting tree hold classes of states that get smaller and smaller towards the
leaves: an inner node hands each of its states on to exactly one of its children, so every state
ends in one leaf. As the members of a class keep their order when a block is split, the states of
every node ascend, and the children of a node are ordered by their smallest states.

## Main definitions

- `SplittingTree.WellShaped`: the shape of a tree for the first states.

## Main results

- `SplittingTree.Divides.wellShaped`: a tree that divides the states of a machine has this shape.
- `SplittingTree.Divides.leafOf?_eq_some_iff`: the leaf of a state.
- `SplittingTree.ofMachine_wellShaped`: the tree of a machine has this shape, and it is complete if
  all its leaves have one state.
-/

namespace StateIdentification

/-- The shape of a splitting tree for the first `size` states. -/
structure SplittingTree.WellShaped (t : SplittingTree) (size : Nat) : Prop where
  states_root : t.states Arena.root = Handle.range size
  depth_root : t.depth Arena.root = 0
  occupied : ∀ id < t.size, t.states id ≠ []
  ascending : ∀ id < t.size, (t.states id).Pairwise (· < ·)
  separator_leaf : ∀ id < t.size, t.isLeaf id → t.separator id = []
  separator_inner : ∀ id < t.size, ¬ t.isLeaf id → t.separator id ≠ []
  branching : ∀ id < t.size, ¬ t.isLeaf id → 2 ≤ (t.children id).length
  /-- The states of an inner node are those of its children, each in one child only. -/
  union : ∀ id < t.size, ¬ t.isLeaf id → ((t.children id).flatMap t.states).Perm (t.states id)
  /-- The smallest state of a child is smaller than all states of the children behind it. -/
  ordered : ∀ id < t.size,
    (t.children id).Pairwise fun c d => ∃ s ∈ t.states c, ∀ u ∈ t.states d, s < u
  below : ∀ id < t.size, ∀ c ∈ t.children id, id < c ∧ c < t.size ∧ t.depth c = t.depth id + 1
  parent : ∀ id < t.size, id ≠ Arena.root → ∃! p, id ∈ t.children p

namespace SplittingTree.Divides

variable {M : Machine} {t : SplittingTree} {id leaf : Nat} {s : State}

/-- The states of an inner node are those of its children. -/
theorem perm_children (h : t.Divides M) (hl : ¬ t.isLeaf id) :
    ((t.children id).flatMap t.states).Perm (t.states id) := by
  rw [List.flatMap_def, h.divided hl]
  exact perm_flatten_classes _ _

/-- The children of a node are ordered by their smallest states. -/
theorem pairwise_children (h : t.Divides M) (hid : id < t.size) :
    (t.children id).Pairwise fun c d => ∃ s ∈ t.states c, ∀ u ∈ t.states d, s < u := by
  by_cases hl : t.isLeaf id
  · rw [Arena.isLeaf_iff.mp hl]
    exact .nil
  · have := pairwise_classes_of_pairwise (h.ascending hid) (M.lastOutput · (t.separator id))
    rwa [← h.divided hl, List.pairwise_map] at this

/-- A tree that divides the states of a machine is well shaped. -/
theorem wellShaped (h : t.Divides M) : t.WellShaped M.stateCount where
  states_root := h.states_root
  depth_root := h.depth_root
  occupied _ hid := by
    obtain ⟨s, hs⟩ := h.exists_mem hid
    exact List.ne_nil_of_mem hs
  ascending _ := h.ascending
  separator_leaf _ _ := h.separator_leaf
  separator_inner _ _ := h.separator_ne_nil
  branching _ _ := h.branching
  union _ _ := h.perm_children
  ordered _ := h.pairwise_children
  below _ _ _ hc :=
    ⟨Arena.lt_of_mem_children hc, Arena.lt_size_of_mem_children hc, h.depth_child hc⟩
  parent id hid hne := h.rooted id (Nat.pos_of_ne_zero hne) hid

/-- The leaf of a state is the one that has the state. -/
theorem leafOf?_eq_some_iff (h : t.Divides M) :
    t.leafOf? s = some leaf ↔ leaf ∈ t.leaves ∧ s ∈ t.states leaf := by
  by_cases hs : s ∈ M.states
  · obtain ⟨-, found, hfound, hof, hin⟩ := h.trail_spec hs
    rw [hof, Option.some_inj]
    constructor
    · rintro rfl
      exact ⟨hfound, hin⟩
    · rintro ⟨hleaf, hsl⟩
      exact h.leaf_unique hfound hleaf hin hsl
  · have hroot : s ∉ (t.label Arena.root).states := (h.states_root ▸ hs : s ∉ t.states Arena.root)
    refine iff_of_false ?_ fun ⟨hleaf, hsl⟩ => hs (h.mem_states (Arena.mem_leaves.mp hleaf).1 hsl)
    simp [leafOf?, trail, Arena.trailFromRoot?, hroot]

/-- The states of the machine have a leaf, and no others. -/
theorem leafOf?_isSome_iff (h : t.Divides M) : (t.leafOf? s).isSome ↔ s ∈ M.states := by
  rw [Option.isSome_iff_exists]
  constructor
  · rintro ⟨leaf, hof⟩
    obtain ⟨hleaf, hsl⟩ := h.leafOf?_eq_some_iff.mp hof
    exact h.mem_states (Arena.mem_leaves.mp hleaf).1 hsl
  · intro hs
    obtain ⟨leaf, hleaf, hsl⟩ := h.exists_leaf hs
    exact ⟨leaf, h.leafOf?_eq_some_iff.mpr ⟨hleaf, hsl⟩⟩

end SplittingTree.Divides

/-- The finished tree of a machine is well shaped. It is complete if and only if every leaf has
exactly one state, and the leaf of a state is the only one that has the state. -/
theorem SplittingTree.ofMachine_wellShaped [RandomSource] (M : Machine) (options : SplittingOptions)
    (seed : UInt64) :
    ∃ r, ofMachine M options seed = .ok r ∧ r.tree.WellShaped M.stateCount ∧
      (r.complete ↔ ∀ leaf ∈ r.tree.leaves, ∃ s, r.tree.states leaf = [s]) ∧
      (∀ s leaf, r.tree.leafOf? s = some leaf ↔ leaf ∈ r.tree.leaves ∧ s ∈ r.tree.states leaf) ∧
      ∀ s, (r.tree.leafOf? s).isSome ↔ s.index < M.stateCount := by
  obtain ⟨r, hr, hof⟩ := ofMachine_final M options seed
  have hshape := hr.divides.wellShaped
  refine ⟨r, hof options.checkFineness, hshape, ?_, fun s leaf => hr.divides.leafOf?_eq_some_iff,
    fun s => hr.divides.leafOf?_isSome_iff.trans Machine.mem_states⟩
  rw [hr.complete_iff]
  refine forall₂_congr fun leaf hleaf => ?_
  have hpos := List.length_pos_iff.mpr (hshape.occupied leaf (Arena.mem_leaves.mp hleaf).1)
  rw [← List.length_eq_one_iff]
  omega

/-- The children of every inner node, and the states of every leaf. -/
example : ∃ r, SplittingTree.ofMachine laggard .hopcroft 0 = .ok r ∧ r.complete ∧
    r.tree.inner.map r.tree.children = [[1, 2], [3, 4], [7, 8], [5, 6]] ∧
    r.tree.leaves.map (fun leaf => (r.tree.states leaf).map (·.index)) =
      [[2], [0], [1], [3], [4]] :=
  SplittingTree.exists_of_runFor 12 (by decide +kernel)

end StateIdentification
