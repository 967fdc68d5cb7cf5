import Mathlib.Order.Bounds.Basic
import StateIdentification.Proofs.GrowthRun
import StateIdentification.Proofs.TurnByTurn

/-!
# The entries of a table of successors

The nodes of one depth share a row of the table, although they are split at different times of the
work. As they have no state in common, no entry is ever overwritten: a state has an entry at the
depths of the inner nodes that hold it, and each entry is where the separator of that node leads.
Rows are only added for entries, so the last one belongs to the lowest inner nodes.

## Main definitions

- `SplittingTree.InnerAt`: an inner node of some depth holds a state.
- `SplittingTree.innerDepths`: the depths of the inner nodes.

## Main results

- `SplittingTree.Divides.innerAt_unique`: no two inner nodes of one depth hold a state.
- `SplittingResult.Final.get?_successors`, `SplittingResult.Final.get?_successors_eq_none`: which
  entries there are.
- `SplittingResult.Final.depth_successors`: how many rows there are.
- `SplittingTree.ofMachine_successors`: the table that comes with the tree of a machine.
-/

namespace StateIdentification

variable {M : Machine} {options : SplittingOptions} {r : SplittingResult} {t : SplittingTree}
  {depth id other : Nat} {s : State}

namespace SplittingTree

/-- The node is an inner node of the given depth, and it holds the state. -/
structure InnerAt (t : SplittingTree) (depth : Nat) (s : State) (id : Nat) : Prop where
  inner : ¬ t.isLeaf id
  depth_eq : t.depth id = depth
  mem : s ∈ t.states id

/-- The depths of the inner nodes. -/
def innerDepths (t : SplittingTree) : Set Nat := {d | ∃ id, ¬ t.isLeaf id ∧ t.depth id = d}

/-- At most one inner node of a depth holds a state. -/
theorem Divides.innerAt_unique (h : t.Divides M) (hid : t.InnerAt depth s id)
    (hother : t.InnerAt depth s other) : id = other := by
  have hsize := Arena.lt_size_of_not_isLeaf hid.inner
  have hsize' := Arena.lt_size_of_not_isLeaf hother.inner
  exact h.eq_of_depth_eq hsize hsize' hid.mem hother.mem (hid.depth_eq.trans hother.depth_eq.symm)

end SplittingTree

namespace SplittingResult.Final

/-- A state has an entry for every inner node that holds it, and the entry is where the separator of
the node leads. -/
theorem get?_successors (h : r.Final M options) (hrecord : options.recordSuccessors)
    (hid : r.tree.InnerAt depth s id) :
    r.successors.get? depth s = some (M.reached s (r.tree.separator id)) := by
  apply (h.recorded _ _ _).mpr
  exact ⟨hrecord, id, hid.inner, hid.depth_eq, hid.mem, rfl⟩

/-- There are no other entries. -/
theorem get?_successors_eq_none (h : r.Final M options)
    (hnone : options.recordSuccessors → ∀ id, ¬ r.tree.InnerAt depth s id) :
    r.successors.get? depth s = none := by
  apply Option.eq_none_iff_forall_ne_some.mpr
  intro x hget
  obtain ⟨hrecord, id, hl, hdepth, hs, -⟩ := (h.recorded _ _ _).mp hget
  exact hnone hrecord id ⟨hl, hdepth, hs⟩

/-- There are only rows if successors are recorded, and the last one is that of an inner node. -/
theorem last_row (h : r.Final M options) {d : Nat} (hd : r.successors.depth = d + 1) :
    options.recordSuccessors ∧ d ∈ r.tree.innerDepths := by
  obtain ⟨s, hs⟩ := h.tight d hd
  obtain ⟨x, hget⟩ := Option.isSome_iff_exists.mp hs
  obtain ⟨hrecord, id, hl, hdepth, -⟩ := (h.recorded _ _ _).mp hget
  exact ⟨hrecord, id, hl, hdepth⟩

/-- Every inner node has a row for its depth. -/
theorem lt_depth_successors (h : r.Final M options) (hrecord : options.recordSuccessors)
    {d : Nat} (hd : d ∈ r.tree.innerDepths) : d < r.successors.depth := by
  obtain ⟨id, hl, hdepth⟩ := hd
  obtain ⟨s, hs⟩ := h.divides.exists_mem (Arena.lt_size_of_not_isLeaf hl)
  exact SuccessorTable.lt_depth (h.get?_successors hrecord ⟨hl, hdepth, hs⟩)

/-- There are rows up to the lowest inner nodes, and none without an inner node. -/
theorem depth_successors (h : r.Final M options) (hrecord : options.recordSuccessors) :
    ((∀ id, r.tree.isLeaf id) ∧ r.successors.depth = 0) ∨
      ∃ d, IsGreatest r.tree.innerDepths d ∧ r.successors.depth = d + 1 := by
  cases hrows : r.successors.depth with
  | zero =>
    refine .inl ⟨fun id => ?_, rfl⟩
    by_contra hl
    have := h.lt_depth_successors hrecord ⟨id, hl, rfl⟩
    omega
  | succ d =>
    refine .inr ⟨d, ⟨(h.last_row hrows).2, fun e he => ?_⟩, rfl⟩
    have := h.lt_depth_successors hrecord he
    omega

theorem depth_successors_eq_zero (h : r.Final M options) (hrecord : ¬ options.recordSuccessors) :
    r.successors.depth = 0 := by
  cases hrows : r.successors.depth with
  | zero => rfl
  | succ d => exact absurd (h.last_row hrows).1 hrecord

end SplittingResult.Final

/-- If successors are recorded, a state has one entry for every inner node that holds it, in the row
for the depth of the node: the state that the separator of the node leads to. There are no other
entries, and no rows behind that of the lowest inner nodes. If successors are not recorded, the
table stays empty. -/
theorem SplittingTree.ofMachine_successors [RandomSource] (M : Machine) (options : SplittingOptions)
    (seed : UInt64) :
    (∃ r, ofMachine M { options with recordSuccessors := true } seed = .ok r ∧
      (∀ depth s id other, r.tree.InnerAt depth s id → r.tree.InnerAt depth s other → id = other) ∧
      (∀ depth s id, r.tree.InnerAt depth s id →
        r.successors.get? depth s = some (M.reached s (r.tree.separator id))) ∧
      (∀ depth s, (∀ id, ¬ r.tree.InnerAt depth s id) → r.successors.get? depth s = none) ∧
      (((∀ id, r.tree.isLeaf id) ∧ r.successors.depth = 0) ∨
        ∃ d, IsGreatest r.tree.innerDepths d ∧ r.successors.depth = d + 1)) ∧
    ∃ r, ofMachine M { options with recordSuccessors := false } seed = .ok r ∧
      r.successors.isEmpty ∧ r.successors.depth = 0 ∧
      ∀ depth s, r.successors.get? depth s = none := by
  constructor
  · obtain ⟨r, hr, hof⟩ := ofMachine_final M { options with recordSuccessors := true } seed
    refine ⟨r, hof options.checkFineness, ?_, ?_, ?_, hr.depth_successors rfl⟩
    · intro depth s id other hid hother
      exact hr.divides.innerAt_unique hid hother
    · intro depth s id hid
      exact hr.get?_successors rfl hid
    · intro depth s hnone
      exact hr.get?_successors_eq_none fun _ => hnone
  · obtain ⟨r, hr, hof⟩ := ofMachine_final M { options with recordSuccessors := false } seed
    have hrows : r.successors.depth = 0 := hr.depth_successors_eq_zero Bool.false_ne_true
    refine ⟨r, hof options.checkFineness, SuccessorTable.isEmpty_iff.mpr hrows, hrows, ?_⟩
    intro depth s
    exact hr.get?_successors_eq_none fun hrecord => absurd hrecord Bool.false_ne_true

/-- The rows of the table. Two states are in an inner node of depth two. -/
example : ∃ r, SplittingTree.ofMachine laggard .leeYannakakis 0 = .ok r ∧ r.successors.depth = 3 ∧
    (List.range 3).map (fun depth => laggard.states.map fun s =>
      (r.successors.get? depth s).map (·.index)) =
        [[some 1, some 2, some 3, some 0, some 1], [some 2, some 3, some 0, some 3, some 0],
          [some 3, some 0, none, none, none]] :=
  SplittingTree.exists_of_runFor 12 (by decide +kernel)

end StateIdentification
