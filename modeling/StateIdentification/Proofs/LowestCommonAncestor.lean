import Mathlib.Data.Finset.Card
import StateIdentification.Proofs.GrowthRun
import StateIdentification.Proofs.LowestNode
import StateIdentification.Proofs.TurnByTurn

/-!
# The lowest common ancestor of a set of states

A node that holds a set of states is the lowest one to do so if it is a leaf, or if the set has
states in several of its children. The descent along the marks ends in such a node, as long as the
set is not empty.

## Main definitions

- `SplittingTree.stateSet`: the states of a node as a set.
- `SplittingTree.selected`: the states of the tree with some property.
- `SplittingTree.IsLowest`: the lowest node that holds a set of states.

## Main results

- `SplittingTree.Divides.isLowest_of_leaf`, `SplittingTree.Divides.isLowest_of_splits`: where the
  lowest node is.
- `SplittingTree.Divides.isLowest_lowestCommonAncestor`: the descent ends there.
- `SplittingTree.Divides.get_mark_of_leaf_eq_card`,
  `SplittingTree.Divides.get_mark_of_inner_eq_card`: what the marks count.
- `SplittingTree.ofMachine_lowestCommonAncestor`: all this for the tree of a machine.
-/

namespace StateIdentification.SplittingTree

/-- The states of a node as a set. -/
def stateSet (t : SplittingTree) (id : Nat) : Finset State := (t.states id).toFinset

/-- The states of the tree with a property. -/
def selected (t : SplittingTree) (p : State → Bool) : Finset State :=
  (t.stateSet Arena.root).filter (p ·)

/-- The node holds all states of a set, and every other node that does so lies higher. -/
structure IsLowest (t : SplittingTree) (known : Finset State) (id : Nat) : Prop where
  lt_size : id < t.size
  subset : known ⊆ t.stateSet id
  higher : ∀ other < t.size, known ⊆ t.stateSet other → other ≠ id → t.depth other < t.depth id

variable {M : Machine} {t : SplittingTree} {id other leaf : Nat} {s u : State}
  {known : Finset State} {p : State → Bool}

@[simp]
theorem mem_stateSet : s ∈ t.stateSet id ↔ s ∈ t.states id := List.mem_toFinset

theorem IsLowest.unique (h : t.IsLowest known id) (hother : t.IsLowest known other) :
    id = other := by
  by_contra hne
  have hlt := h.higher other hother.lt_size hother.subset (Ne.symm hne)
  have hlt' := hother.higher id h.lt_size h.subset hne
  omega

namespace Divides

theorem mem_selected (h : t.Divides M) : s ∈ t.selected p ↔ s ∈ M.states ∧ p s := by
  rw [selected, Finset.mem_filter, mem_stateSet, h.states_root]

/-- A node that holds all states of a set is the lowest one, if none that holds them lies deeper: at
the same depth there is no other one with a common state. -/
theorem isLowest_of_forall (h : t.Divides M) (hid : id < t.size) (hs : s ∈ known)
    (hsub : known ⊆ t.stateSet id)
    (hlow : ∀ other < t.size, known ⊆ t.stateSet other → ¬ t.depth id < t.depth other) :
    t.IsLowest known id := by
  refine ⟨hid, hsub, fun other hother hsub' hne => ?_⟩
  have hle := hlow other hother hsub'
  have hdepth : t.depth other ≠ t.depth id := by
    intro heq
    exact hne (h.eq_of_depth_eq hother hid (mem_stateSet.mp (hsub' hs))
      (mem_stateSet.mp (hsub hs)) heq)
  omega

/-- A leaf that holds all states of a set is the lowest node to do so. -/
theorem isLowest_of_leaf (h : t.Divides M) (hleaf : leaf ∈ t.leaves) (hs : s ∈ known)
    (hsub : known ⊆ t.stateSet leaf) : t.IsLowest known leaf := by
  obtain ⟨hlt, hl⟩ := Arena.mem_leaves.mp hleaf
  apply h.isLowest_of_forall hlt hs hsub
  intro other hother hsub'
  have := h.depth_le_of_isLeaf hl hlt hother (mem_stateSet.mp (hsub hs))
    (mem_stateSet.mp (hsub' hs))
  omega

/-- A node that holds all states of a set and splits two of them is the lowest node to hold them. -/
theorem isLowest_of_splits (h : t.Divides M) (hsplit : t.Splits id s u) (hs : s ∈ known)
    (hu : u ∈ known) (hsub : known ⊆ t.stateSet id) : t.IsLowest known id := by
  obtain ⟨c, hc, d, hd, hne, hsc, hud⟩ := hsplit
  apply h.isLowest_of_forall (Arena.lt_size_of_not_isLeaf (Arena.not_isLeaf_of_mem hc)) hs hsub
  intro other hother hsub' hlt
  -- a lower node with `s` is below the child with `s`, which does not have `u`
  have hbelow : t.states other ⊆ t.states c := by
    apply h.subset_of_depth_le (Arena.lt_size_of_mem_children hc) hother hsc
      (mem_stateSet.mp (hsub' hs))
    rw [h.depth_child hc]
    omega
  have huc : u ∈ t.states c := hbelow (mem_stateSet.mp (hsub' hu))
  exact hne (h.child_unique hc hd huc hud)

/-- An inner node in which the descent ends is marked more than once. -/
theorem one_lt_mark_lowestCommonAncestor (h : t.Divides M) (scratch : Marks)
    (hsome : ∃ s ∈ M.states, p s) (hl : ¬ t.isLeaf (t.lowestCommonAncestor scratch p).1) :
    1 < (t.mark scratch p).get (t.lowestCommonAncestor scratch p).1 := by
  obtain ⟨-, -, hmarked⟩ := h.lowestCommonAncestor_spec scratch hsome
  rw [get_mark_of_inner hl]
  exact hmarked hl

/-- The descent ends in the lowest node that holds all states of the set, if it is not empty. -/
theorem isLowest_lowestCommonAncestor (h : t.Divides M) (scratch : Marks)
    (hne : (t.selected p).Nonempty) :
    t.IsLowest (t.selected p) (t.lowestCommonAncestor scratch p).1 := by
  obtain ⟨s, hs⟩ := hne
  obtain ⟨hsM, hps⟩ := h.mem_selected.mp hs
  obtain ⟨hlt, hall, -⟩ := h.lowestCommonAncestor_spec scratch ⟨s, hsM, hps⟩
  have hmarked := h.one_lt_mark_lowestCommonAncestor scratch ⟨s, hsM, hps⟩
  generalize (t.lowestCommonAncestor scratch p).1 = node at hlt hall hmarked ⊢
  have hsub : t.selected p ⊆ t.stateSet node := by
    intro u hu
    obtain ⟨huM, hpu⟩ := h.mem_selected.mp hu
    exact mem_stateSet.mpr (hall u huM hpu)
  by_cases hl : t.isLeaf node
  · exact h.isLowest_of_leaf (Arena.mem_leaves.mpr ⟨hlt, hl⟩) hs hsub
  · have hsn : s ∈ t.states node := mem_stateSet.mp (hsub hs)
    obtain ⟨u, hpu, hsplit⟩ := (h.one_lt_mark_iff scratch hl hsn hps).mp (hmarked hl)
    have hu : u ∈ t.selected p :=
      h.mem_selected.mpr ⟨h.mem_states hlt (h.mem_of_splits hsplit.symm), hpu⟩
    exact h.isLowest_of_splits hsplit hs hu hsub

/-- The lowest node that holds some states is a leaf if and only if they are in one leaf. -/
theorem isLeaf_iff_of_isLowest (h : t.Divides M) (hne : known.Nonempty)
    (hid : t.IsLowest known id) :
    t.isLeaf id ↔ ∃ leaf ∈ t.leaves, known ⊆ t.stateSet leaf := by
  constructor
  · intro hl
    exact ⟨id, Arena.mem_leaves.mpr ⟨hid.lt_size, hl⟩, hid.subset⟩
  · rintro ⟨leaf, hleaf, hsub⟩
    obtain ⟨s, hs⟩ := hne
    obtain rfl := hid.unique (h.isLowest_of_leaf hleaf hs hsub)
    exact (Arena.mem_leaves.mp hleaf).2

/-- Without a state in the set nothing is marked, and the descent stays at the root. -/
theorem lowestCommonAncestor_of_empty (h : t.Divides M) (scratch : Marks)
    (hempty : t.selected p = ∅) : (t.lowestCommonAncestor scratch p).1 = Arena.root := by
  have unmarked {id : Nat} (hid : id < t.size) : ¬ 0 < (t.mark scratch p).get id := by
    intro hpos
    obtain ⟨s, hs, hps⟩ := (h.marked_iff scratch hid).mp hpos
    have hmem := h.mem_selected.mpr ⟨h.mem_states hid hs, hps⟩
    exact Finset.notMem_empty s (hempty ▸ hmem)
  have hroot := unmarked t.root_lt_size
  have hnone : (t.children Arena.root).find? (0 < (t.mark scratch p).get ·) = none := by
    apply List.find?_eq_none.mpr
    intro c hc
    simpa using unmarked (Arena.lt_size_of_mem_children hc)
  rw [lowestCommonAncestor, descend, if_neg (by omega)]
  split
  · rfl
  case h_2 c hfound => exact nomatch hnone.symm.trans hfound

/-- The descent for one state ends in its leaf. -/
theorem lowestCommonAncestor_of_singleton (h : t.Divides M) (scratch : Marks)
    (hone : t.selected p = {s}) :
    (t.lowestCommonAncestor scratch p).1 ∈ t.leaves ∧
      s ∈ t.states (t.lowestCommonAncestor scratch p).1 := by
  have hs : s ∈ t.selected p := hone ▸ Finset.mem_singleton_self s
  have hlow := h.isLowest_lowestCommonAncestor scratch ⟨s, hs⟩
  obtain ⟨leaf, hleaf, hsl⟩ := h.exists_leaf (h.mem_selected.mp hs).1
  have hsub : t.selected p ⊆ t.stateSet leaf := by
    rw [hone, Finset.singleton_subset_iff]
    exact mem_stateSet.mpr hsl
  obtain rfl := hlow.unique (h.isLowest_of_leaf hleaf hs hsub)
  exact ⟨hleaf, hsl⟩

theorem mem_selected_inter (h : t.Divides M) (hid : id < t.size) :
    s ∈ t.selected p ∩ t.stateSet id ↔ s ∈ t.states id ∧ p s := by
  rw [Finset.mem_inter, h.mem_selected, mem_stateSet]
  constructor
  · rintro ⟨⟨-, hps⟩, hs⟩
    exact ⟨hs, hps⟩
  · rintro ⟨hs, hps⟩
    exact ⟨⟨h.mem_states hid hs, hps⟩, hs⟩

/-- The mark of a leaf is the number of its states in the set. -/
theorem get_mark_of_leaf_eq_card (h : t.Divides M) (scratch : Marks) (hleaf : leaf ∈ t.leaves) :
    (t.mark scratch p).get leaf = (t.selected p ∩ t.stateSet leaf).card := by
  have hlt := (Arena.mem_leaves.mp hleaf).1
  have hcount : ((t.stateSet leaf).filter (p ·)).card = (t.states leaf).countP p := by
    rw [stateSet, (h.nodup hlt).card_eq_countP]
    simp
  rw [get_mark_of_leaf hleaf, ← hcount]
  congr 1
  ext s
  rw [h.mem_selected_inter hlt, Finset.mem_filter, mem_stateSet]

/-- The mark of an inner node is the number of its children with a state in the set. -/
theorem get_mark_of_inner_eq_card (h : t.Divides M) (scratch : Marks) (hl : ¬ t.isLeaf id) :
    (t.mark scratch p).get id =
      ((t.children id).toFinset.filter fun c => (t.selected p ∩ t.stateSet c).Nonempty).card := by
  rw [get_mark_of_inner hl, ← (h.nodup_children id).card_eq_countP]
  congr 1
  apply Finset.filter_congr
  intro c hc
  have hlt := Arena.lt_size_of_mem_children (List.mem_toFinset.mp hc)
  rw [h.marked_iff scratch hlt]
  exact exists_congr fun s => (h.mem_selected_inter hlt).symm

/-- For several states, the descent ends in a node that is marked more than once. -/
theorem two_le_mark_lowestCommonAncestor (h : t.Divides M) (scratch : Marks)
    (htwo : 2 ≤ (t.selected p).card) :
    2 ≤ (t.mark scratch p).get (t.lowestCommonAncestor scratch p).1 := by
  obtain ⟨s, hs⟩ : (t.selected p).Nonempty := Finset.card_pos.mp (by omega)
  have hlow := h.isLowest_lowestCommonAncestor scratch ⟨s, hs⟩
  have hmarked := h.one_lt_mark_lowestCommonAncestor scratch ⟨s, h.mem_selected.mp hs⟩
  generalize (t.lowestCommonAncestor scratch p).1 = node at hlow hmarked ⊢
  by_cases hl : t.isLeaf node
  · have hleaf := Arena.mem_leaves.mpr ⟨hlow.lt_size, hl⟩
    rw [h.get_mark_of_leaf_eq_card scratch hleaf, Finset.inter_eq_left.mpr hlow.subset]
    exact htwo
  · exact hmarked hl

end Divides

/-- Whatever marks are handed on from earlier queries, the lowest common ancestor in the tree of a
machine is the root if no state has the property, and the leaf of the state if there is only one. If
there are several, it is the lowest node that holds them all; it is marked more than once, and it is
a leaf if and only if they are in one leaf. Afterwards a leaf is marked with the number of its
states with the property, and an inner node with the number of its children that have such a
state. -/
theorem ofMachine_lowestCommonAncestor [RandomSource] (M : Machine) (options : SplittingOptions)
    (seed : UInt64) :
    ∃ r, ofMachine M options seed = .ok r ∧ ∀ (scratch : Marks) (p : State → Bool),
      let t := r.tree
      let known := t.selected p
      ∃ node marks, t.lowestCommonAncestor scratch p = (node, marks) ∧
        (known = ∅ → node = Arena.root) ∧
        (∀ s, known = {s} → node ∈ t.leaves ∧ s ∈ t.states node) ∧
        (2 ≤ known.card → t.IsLowest known node ∧
          (t.isLeaf node ↔ ∃ leaf ∈ t.leaves, known ⊆ t.stateSet leaf) ∧ 2 ≤ marks.get node) ∧
        (∀ leaf ∈ t.leaves, marks.get leaf = (known ∩ t.stateSet leaf).card) ∧
        (∀ id, ¬ t.isLeaf id → marks.get id =
          ((t.children id).toFinset.filter fun c => (known ∩ t.stateSet c).Nonempty).card) ∧
        ∀ id, t.size ≤ id → marks.get id = 0 := by
  obtain ⟨r, hr, hof⟩ := ofMachine_final M options seed
  refine ⟨r, hof options.checkFineness, ?_⟩
  intro scratch p t known
  have h : t.Divides M := hr.divides
  refine ⟨(t.lowestCommonAncestor scratch p).1, t.mark scratch p, rfl, ?_, ?_, ?_, ?_, ?_, ?_⟩
  · exact h.lowestCommonAncestor_of_empty scratch
  · intro s hone
    exact h.lowestCommonAncestor_of_singleton scratch hone
  · intro htwo
    have hne : known.Nonempty := Finset.card_pos.mp (by omega)
    have hlow := h.isLowest_lowestCommonAncestor scratch hne
    exact ⟨hlow, h.isLeaf_iff_of_isLowest hne hlow,
      h.two_le_mark_lowestCommonAncestor scratch htwo⟩
  · intro leaf hleaf
    exact h.get_mark_of_leaf_eq_card scratch hleaf
  · intro id hl
    exact h.get_mark_of_inner_eq_card scratch hl
  · intro id hsize
    exact get_mark_of_size_le hsize scratch p

/-- The lowest common ancestors of the first state with each state, whatever was marked before. -/
example : ∃ r, ofMachine laggard .hopcroft 0 = .ok r ∧
    laggard.states.map (fun s => (r.tree.lowestCommonAncestor ⟨#[7, 7, 7]⟩
      fun u => u == .first || u == s).1) = [5, 3, 1, 0, 0] :=
  exists_of_runFor 12 (by decide +kernel)

end StateIdentification.SplittingTree
