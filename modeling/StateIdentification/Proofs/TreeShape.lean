import Mathlib.Data.List.Nodup
import Mathlib.Data.List.Pairwise
import StateIdentification.Counting
import StateIdentification.Machine.Run
import StateIdentification.Proofs.ArenaShape
import StateIdentification.SplittingTree.Basic

/-!
# The shape of a splitting tree

Every inner node of a splitting tree divides its states among its children by their last outputs on
the separator. From this rule alone it follows how the nodes lie to each other: every state has one
leaf, two nodes of the same depth have no state in common, and two states of different leaves are
split by exactly one node.

## Main definitions

- `SplittingTree.Divides`: the tree divides the states of a machine by last outputs.
- `SplittingTree.Splits`: a node has two states in different children.

## Main results

- `SplittingTree.Divides.lastOutput_eq_iff`: the children of a node by the last outputs.
- `SplittingTree.Divides.leaf_unique`: a state is in one leaf only.
- `SplittingTree.Divides.together_or_split`: two states are in one leaf, or a node splits them.
- `SplittingTree.Divides.splits_unique`: at most one node splits two states.
- `SplittingTree.Divides.mem_trail`: the trail of a state passes all nodes that contain it.
-/

namespace StateIdentification

namespace SplittingTree

/-- The root holds all states of the machine, and every inner node has a separator that divides its
states among at least two children: one child for every last output, in the order in which the
outputs occur first. -/
structure Divides (t : SplittingTree) (M : Machine) : Prop where
  states_root : t.states Arena.root = M.states
  depth_root : t.depth Arena.root = 0
  rooted : t.Rooted
  depth_child : ∀ {id c : Nat}, c ∈ t.children id → t.depth c = t.depth id + 1
  divided : ∀ {id : Nat}, ¬ t.isLeaf id →
    (t.children id).map t.states = classes (t.states id) (M.lastOutput · (t.separator id))
  branching : ∀ {id : Nat}, ¬ t.isLeaf id → 2 ≤ (t.children id).length
  separator_leaf : ∀ {id : Nat}, t.isLeaf id → t.separator id = []

/-- The node has the two states in different children. -/
def Splits (t : SplittingTree) (id : Nat) (s u : State) : Prop :=
  ∃ c ∈ t.children id, ∃ d ∈ t.children id, c ≠ d ∧ s ∈ t.states c ∧ u ∈ t.states d

theorem Splits.symm {t : SplittingTree} {id : Nat} {s u : State} (h : t.Splits id s u) :
    t.Splits id u s := by
  obtain ⟨c, hc, d, hd, hne, hsc, hud⟩ := h
  exact ⟨d, hd, c, hc, hne.symm, hud, hsc⟩

theorem Splits.not_isLeaf {t : SplittingTree} {id : Nat} {s u : State} (h : t.Splits id s u) :
    ¬ t.isLeaf id := by
  obtain ⟨c, hc, -⟩ := h
  exact Arena.not_isLeaf_of_mem hc

/-- The tree of one leaf for all states. -/
theorem divides_ofSize (M : Machine) : (ofSize M.stateCount).Divides M where
  states_root := rfl
  depth_root := rfl
  rooted _ hpos hid := absurd hid (Nat.not_lt.mpr hpos)
  depth_child hc := by simp [ofSize] at hc
  divided hl := absurd (Arena.isLeaf_iff.mpr (Arena.children_single _ _)) hl
  branching hl := absurd (Arena.isLeaf_iff.mpr (Arena.children_single _ _)) hl
  separator_leaf {id} _ := by
    cases id with
    | zero => rfl
    | succ id => simp [separator, ofSize, Arena.label, Arena.single, default]

namespace Divides

variable {M : Machine} {t : SplittingTree} {id c d : Nat} {s u : State}

theorem stateCount_eq (h : t.Divides M) : t.stateCount = M.stateCount := by
  rw [stateCount, h.states_root, Machine.states, Handle.length_range]

/-- A child holds the states with one of the last outputs. -/
theorem states_child (h : t.Divides M) (hc : c ∈ t.children id) :
    ∃ x ∈ t.states id, t.states c = (t.states id).filter fun y =>
      M.lastOutput y (t.separator id) == M.lastOutput x (t.separator id) := by
  have hm : t.states c ∈ (t.children id).map t.states := List.mem_map_of_mem hc
  rw [h.divided (Arena.not_isLeaf_of_mem hc)] at hm
  obtain ⟨x, hx, heq⟩ := mem_classes.mp hm
  exact ⟨x, hx, heq.symm⟩

theorem mem_of_mem_child (h : t.Divides M) (hc : c ∈ t.children id) (hs : s ∈ t.states c) :
    s ∈ t.states id := by
  obtain ⟨x, -, heq⟩ := h.states_child hc
  rw [heq] at hs
  exact (List.mem_filter.mp hs).1

theorem exists_child (h : t.Divides M) (hl : ¬ t.isLeaf id) (hs : s ∈ t.states id) :
    ∃ c ∈ t.children id, s ∈ t.states c := by
  have hm : _ ∈ classes (t.states id) (M.lastOutput · (t.separator id)) :=
    mem_classes.mpr ⟨s, hs, rfl⟩
  rw [← h.divided hl] at hm
  obtain ⟨c, hc, heq⟩ := List.mem_map.mp hm
  exact ⟨c, hc, heq ▸ List.mem_filter.mpr ⟨hs, by simp⟩⟩

/-- Different children of a node have no state in common. -/
theorem child_unique (h : t.Divides M) (hc : c ∈ t.children id) (hd : d ∈ t.children id)
    (hsc : s ∈ t.states c) (hsd : s ∈ t.states d) : c = d := by
  have apart : (t.children id).Pairwise fun c d => ¬ (s ∈ t.states c ∧ s ∈ t.states d) := by
    have := pairwise_classes (t.states id) (M.lastOutput · (t.separator id))
    rw [← h.divided (Arena.not_isLeaf_of_mem hc), List.pairwise_map] at this
    exact this.imp fun {c d} hp hs => hp s hs.2 hs.1
  have : Std.Symm fun c d => ¬ (s ∈ t.states c ∧ s ∈ t.states d) := ⟨fun _ _ hp hs => hp hs.symm⟩
  by_contra hne
  exact apart.forall hc hd hne ⟨hsc, hsd⟩

/-- The states of a node are in the same child if they have the same last output on the
separator. -/
theorem lastOutput_eq_iff (h : t.Divides M) (hc : c ∈ t.children id) (hd : d ∈ t.children id)
    (hs : s ∈ t.states c) (hu : u ∈ t.states d) :
    M.lastOutput s (t.separator id) = M.lastOutput u (t.separator id) ↔ c = d := by
  obtain ⟨x, -, hx⟩ := h.states_child hc
  have hsx := hs
  rw [hx, List.mem_filter, beq_iff_eq] at hsx
  constructor
  · intro heq
    have huc : u ∈ t.states c := by
      rw [hx, List.mem_filter, beq_iff_eq]
      exact ⟨h.mem_of_mem_child hd hu, heq.symm.trans hsx.2⟩
    exact h.child_unique hc hd huc hu
  · rintro rfl
    rw [hx, List.mem_filter, beq_iff_eq] at hu
    exact hsx.2.trans hu.2.symm

theorem mem_of_splits (h : t.Divides M) (hsplit : t.Splits id s u) : s ∈ t.states id := by
  obtain ⟨c, hc, -, -, -, hsc, -⟩ := hsplit
  exact h.mem_of_mem_child hc hsc

/-- The separator of a node that splits two states tells them apart by its last output. -/
theorem lastOutput_ne_of_splits (h : t.Divides M) (hsplit : t.Splits id s u) :
    M.lastOutput s (t.separator id) ≠ M.lastOutput u (t.separator id) := by
  obtain ⟨c, hc, d, hd, hne, hsc, hud⟩ := hsplit
  exact fun heq => hne ((h.lastOutput_eq_iff hc hd hsc hud).mp heq)

theorem ne_of_splits (h : t.Divides M) (hsplit : t.Splits id s u) : s ≠ u :=
  fun heq => h.lastOutput_ne_of_splits hsplit (heq ▸ rfl)

/-- The states of a node are states of the machine, in ascending order. -/
theorem sublist (h : t.Divides M) (hid : id < t.size) : (t.states id).Sublist M.states := by
  induction id, hid using h.rooted.induction with
  | atRoot => exact h.states_root ▸ .refl _
  | child p c hp hc ih =>
    obtain ⟨x, -, heq⟩ := h.states_child hc
    rw [heq]
    exact List.filter_sublist.trans ih

theorem mem_states (h : t.Divides M) (hid : id < t.size) (hs : s ∈ t.states id) : s ∈ M.states :=
  (h.sublist hid).mem hs

theorem ascending (h : t.Divides M) (hid : id < t.size) : (t.states id).Pairwise (· < ·) :=
  (Handle.pairwise_range M.stateCount).sublist (h.sublist hid)

theorem nodup (h : t.Divides M) (hid : id < t.size) : (t.states id).Nodup :=
  (h.sublist hid).nodup Machine.nodup_states

/-- Every node holds a state. -/
theorem exists_mem (h : t.Divides M) (hid : id < t.size) : ∃ s, s ∈ t.states id := by
  rcases Nat.eq_zero_or_pos id with rfl | hpos
  · exact ⟨⟨0⟩, h.states_root ▸ Machine.mem_states.mpr M.stateCount_pos⟩
  · obtain ⟨p, hp, -⟩ := h.rooted id hpos hid
    have hm : t.states id ∈ (t.children p).map t.states := List.mem_map_of_mem hp
    rw [h.divided (Arena.not_isLeaf_of_mem hp)] at hm
    exact List.exists_mem_of_ne_nil _ (ne_nil_of_mem_classes hm)

theorem nodup_children (h : t.Divides M) (id : Nat) : (t.children id).Nodup := by
  by_cases hl : t.isLeaf id
  · rw [Arena.isLeaf_iff.mp hl]
    exact List.nodup_nil
  · have hpairs := pairwise_classes (t.states id) (M.lastOutput · (t.separator id))
    rw [← h.divided hl, List.pairwise_map] at hpairs
    refine hpairs.imp_of_mem fun {c d} _ hd hp heq => ?_
    obtain ⟨s, hs⟩ := h.exists_mem (Arena.lt_size_of_mem_children hd)
    exact hp s hs (heq ▸ hs)

/-- Every inner node splits two states. -/
theorem exists_splits (h : t.Divides M) (hl : ¬ t.isLeaf id) : ∃ s u, t.Splits id s u := by
  obtain ⟨c, hc, d, hd, hne⟩ := (two_le_length_iff (h.nodup_children id)).mp (h.branching hl)
  obtain ⟨s, hs⟩ := h.exists_mem (Arena.lt_size_of_mem_children hc)
  obtain ⟨u, hu⟩ := h.exists_mem (Arena.lt_size_of_mem_children hd)
  exact ⟨s, u, c, hc, d, hd, hne, hs, hu⟩

/-- A separator is not empty, as the states of its node have different last outputs. -/
theorem separator_ne_nil (h : t.Divides M) (hl : ¬ t.isLeaf id) : t.separator id ≠ [] := by
  intro hnil
  have hcount : 2 ≤ distinctCount ((t.states id).map (M.lastOutput · (t.separator id))) := by
    rw [← length_classes, ← h.divided hl, List.length_map]
    exact h.branching hl
  obtain ⟨k, hk, l, hl, hne⟩ := two_le_distinctCount.mp hcount
  obtain ⟨x, -, rfl⟩ := List.mem_map.mp hk
  obtain ⟨y, -, rfl⟩ := List.mem_map.mp hl
  exact hne (by simp [hnil, Machine.lastOutput, Machine.run?])

theorem depth_pos (h : t.Divides M) (hpos : 0 < id) (hid : id < t.size) : 0 < t.depth id := by
  obtain ⟨p, hp, -⟩ := h.rooted id hpos hid
  exact h.depth_child hp ▸ Nat.succ_pos _

/-- Different nodes of the same depth have no state in common. -/
theorem eq_of_depth_eq (h : t.Divides M) {a b : Nat} (ha : a < t.size) (hb : b < t.size)
    (hsa : s ∈ t.states a) (hsb : s ∈ t.states b) (hd : t.depth a = t.depth b) : a = b := by
  induction a using Nat.strongRecOn generalizing b with
  | ind a ih =>
    rcases Nat.eq_zero_or_pos a with rfl | hapos
    · rcases Nat.eq_zero_or_pos b with rfl | hbpos
      · rfl
      · exact absurd (hd ▸ h.depth_root) (h.depth_pos hbpos hb).ne'
    · rcases Nat.eq_zero_or_pos b with rfl | hbpos
      · exact absurd (hd.trans h.depth_root) (h.depth_pos hapos ha).ne'
      · obtain ⟨p, hp, -⟩ := h.rooted a hapos ha
        obtain ⟨q, hq, -⟩ := h.rooted b hbpos hb
        have hpa := Arena.lt_of_mem_children hp
        have hqb := Arena.lt_of_mem_children hq
        have hdepth : t.depth p = t.depth q := by
          rw [h.depth_child hp, h.depth_child hq] at hd
          exact Nat.succ.inj hd
        obtain rfl := ih p hpa (hpa.trans ha) (hqb.trans hb) (h.mem_of_mem_child hp hsa)
          (h.mem_of_mem_child hq hsb) hdepth
        exact h.child_unique hp hq hsa hsb

/-- No node that has a state in common with a leaf lies deeper. -/
theorem depth_le_of_isLeaf (h : t.Divides M) {leaf b : Nat} (hl : t.isLeaf leaf)
    (hleaf : leaf < t.size) (hb : b < t.size) (hsl : s ∈ t.states leaf) (hsb : s ∈ t.states b) :
    t.depth b ≤ t.depth leaf := by
  induction b, hb using h.rooted.induction with
  | atRoot =>
    rw [h.depth_root]
    exact Nat.zero_le _
  | child p c hp hc ih =>
    have hsp := h.mem_of_mem_child hc hsb
    have hne : t.depth p ≠ t.depth leaf := fun heq =>
      Arena.not_isLeaf_of_mem hc (h.eq_of_depth_eq hp hleaf hsp hsl heq ▸ hl)
    have hle := ih hsp
    rw [h.depth_child hc]
    omega

/-- A state is in one leaf only. -/
theorem leaf_unique (h : t.Divides M) {a b : Nat} (ha : a ∈ t.leaves) (hb : b ∈ t.leaves)
    (hsa : s ∈ t.states a) (hsb : s ∈ t.states b) : a = b := by
  obtain ⟨ha, hla⟩ := Arena.mem_leaves.mp ha
  obtain ⟨hb, hlb⟩ := Arena.mem_leaves.mp hb
  exact h.eq_of_depth_eq ha hb hsa hsb (Nat.le_antisymm
    (h.depth_le_of_isLeaf hlb hb ha hsb hsa) (h.depth_le_of_isLeaf hla ha hb hsa hsb))

/-- Two states are together in a leaf, or a node splits them. -/
theorem together_or_split (h : t.Divides M) (hs : s ∈ M.states) (hu : u ∈ M.states) :
    (∃ leaf ∈ t.leaves, s ∈ t.states leaf ∧ u ∈ t.states leaf) ∨ ∃ id, t.Splits id s u := by
  have below (id : Nat) (hid : id < t.size) (hsid : s ∈ t.states id) (huid : u ∈ t.states id) :
      (∃ leaf ∈ t.leaves, s ∈ t.states leaf ∧ u ∈ t.states leaf) ∨ ∃ id, t.Splits id s u := by
    induction id using t.inductionOnChildren with
    | node id ih =>
      by_cases hl : t.isLeaf id
      · exact .inl ⟨id, Arena.mem_leaves.mpr ⟨hid, hl⟩, hsid, huid⟩
      · obtain ⟨c, hc, hsc⟩ := h.exists_child hl hsid
        obtain ⟨d, hd, hud⟩ := h.exists_child hl huid
        by_cases hcd : c = d
        · subst hcd
          exact ih c hc (Arena.lt_size_of_mem_children hc) hsc hud
        · exact .inr ⟨id, c, hc, d, hd, hcd, hsc, hud⟩
  exact below Arena.root t.root_lt_size (h.states_root ▸ hs) (h.states_root ▸ hu)

/-- Of two nodes with a common state, the lower one is below the other one. -/
theorem subset_of_depth_le (h : t.Divides M) {a b : Nat} (ha : a < t.size) (hb : b < t.size)
    (hsa : s ∈ t.states a) (hsb : s ∈ t.states b) (hle : t.depth a ≤ t.depth b) :
    t.states b ⊆ t.states a := by
  induction b, hb using h.rooted.induction with
  | atRoot =>
    have hdepth : t.depth a = t.depth Arena.root := by
      rw [h.depth_root] at hle ⊢
      omega
    rw [h.eq_of_depth_eq ha t.root_lt_size hsa hsb hdepth]
    exact List.Subset.refl _
  | child p c hp hc ih =>
    rcases Nat.eq_or_lt_of_le hle with heq | hlt
    · rw [h.eq_of_depth_eq ha (Arena.lt_size_of_mem_children hc) hsa hsb heq]
      exact List.Subset.refl _
    · rw [h.depth_child hc] at hlt
      have hsub := ih (h.mem_of_mem_child hc hsb) (Nat.le_of_lt_succ hlt)
      exact fun x hx => hsub (h.mem_of_mem_child hc hx)

/-- At most one node splits two states. -/
theorem splits_unique (h : t.Divides M) {a b : Nat} (ha : t.Splits a s u) (hb : t.Splits b s u) :
    a = b := by
  -- a node that is below another splitting node has both states in the same child of the latter
  have not_below {a b : Nat} (ha : t.Splits a s u) (hb : t.Splits b s u) :
      ¬ t.depth a < t.depth b := by
    intro hlt
    obtain ⟨c, hc, d, hd, hne, hsc, hud⟩ := ha
    have hsub := h.subset_of_depth_le (Arena.lt_size_of_mem_children hc)
      (Arena.lt_size_of_not_isLeaf hb.not_isLeaf) hsc (h.mem_of_splits hb)
      (by rw [h.depth_child hc]; exact hlt)
    exact hne (h.child_unique hc hd (hsub (h.mem_of_splits hb.symm)) hud)
  exact h.eq_of_depth_eq (Arena.lt_size_of_not_isLeaf ha.not_isLeaf)
    (Arena.lt_size_of_not_isLeaf hb.not_isLeaf) (h.mem_of_splits ha) (h.mem_of_splits hb)
    (Nat.le_antisymm (Nat.not_lt.mp (not_below hb ha)) (Nat.not_lt.mp (not_below ha hb)))

/-- Every state is in a leaf. -/
theorem exists_leaf (h : t.Divides M) (hs : s ∈ M.states) :
    ∃ leaf ∈ t.leaves, s ∈ t.states leaf := by
  rcases h.together_or_split hs hs with ⟨leaf, hl, hsl, -⟩ | ⟨id, hsplit⟩
  · exact ⟨leaf, hl, hsl⟩
  · exact absurd rfl (h.ne_of_splits hsplit)

/-- The leaves hold every state once. -/
theorem perm_leaves (h : t.Divides M) : (t.leaves.flatMap t.states).Perm M.states := by
  refine (List.perm_ext_iff_of_nodup ?_ Machine.nodup_states).mpr fun s => ?_
  · refine List.nodup_flatMap.mpr ⟨fun id hid => h.nodup (Arena.mem_leaves.mp hid).1, ?_⟩
    refine (List.nodup_range.filter _).imp_of_mem fun {a b} ha hb hne => ?_
    exact fun s hsa hsb => hne (h.leaf_unique ha hb hsa hsb)
  · rw [List.mem_flatMap]
    constructor
    · rintro ⟨id, hid, hs⟩
      exact h.mem_states (Arena.mem_leaves.mp hid).1 hs
    · exact h.exists_leaf

/-- A node that has a state of a leaf has all of them. -/
theorem subset_of_leaf (h : t.Divides M) {leaf : Nat} (hleaf : leaf ∈ t.leaves) (hid : id < t.size)
    (hsl : s ∈ t.states leaf) (hs : s ∈ t.states id) : t.states leaf ⊆ t.states id := by
  obtain ⟨hsize, hl⟩ := Arena.mem_leaves.mp hleaf
  exact h.subset_of_depth_le hid hsize hs hsl (h.depth_le_of_isLeaf hl hsize hid hsl hs)

/-- A node that splits a state of a leaf from another one splits all states of the leaf from it. -/
theorem splits_of_leaf (h : t.Divides M) {leaf : Nat} (hleaf : leaf ∈ t.leaves)
    (hs : s ∈ t.states leaf) (hu : u ∈ t.states leaf) {x : State} (hsplit : t.Splits id s x) :
    t.Splits id u x := by
  obtain ⟨c, hc, d, hd, hne, hsc, hxd⟩ := hsplit
  have huc := h.subset_of_leaf hleaf (Arena.lt_size_of_mem_children hc) hs hsc hu
  exact ⟨c, hc, d, hd, hne, huc, hxd⟩

/-- The states of a leaf are in one child of every inner node that has one of them. -/
theorem lastOutput_eq_of_leaf (h : t.Divides M) (hl : ¬ t.isLeaf id) {leaf : Nat}
    (hleaf : leaf ∈ t.leaves) (hsid : s ∈ t.states id) (hs : s ∈ t.states leaf)
    (hu : u ∈ t.states leaf) :
    M.lastOutput s (t.separator id) = M.lastOutput u (t.separator id) := by
  obtain ⟨c, hc, hsc⟩ := h.exists_child hl hsid
  have huc := h.subset_of_leaf hleaf (Arena.lt_size_of_mem_children hc) hs hsc hu
  exact (h.lastOutput_eq_iff hc hc hsc huc).mpr rfl

/-- No node splits two states of one leaf. -/
theorem not_splits_of_leaf (h : t.Divides M) {leaf : Nat} (hleaf : leaf ∈ t.leaves)
    (hs : s ∈ t.states leaf) (hu : u ∈ t.states leaf) : ¬ t.Splits id s u := fun hsplit =>
  h.ne_of_splits (h.splits_of_leaf hleaf hs hu hsplit) rfl

/-- The trail of a state passes all nodes that contain it, and ends in a leaf. -/
theorem trail_spec (h : t.Divides M) (hs : s ∈ M.states) :
    (∀ a, a ∈ t.trail s ↔ a < t.size ∧ s ∈ t.states a) ∧
      ∃ leaf ∈ t.leaves, t.leafOf? s = some leaf ∧ s ∈ t.states leaf := by
  have hroot : s ∈ (t.label Arena.root).states := (h.states_root ▸ hs : s ∈ t.states Arena.root)
  obtain ⟨l, htrail, hmem, hall, hdown, leaf, hlast, hleaf⟩ :=
    t.trail?_eq_some (s ∈ ·.states)
      (fun id hl hs => by
        obtain ⟨c, hc, hsc⟩ := h.exists_child hl (of_decide_eq_true hs)
        exact ⟨c, hc, decide_eq_true hsc⟩)
      t.root_lt_size (decide_eq_true hroot)
  have hstates {a : Nat} (ha : a ∈ l) : a < t.size ∧ s ∈ t.states a :=
    ⟨(hall a ha).1, of_decide_eq_true (hall a ha).2⟩
  have heq : t.trail s = l := by
    simp [trail, Arena.trailFromRoot?, hroot, htrail]
  refine ⟨fun a => ⟨fun ha => hstates (heq ▸ ha), ?_⟩, leaf, ?_, ?_, ?_⟩
  · rintro ⟨ha, hsa⟩
    rw [heq]
    induction a, ha using h.rooted.induction with
    | atRoot => exact hmem
    | child p c hp hc ih =>
      have hpl := ih (h.mem_of_mem_child hc hsa)
      obtain ⟨d, hd, hdl⟩ := hdown p hpl (Arena.not_isLeaf_of_mem hc)
      exact h.child_unique hd hc (hstates hdl).2 hsa ▸ hdl
  · exact Arena.mem_leaves.mpr ⟨(hstates (List.mem_of_getLast? hlast)).1, hleaf⟩
  · rw [leafOf?, heq, hlast]
  · exact (hstates (List.mem_of_getLast? hlast)).2

theorem mem_trail (h : t.Divides M) (hs : s ∈ M.states) {a : Nat} :
    a ∈ t.trail s ↔ a < t.size ∧ s ∈ t.states a :=
  (h.trail_spec hs).1 a

end Divides

end SplittingTree

end StateIdentification
