import StateIdentification.Proofs.TreeShape

/-!
# Splitting a leaf

What changes in a splitting tree when a leaf is split: the leaf gets children, and all other nodes
stay as they are. If the parts are the classes of its states by the last outputs on the separator,
the tree still divides the states of the machine.

## Main definitions

- `SplittingTree.Leads`: a separator of a certain depth leads from one state to another.

## Main results

- `SplittingTree.isLeaf_split`, `SplittingTree.separator_split`: nodes before and after a split.
- `SplittingTree.leads_split_iff`: what separators lead to after a split.
- `SplittingTree.Divides.split`: a split by last outputs keeps the shape of the tree.
-/

namespace StateIdentification.SplittingTree

variable {t : SplittingTree} {id c : Nat} {w : Word} {parts : List (List State)}

@[simp]
theorem size_split (t : SplittingTree) (id : Nat) (w : Word) (parts : List (List State)) :
    (t.split id w parts).size = t.size + parts.length := by
  simp [split]

theorem children_split (hid : id ∈ t.leaves) (w : Word) (parts : List (List State)) (c : Nat) :
    (t.split id w parts).children c =
      if c = id then List.range' t.size parts.length else t.children c := by
  rw [split, Arena.children_grow_leaf hid, List.length_map]

theorem isLeaf_split (hid : id ∈ t.leaves) (w : Word) (hp : parts ≠ []) :
    (t.split id w parts).isLeaf c ↔ c ≠ id ∧ t.isLeaf c :=
  Arena.isLeaf_grow hid (by simpa using hp)

theorem states_split_of_lt (hc : c < t.size) (id : Nat) (w : Word) (parts : List (List State)) :
    (t.split id w parts).states c = t.states c :=
  Arena.part_label_grow_of_lt StateClass.states rfl hc _

theorem states_split_add (id : Nat) (w : Word) {n : Nat} (hn : n < parts.length) :
    (t.split id w parts).states (t.size + n) = parts[n] := by
  rw [states, split, Arena.label_grow_add _ (by simpa using hn)]
  simp

theorem map_states_split (t : SplittingTree) (id : Nat) (w : Word) (parts : List (List State)) :
    (List.range' t.size parts.length).map (t.split id w parts).states = parts := by
  have := t.map_part_label_grow StateClass.states id ({ · with separator := w })
    (parts.map (⟨·, []⟩))
  rw [List.length_map] at this
  exact this.trans (by simp [Function.comp_def])

/-- Only the node that is split has a new separator. -/
theorem separator_split (hid : id < t.size) (w : Word) (parts : List (List State)) (c : Nat) :
    (t.split id w parts).separator c = if c = id then w else t.separator c :=
  Arena.part_label_grow StateClass.separator (by simp [default]) hid _ c

theorem depth_split_of_lt (hc : c < t.size) (id : Nat) (w : Word) (parts : List (List State)) :
    (t.split id w parts).depth c = t.depth c :=
  t.depth_grow_of_lt hc id _ _

theorem depth_split_of_mem (hc : c ∈ List.range' t.size parts.length) (id : Nat) (w : Word) :
    (t.split id w parts).depth c = t.depth id + 1 := by
  obtain ⟨n, hn, rfl⟩ := List.mem_range'.mp hc
  rw [Nat.one_mul]
  exact t.depth_grow_add (by simpa using hn) id _

theorem mem_leaves_split (hid : id ∈ t.leaves) (w : Word) (hp : parts ≠ []) :
    c ∈ (t.split id w parts).leaves ↔
      (c ≠ id ∧ c ∈ t.leaves) ∨ ∃ n < parts.length, c = t.size + n := by
  rw [split, Arena.mem_leaves_grow hid (by simpa using hp), List.length_map]

/-- The inner nodes after a split are the leaf that was split and the old ones. -/
theorem exists_inner_split_iff (hid : id ∈ t.leaves) (w : Word) (hp : parts ≠ [])
    {P : Nat → Prop} :
    (∃ c, ¬ (t.split id w parts).isLeaf c ∧ P c) ↔ P id ∨ ∃ c, ¬ t.isLeaf c ∧ P c := by
  have hleaf := (Arena.mem_leaves.mp hid).2
  simp only [isLeaf_split hid w hp]
  grind

/-- An inner node of the given depth has the state `s`, and its separator leads from `s` to `x`. -/
def Leads (M : Machine) (t : SplittingTree) (depth : Nat) (s x : State) : Prop :=
  ∃ id, ¬ t.isLeaf id ∧ t.depth id = depth ∧ s ∈ t.states id ∧ M.reached s (t.separator id) = x

section Leads

variable {M : Machine} {depth : Nat} {s x : State}

/-- A split adds what the new separator leads to. -/
theorem leads_split_iff (hid : id ∈ t.leaves) (w : Word) (hp : parts ≠ []) :
    (t.split id w parts).Leads M depth s x ↔
      (t.depth id = depth ∧ s ∈ t.states id ∧ M.reached s w = x) ∨ t.Leads M depth s x := by
  obtain ⟨hlt, hleaf⟩ := Arena.mem_leaves.mp hid
  rw [Leads, exists_inner_split_iff hid w hp]
  refine or_congr ?_ (exists_congr fun c => and_congr_right fun hc => ?_)
  · rw [depth_split_of_lt hlt, states_split_of_lt hlt, separator_split hlt, if_pos rfl]
  · have hsize := Arena.lt_size_of_not_isLeaf hc
    have hne : c ≠ id := by
      rintro rfl
      exact hc hleaf
    rw [depth_split_of_lt hsize, states_split_of_lt hsize, separator_split hlt, if_neg hne]

/-- The separator of a node is the only one of its depth that leads anywhere from its states. -/
theorem Divides.leads_iff (h : t.Divides M) (hl : ¬ t.isLeaf id) (hs : s ∈ t.states id) :
    t.Leads M (t.depth id) s x ↔ M.reached s (t.separator id) = x := by
  constructor
  · rintro ⟨c, hc, hdepth, hsc, heq⟩
    exact h.eq_of_depth_eq (Arena.lt_size_of_not_isLeaf hc) (Arena.lt_size_of_not_isLeaf hl) hsc hs
      hdepth ▸ heq
  · exact fun heq => ⟨id, hl, rfl, hs, heq⟩

/-- No separator of the depth of a leaf leads anywhere from a state of that leaf. -/
theorem Divides.not_leads (h : t.Divides M) (hid : id ∈ t.leaves) (hs : s ∈ t.states id) :
    ¬ t.Leads M (t.depth id) s x := by
  rintro ⟨c, hc, hdepth, hsc, -⟩
  obtain ⟨hlt, hleaf⟩ := Arena.mem_leaves.mp hid
  exact hc (h.eq_of_depth_eq (Arena.lt_size_of_not_isLeaf hc) hlt hsc hs hdepth ▸ hleaf)

end Leads

/-- A split by the last outputs on the separator keeps the shape of the tree. -/
theorem Divides.split {M : Machine} (h : t.Divides M) (hid : id ∈ t.leaves)
    (hp : parts = classes (t.states id) (M.lastOutput · w)) (htwo : 2 ≤ parts.length) :
    (t.split id w parts).Divides M := by
  obtain ⟨hlt, hleaf⟩ := Arena.mem_leaves.mp hid
  have hne : parts ≠ [] := by
    rintro rfl
    simp at htwo
  have inner {c : Nat} (hl : ¬ (t.split id w parts).isLeaf c) :
      c = id ∨ (c ≠ id ∧ ¬ t.isLeaf c) :=
    Arena.eq_or_not_isLeaf_of_grow hid (by simpa using hne) hl
  constructor
  · rw [states_split_of_lt t.root_lt_size, h.states_root]
  · rw [depth_split_of_lt t.root_lt_size, h.depth_root]
  · exact h.rooted.grow hid _ _
  · intro a c hc
    rw [children_split hid] at hc
    split at hc
    case isTrue heq =>
      subst heq
      obtain ⟨hge, hlt'⟩ := List.mem_range'_1.mp hc
      obtain ⟨n, rfl⟩ := Nat.exists_eq_add_of_le hge
      rw [depth_split_of_lt hlt]
      exact t.depth_grow_add (by simpa using hlt') a _
    case isFalse =>
      have hct := Arena.lt_size_of_mem_children hc
      have hat := Arena.lt_of_mem_children hc
      rw [depth_split_of_lt hct, depth_split_of_lt (hat.trans hct), h.depth_child hc]
  · intro a hl
    rcases inner hl with rfl | ⟨hne, hl⟩
    · rw [children_split hid, if_pos rfl, map_states_split, separator_split hlt, if_pos rfl,
        states_split_of_lt hlt]
      exact hp
    · rw [separator_split hlt, if_neg hne, states_split_of_lt (Arena.lt_size_of_not_isLeaf hl),
        ← h.divided hl]
      exact Arena.map_part_children_grow StateClass.states hid rfl _ hne
  · intro a hl
    rcases inner hl with rfl | ⟨hne, hl⟩
    · rw [children_split hid, if_pos rfl]
      simpa using htwo
    · rw [children_split hid, if_neg hne]
      exact h.branching hl
  · intro a hl
    obtain ⟨hne, hl⟩ := (isLeaf_split hid w hne).mp hl
    rw [separator_split hlt, if_neg hne, h.separator_leaf hl]

end StateIdentification.SplittingTree
