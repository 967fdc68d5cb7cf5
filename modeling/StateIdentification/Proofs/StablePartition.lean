import Mathlib.Data.List.Sort
import StateIdentification.Proofs.GrowthRun

/-!
# The leaves are the coarsest stable partition

A partition of the states of a machine is stable if every input leads the states of a block, with
one output, into one block. Inputs that merge two states of a block may be exempted from this. What
is left in the leaves of a finished splitting tree is a stable partition, and no split ever divides
a block of any stable partition, so the leaves are the coarsest one. There is only one coarsest
stable partition: it depends neither on the order in which inputs are tried nor on the order of the
splits.

## Main definitions

- `Machine.IsPartition`: blocks that hold every state once.
- `Machine.Stable`: no input divides a block.
- `Refines`: the blocks of one partition lie within those of another one.
- `SplittingTree.blocks`: the states of the leaves.

## Main results

- `SplittingTree.Grown.refines_blocks`: every stable partition refines the leaves of a growing tree.
- `SplittingResult.Final.stable_blocks`: the leaves of a finished tree are stable.
- `SplittingTree.ofMachine_coarsest_stable`: both together, and what follows for two runs.
-/

namespace StateIdentification

/-- The blocks hold every state of the machine once, and no block is empty. -/
structure Machine.IsPartition (M : Machine) (P : List (List State)) : Prop where
  perm : P.flatten.Perm M.states
  occupied : ∀ B ∈ P, B ≠ []

/-- Every input leads the states of a block, with one output, into one block. If `valid`, this is
asked only of inputs that merge no two states of the block. -/
def Machine.Stable (M : Machine) (valid : Bool) (P : List (List State)) : Prop :=
  ∀ B ∈ P, ∀ i ∈ M.inputs, (valid → ¬ M.Merges B i) →
    M.Agrees B i ∧ ∃ C ∈ P, ∀ s ∈ B, M.successor s i ∈ C

/-- Every block of the first partition lies within a block of the second one. -/
def Refines (P Q : List (List State)) : Prop := ∀ B ∈ P, ∃ C ∈ Q, B ⊆ C

/-- The states of the leaves. -/
def SplittingTree.blocks (t : SplittingTree) : List (List State) := t.leaves.map t.states

variable {M : Machine} {options : SplittingOptions} {P Q : List (List State)} {B C : List State}
  {s : State}

theorem Machine.Merges.mono {i : Input} (h : M.Merges B i) (hsub : B ⊆ C) : M.Merges C i := by
  obtain ⟨s, hs, u, hu, hrest⟩ := h
  exact ⟨s, hsub hs, u, hsub hu, hrest⟩

namespace Machine.IsPartition

theorem mem_states (h : M.IsPartition P) (hB : B ∈ P) (hs : s ∈ B) : s ∈ M.states :=
  h.perm.mem_iff.mp (List.mem_flatten.mpr ⟨B, hB, hs⟩)

/-- Different blocks have no state in common. -/
theorem block_unique (h : M.IsPartition P) (hB : B ∈ P) (hC : C ∈ P) (hsB : s ∈ B) (hsC : s ∈ C) :
    B = C := by
  have : Std.Symm (List.Disjoint (α := State)) := ⟨fun _ _ => List.disjoint_symm⟩
  have hdisjoint := (List.nodup_flatten.mp (h.perm.nodup_iff.mpr nodup_states)).2
  by_contra hne
  exact hdisjoint.forall hB hC hne hsB hsC

/-- Two partitions that refine each other have the same blocks. -/
theorem subset_of_refines (h : M.IsPartition P) (hPQ : Refines P Q) (hQP : Refines Q P)
    (hB : B ∈ P) : ∃ C ∈ Q, B ⊆ C ∧ C ⊆ B := by
  obtain ⟨C, hC, hBC⟩ := hPQ B hB
  obtain ⟨D, hD, hCD⟩ := hQP C hC
  obtain ⟨s, hs⟩ := List.exists_mem_of_ne_nil B (h.occupied B hB)
  have heq : B = D := h.block_unique hB hD hs (hCD (hBC hs))
  exact ⟨C, hC, hBC, heq ▸ hCD⟩

end Machine.IsPartition

namespace SplittingTree

variable {t : SplittingTree}

theorem mem_blocks : B ∈ t.blocks ↔ ∃ leaf ∈ t.leaves, t.states leaf = B := List.mem_map

theorem Divides.isPartition_blocks (h : t.Divides M) : M.IsPartition t.blocks where
  perm := h.perm_leaves
  occupied := by
    refine List.forall_mem_map.mpr fun leaf hleaf => ?_
    obtain ⟨s, hs⟩ := h.exists_mem (Arena.mem_leaves.mp hleaf).1
    exact List.ne_nil_of_mem hs

/-- A word that is found gives the same last output from all states of a block of a stable
partition, if the blocks lie within leaves. -/
theorem Divides.lastOutput_eq_of_stable (h : t.Divides M) (hP : M.Stable options.checkValidity P)
    (hwithin : Refines P t.blocks) {states : List State} (hstates : ∀ s ∈ states, s ∈ M.states)
    (hn : states.Nodup) {inputs : List Input} (hperm : inputs.Perm M.inputs) {w : Word}
    (hf : t.findSplit M options states inputs = .ok (some w)) (hB : B ∈ P) (hsub : B ⊆ states) :
    ∀ s ∈ B, ∀ u ∈ B, M.lastOutput s w = M.lastOutput u w := by
  intro s hs u hu
  -- an admitted input merges no states of the block, so stability applies to it
  have unmerged {i : Input} {v : Word} (ha : options.admits M states i v)
      (hvalid : options.checkValidity) : ¬ M.Merges B i :=
    fun hm => Machine.not_merges_of_admits hn ha hvalid (hm.mono hsub)
  rcases h.findSplit_eq_some hstates (List.ne_nil_of_mem (hsub hs)) hf with
    ⟨i, him, rfl, -, ha⟩ | ⟨i, him, oracle, rfl, hl, htargets, -, ha, -⟩
  · have hagree := (hP B hB i (hperm.mem_iff.mp him) (unmerged ha)).1
    simpa using hagree s hs u hu
  · obtain ⟨-, C, hC, hBC⟩ := hP B hB i (hperm.mem_iff.mp him) (unmerged ha)
    obtain ⟨D, hD, hCD⟩ := hwithin C hC
    obtain ⟨leaf, hleaf, rfl⟩ := mem_blocks.mp hD
    have hne := h.separator_ne_nil hl
    rw [M.lastOutput_cons s i hne, M.lastOutput_cons u i hne]
    exact h.lastOutput_eq_of_leaf hl hleaf (htargets s (hsub hs)) (hCD (hBC s hs))
      (hCD (hBC u hu))

/-- Every stable partition refines the leaves of a growing tree. -/
theorem Grown.refines_blocks (h : t.Grown M options) (hP : M.IsPartition P)
    (hstable : M.Stable options.checkValidity P) : Refines P t.blocks := by
  induction h with
  | single =>
    intro B hB
    have hroot : Arena.root ∈ (ofSize M.stateCount).leaves :=
      Arena.mem_leaves.mpr ⟨Arena.root_lt_size _, Arena.isLeaf_iff.mpr (Arena.children_single _ _)⟩
    exact ⟨_, mem_blocks.mpr ⟨_, hroot, rfl⟩, fun s hs => hP.mem_states hB hs⟩
  | @split t leaf inputs w before divides isLeaf perm found ih =>
    have hsize := (Arena.mem_leaves.mp isLeaf).1
    have hstates := fun s => divides.mem_states (s := s) hsize
    have hne : classes (t.states leaf) (M.lastOutput · w) ≠ [] := by
      obtain ⟨s, hs⟩ := divides.exists_mem hsize
      exact List.ne_nil_of_mem (mem_classes.mpr ⟨s, hs, rfl⟩)
    intro B hB
    obtain ⟨_, hleaf, hsub⟩ := ih B hB
    obtain ⟨other, hother, rfl⟩ := mem_blocks.mp hleaf
    by_cases heq : other = leaf
    · -- the block lies within the leaf that is split, so it lies within one of the parts
      subst heq
      have hsame := divides.lastOutput_eq_of_stable hstable ih hstates (divides.nodup hsize) perm
        found hB hsub
      obtain ⟨s, hs⟩ := List.exists_mem_of_ne_nil B (hP.occupied B hB)
      have hm : _ ∈ classes (t.states other) (M.lastOutput · w) :=
        mem_classes.mpr ⟨s, hsub hs, rfl⟩
      obtain ⟨n, hn, hpart⟩ := List.mem_iff_getElem.mp hm
      refine ⟨_, mem_blocks.mpr ⟨t.size + n, ?_, states_split_add _ _ hn⟩, fun u hu => ?_⟩
      · exact (mem_leaves_split isLeaf w hne).mpr (.inr ⟨n, hn, rfl⟩)
      · rw [hpart]
        exact List.mem_filter.mpr ⟨hsub hu, beq_iff_eq.mpr (hsame u hu s hs)⟩
    · refine ⟨_, mem_blocks.mpr ⟨other, ?_, rfl⟩, ?_⟩
      · exact (mem_leaves_split isLeaf w hne).mpr (.inl ⟨heq, hother⟩)
      · rwa [states_split_of_lt (Arena.mem_leaves.mp hother).1]

end SplittingTree

namespace SplittingResult.Final

variable {r : SplittingResult}

/-- The leaves of a finished tree are stable. -/
theorem stable_blocks (h : r.Final M options) : M.Stable options.checkValidity r.tree.blocks := by
  intro B hB i hi hunmerged
  obtain ⟨leaf, hleaf, rfl⟩ := SplittingTree.mem_blocks.mp hB
  have hsize := (Arena.mem_leaves.mp hleaf).1
  by_cases hlarge : 2 ≤ (r.tree.states leaf).length
  · rcases h.stuck leaf hleaf hlarge i hi with
      ⟨hvalid, hmerges⟩ | ⟨hagree, target, htarget, hreach⟩
    · exact absurd hmerges (hunmerged hvalid)
    · exact ⟨hagree, _, SplittingTree.mem_blocks.mpr ⟨target, htarget, rfl⟩, hreach⟩
  · obtain ⟨x, hx⟩ := h.divides.exists_mem hsize
    have only {u : State} (hu : u ∈ r.tree.states leaf) : u = x := by
      by_contra hne
      exact hlarge ((two_le_length_iff (h.divides.nodup hsize)).mpr ⟨u, hu, x, hx, hne⟩)
    obtain ⟨target, htarget, hin⟩ :=
      h.divides.exists_leaf (Machine.successor_mem (h.divides.mem_states hsize hx) i)
    refine ⟨fun s hs u hu => by rw [only hs, only hu], _,
      SplittingTree.mem_blocks.mpr ⟨target, htarget, rfl⟩, fun s hs => ?_⟩
    rwa [only hs]

/-- A finished tree is complete if no block has two states. -/
theorem complete_iff_blocks (h : r.Final M options) :
    r.complete ↔ ∀ B ∈ r.tree.blocks, B.length ≤ 1 := by
  rw [h.complete_iff, SplittingTree.blocks, List.forall_mem_map]

/-- Two finished trees have the same blocks if the same splits count as valid. -/
theorem blocks_subset {options' : SplittingOptions} {r' : SplittingResult} (h : r.Final M options)
    (h' : r'.Final M options') (hv : options'.checkValidity = options.checkValidity) :
    r.tree.blocks ⊆ r'.tree.blocks := by
  have hP := h.divides.isPartition_blocks
  have hQ := h'.divides.isPartition_blocks
  have hPQ := h'.grown.refines_blocks hP (hv ▸ h.stable_blocks)
  have hQP := h.grown.refines_blocks hQ (hv ▸ h'.stable_blocks)
  intro B hB
  obtain ⟨C, hC, hBC, hCB⟩ := hP.subset_of_refines hPQ hQP hB
  obtain ⟨leaf, hleaf, rfl⟩ := SplittingTree.mem_blocks.mp hB
  obtain ⟨other, hother, rfl⟩ := SplittingTree.mem_blocks.mp hC
  have heq : r.tree.states leaf = r'.tree.states other :=
    List.Subset.antisymm_of_pairwise (h.divides.ascending (Arena.mem_leaves.mp hleaf).1)
      (h'.divides.ascending (Arena.mem_leaves.mp hother).1) hBC hCB
  exact heq ▸ hC

end SplittingResult.Final

/-- The leaves of the tree of a machine are the coarsest stable partition of its states. So two
trees for which the same splits count as valid have the same states in their leaves and are both
complete or both incomplete, whatever the other options and the seeds are. -/
theorem SplittingTree.ofMachine_coarsest_stable [RandomSource] (M : Machine)
    (options : SplittingOptions) (seed : UInt64) :
    ∃ r, ofMachine M options seed = .ok r ∧
      M.IsPartition r.tree.blocks ∧
      M.Stable options.checkValidity r.tree.blocks ∧
      (∀ P, M.IsPartition P → M.Stable options.checkValidity P → Refines P r.tree.blocks) ∧
      ∀ (options' : SplittingOptions) (seed' : UInt64),
        options'.checkValidity = options.checkValidity →
          ∃ r', ofMachine M options' seed' = .ok r' ∧
            (∀ B, B ∈ r'.tree.blocks ↔ B ∈ r.tree.blocks) ∧ r'.complete = r.complete := by
  obtain ⟨r, hr, hof⟩ := ofMachine_final M options seed
  refine ⟨r, hof options.checkFineness, hr.divides.isPartition_blocks, hr.stable_blocks,
    fun P hP hstable => hr.grown.refines_blocks hP hstable, fun options' seed' hv => ?_⟩
  obtain ⟨r', hr', hof'⟩ := ofMachine_final M options' seed'
  have hsame (B : List State) : B ∈ r'.tree.blocks ↔ B ∈ r.tree.blocks :=
    ⟨fun hB => hr'.blocks_subset hr hv.symm hB, fun hB => hr.blocks_subset hr' hv hB⟩
  refine ⟨r', hof' options'.checkFineness, hsame, Bool.eq_iff_iff.mpr ?_⟩
  rw [hr'.complete_iff_blocks, hr.complete_iff_blocks]
  exact forall_congr' fun B => imp_congr_left (hsame B)

end StateIdentification
