import StateIdentification.Proofs.BoundedGrowth

/-!
# The leaves are the classes of equivalent states

Two states are equivalent if they answer every word alike. A splitting tree that admits every split
ends with the classes of equivalent states in its leaves: on the one hand a separator is a word that
tells the states of its children apart, on the other hand every input leads from a stuck leaf into
one leaf without telling its states apart, so no word does.

## Main definitions

- `Machine.Equivalent`: two states answer every word alike.
- `Machine.Reduced`: every two different states are told apart by a word.

## Main results

- `SplittingResult.Final.together_iff`: the leaves hold the classes of equivalent states.
- `SplittingTree.ofMachineBounded_leaves_equivalent`: the tree of a machine, its completeness, and
  minimality.
-/

namespace StateIdentification

variable {M : Machine} {options : SplittingOptions}

/-- Two states answer every word over the inputs of the machine alike. -/
def Machine.Equivalent (M : Machine) (s u : State) : Prop :=
  ∀ w : Word, (∀ i ∈ w, i ∈ M.inputs) → M.outputs s w = M.outputs u w

/-- Some word over the inputs of the machine separates the states. -/
def Machine.Separable (M : Machine) (s u : State) : Prop :=
  ∃ w : Word, (∀ i ∈ w, i ∈ M.inputs) ∧ M.separates s u w

/-- Every two different states are separated by some word. -/
def Machine.Reduced (M : Machine) : Prop :=
  ∀ s ∈ M.states, ∀ u ∈ M.states, s ≠ u → M.Separable s u

theorem Machine.separable_iff {s u : State} : M.Separable s u ↔ ¬ M.Equivalent s u := by
  simp only [Separable, Equivalent, separates, bne_iff_ne]
  push Not
  rfl

namespace SplittingTree

variable {t : SplittingTree}

/-- Every state is in one leaf, so the leaves have as many states as the machine. -/
theorem Divides.total_leaves (h : t.Divides M) :
    total List.length (t.leaves.map t.states) = M.stateCount := by
  rw [total_length, ← List.flatMap_def, h.perm_leaves.length_eq, Machine.states,
    Handle.length_range]

theorem Divides.leaf_ne_nil (h : t.Divides M) : ∀ xs ∈ t.leaves.map t.states, xs ≠ [] := by
  refine List.forall_mem_map.mpr fun id hid => ?_
  obtain ⟨s, hs⟩ := h.exists_mem (Arena.mem_leaves.mp hid).1
  exact List.ne_nil_of_mem hs

/-- There are no more leaves than states. -/
theorem Divides.leafCount_le (h : t.Divides M) : t.leafCount ≤ M.stateCount := by
  have hle := length_le_total h.leaf_ne_nil
  rwa [h.total_leaves, List.length_map] at hle

/-- There are as many leaves as states exactly if every leaf has one state. -/
theorem Divides.leafCount_eq_iff (h : t.Divides M) :
    t.leafCount = M.stateCount ↔ ∀ id ∈ t.leaves, (t.states id).length ≤ 1 := by
  have hiff := length_eq_total_iff h.leaf_ne_nil
  rwa [h.total_leaves, List.length_map, List.forall_mem_map] at hiff

end SplittingTree

namespace SplittingResult.Final

variable {r : SplittingResult} {s u : State}

/-- A word that starts with states of one leaf tells nothing, as long as no split was refused. -/
theorem outputs_eq_of_leaf (h : r.Final M options) (hv : options.checkValidity = false) {leaf : Nat}
    (hleaf : leaf ∈ r.tree.leaves) (hs : s ∈ r.tree.states leaf) (hu : u ∈ r.tree.states leaf)
    {w : Word} (hw : ∀ i ∈ w, i ∈ M.inputs) : M.outputs s w = M.outputs u w := by
  induction w generalizing s u leaf with
  | nil => rfl
  | cons i w ih =>
    obtain ⟨hi, hw⟩ := List.forall_mem_cons.mp hw
    by_cases heq : s = u
    · rw [heq]
    · have hn := h.divides.nodup (Arena.mem_leaves.mp hleaf).1
      have hstuck := h.stuck leaf hleaf ((two_le_length_iff hn).mpr ⟨s, hs, u, hu, heq⟩)
      rcases hstuck i hi with ⟨hvalid, -⟩ | ⟨hagree, next, hnext, htargets⟩
      · exact absurd hvalid (by simp [hv])
      · rw [Machine.outputs_cons, Machine.outputs_cons, hagree s hs u hu,
          ih hnext (htargets s hs) (htargets u hu) hw]

/-- The separator of a node that splits two states separates them. -/
theorem outputs_ne_of_splits (h : r.Final M options) {id : Nat} (hsplit : r.tree.Splits id s u) :
    M.outputs s (r.tree.separator id) ≠ M.outputs u (r.tree.separator id) := fun heq =>
  h.divides.lastOutput_ne_of_splits hsplit
    ((Machine.outputs_eq_iff (h.separates hsplit.not_isLeaf).ne_nil).mp heq).2

/-- The leaves of the tree hold the classes of equivalent states. -/
theorem together_iff (h : r.Final M options) (hv : options.checkValidity = false)
    (hs : s ∈ M.states) (hu : u ∈ M.states) :
    (∃ leaf ∈ r.tree.leaves, s ∈ r.tree.states leaf ∧ u ∈ r.tree.states leaf) ↔
      M.Equivalent s u := by
  constructor
  · rintro ⟨leaf, hleaf, hsl, hul⟩ w hw
    exact h.outputs_eq_of_leaf hv hleaf hsl hul hw
  · intro heq
    rcases h.divides.together_or_split hs hu with hleaf | ⟨id, hsplit⟩
    · exact hleaf
    · exact absurd (heq _ (h.separates hsplit.not_isLeaf).known) (h.outputs_ne_of_splits hsplit)

/-- Every leaf has one state exactly if the machine has no two equivalent states. -/
theorem small_leaves_iff (h : r.Final M options) (hv : options.checkValidity = false) :
    (∀ id ∈ r.tree.leaves, (r.tree.states id).length ≤ 1) ↔ M.Reduced := by
  constructor
  · intro hsmall s hs u hu hne
    rw [Machine.separable_iff, ← h.together_iff hv hs hu]
    rintro ⟨leaf, hleaf, hsl, hul⟩
    have hn := h.divides.nodup (Arena.mem_leaves.mp hleaf).1
    have hlarge := (two_le_length_iff hn).mpr ⟨s, hsl, u, hul, hne⟩
    exact absurd (hsmall leaf hleaf) (Nat.not_le.mpr hlarge)
  · intro hred id hid
    by_contra hlarge
    obtain ⟨hsize, -⟩ := Arena.mem_leaves.mp hid
    obtain ⟨s, hs, u, hu, hne⟩ :=
      (two_le_length_iff (h.divides.nodup hsize)).mp (Nat.not_le.mp hlarge)
    have hsep := hred s (h.divides.mem_states hsize hs) u (h.divides.mem_states hsize hu) hne
    exact Machine.separable_iff.mp hsep fun w hw => h.outputs_eq_of_leaf hv hid hs hu hw

end SplittingResult.Final

/-- A machine is minimal if and only if it has no two equivalent states. -/
theorem Machine.isMinimal_iff_reduced [RandomSource] (M : Machine) : M.isMinimal ↔ M.Reduced := by
  obtain ⟨r, hr, hof⟩ := SplittingTree.ofMachine_final M .hopcroft 0
  have hmin : M.isMinimal = (r.tree.leafCount == M.stateCount) := by
    rw [isMinimal, show SplittingTree.ofMachine M .hopcroft 0 = .ok r from hof false]
  rw [hmin, beq_iff_eq, hr.divides.leafCount_eq_iff, hr.small_leaves_iff rfl]

/-- If every split is admitted, the table of outputs is needed as soon as two states differ on an
input. -/
theorem SplittingTree.exceeds_hopcroft_iff :
    Exceeds M .hopcroft ↔ ¬ TableFits M.stateCount numberWidth ∨
      ¬ TableFits M.outputCount numberWidth ∧ ∃ i ∈ M.inputs, ¬ M.Agrees M.states i := by
  have hadmits (i : Input) : SplittingOptions.hopcroft.admits M M.states i [] := rfl
  simp only [Exceeds, RootSplits, hadmits, and_true]

/-- With more checks, fewer trees need the table of outputs. -/
theorem SplittingTree.Exceeds.hopcroft (h : Exceeds M options) : Exceeds M .hopcroft := by
  rw [exceeds_hopcroft_iff]
  exact h.imp_right fun ⟨large, i, hi, hdiffer, _⟩ => ⟨large, i, hi, hdiffer⟩

/-- The check for minimality gives an answer exactly if the tables of the tree fit. -/
theorem Machine.isMinimalBounded_of_not_exceeds [RandomSource]
    (h : ¬ SplittingTree.Exceeds M .hopcroft) : M.isMinimalBounded = .ok M.isMinimal := by
  rw [isMinimalBounded, SplittingTree.ofMachineBounded_of_not_exceeds h, isMinimal]
  cases SplittingTree.ofMachine M .hopcroft 0 <;> rfl

theorem Machine.isMinimalBounded_of_exceeds [RandomSource]
    (h : SplittingTree.Exceeds M .hopcroft) :
    M.isMinimalBounded = .error (SplittingTree.overflow M) := by
  rw [isMinimalBounded, SplittingTree.ofMachineBounded_of_exceeds h]
  rfl

/-- If every split is admitted, two states are in one leaf of the finished tree if and only if they
are equivalent, and the tree is complete exactly if every two different states are separated by some
word. There is a tree, and the check for minimality tells the same, exactly if the tables fit. -/
theorem SplittingTree.ofMachineBounded_leaves_equivalent [RandomSource] (M : Machine)
    (options : SplittingOptions) (seed : UInt64) :
    (∀ r, ofMachineBounded M { options with checkValidity := false } seed = .ok (.ok r) →
      (∀ s ∈ M.states, ∀ u ∈ M.states,
        (∃ leaf ∈ r.tree.leaves, s ∈ r.tree.states leaf ∧ u ∈ r.tree.states leaf) ↔
          M.Equivalent s u) ∧
      (r.complete ↔ M.Reduced)) ∧
    ((∃ r, ofMachineBounded M { options with checkValidity := false } seed = .ok (.ok r)) ↔
      ¬ Exceeds M .hopcroft) ∧
    (M.isMinimalBounded = .ok true ↔ M.Reduced ∧ ¬ Exceeds M .hopcroft) ∧
    (M.isMinimalBounded = .ok false ↔ ¬ M.Reduced ∧ ¬ Exceeds M .hopcroft) ∧
    (M.isMinimalBounded = .error (overflow M) ↔ Exceeds M .hopcroft) := by
  have hsame : Exceeds M { options with checkValidity := false } ↔ Exceeds M .hopcroft := Iff.rfl
  by_cases h : Exceeds M .hopcroft
  · rw [ofMachineBounded_of_exceeds (hsame.mpr h), Machine.isMinimalBounded_of_exceeds h]
    simp [h]
  · obtain ⟨r, hr, hof⟩ := ofMachine_final M { options with checkValidity := false } seed
    rw [ofMachineBounded_of_not_exceeds (hsame.not.mpr h), hof options.checkFineness,
      Machine.isMinimalBounded_of_not_exceeds h]
    refine ⟨?_, by simp [h], ?_, ?_, by simp [h]⟩
    · intro r' hr'
      cases hr'
      exact ⟨fun s hs u hu => hr.together_iff rfl hs hu,
        hr.complete_iff.trans (hr.small_leaves_iff rfl)⟩
    · rw [← M.isMinimal_iff_reduced, and_iff_left h, Except.ok.injEq]
    · rw [← M.isMinimal_iff_reduced, and_iff_left h, Except.ok.injEq, Bool.not_eq_true]

/-- The two states are told apart by a word, but the check for minimality does not say so. -/
theorem Machine.isMinimalBounded_farApart :
    farApart.Reduced ∧ farApart.isMinimalBounded = .error ⟨2 ^ 61, 8⟩ := by
  refine ⟨?_, isMinimalBounded_of_exceeds (SplittingTree.exceeds_farApart .hopcroft)⟩
  intro s hs u hu hne
  have hapart : ∀ s ∈ farApart.states, ∀ u ∈ farApart.states, s ≠ u →
      farApart.separates s u [⟨0⟩] := by decide
  exact ⟨[⟨0⟩], by decide, hapart s hs u hu hne⟩

end StateIdentification
