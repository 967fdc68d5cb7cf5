import StateIdentification.Memory.Construction
import StateIdentification.Proofs.GatheredWords
import StateIdentification.Proofs.MaximalWords
import StateIdentification.Proofs.StateEquivalence

/-!
# Separating families separate

Every two states that some word separates have a word in common that separates them and begins local
words of both. If their paths through the adaptive sequence part, it is a beginning of both paths.
Otherwise they are companions, and each of them has the separator of the node that splits them in
the second tree.

## Main definitions

- `SeparatingFamily.Separates`: what a family promises.
- `TestSuiteParts.Fits`: the tables of a test suite fit.

## Main results

- `SeparatingFamily.separates_of_companions`: it is enough to separate companions.
- `SeparatingFamily.ofMatrix_separates`, `SeparatingFamily.ofTree_separates`: both kinds of
  families do so.
- `TestSuiteParts.ofSeeds_eq`: what the parts of a test suite are.
- `TestSuiteParts.ofMachineBounded_separates`: a machine has the parts of a test suite, whose
  suffixes separate its states, exactly if all tables fit.
-/

namespace StateIdentification

/-- Every two states that are separated by some word are separated by a word that begins local words
of both. -/
def SeparatingFamily.Separates (f : SeparatingFamily) (M : Machine) : Prop :=
  ∀ s ∈ M.states, ∀ u ∈ M.states, M.Separable s u →
    ∃ left right, f.get? s = some left ∧ f.get? u = some right ∧
      ∃ v, (∃ x ∈ left.localWords, v <+: x) ∧ (∃ x ∈ right.localWords, v <+: x) ∧
        M.outputs s v ≠ M.outputs u v

variable {M : Machine} {a : AdaptiveSequence} {options : SplittingOptions} {r : SplittingResult}
  {s u : State}

namespace SeparatingFamily

open AdaptiveSequence

/-- A family that starts from the path words of an adaptive sequence separates the states if the
other words separate companions. -/
theorem separates_of_companions (h : a.Describes M) {f : SeparatingFamily}
    (others : State → List Word)
    (hget : ∀ s ∈ M.states, ∃ globalWords, f.get? s =
      some ⟨maximalWords ((a.pathWord? s).toList ++ others s), globalWords⟩)
    (hothers : ∀ s ∈ M.states, ∀ u ∈ M.states, M.Separable s u → s ∈ a.companions s →
      u ∈ a.companions s → a.companions u = a.companions s →
        ∃ v, v ∈ others s ∧ v ∈ others u ∧ M.outputs s v ≠ M.outputs u v) :
    f.Separates M := by
  intro s hs u hu hsep
  obtain ⟨_, hleft⟩ := hget s hs
  obtain ⟨_, hright⟩ := hget u hu
  refine ⟨_, _, hleft, hright, ?_⟩
  rcases h.together_or_told hs hu with
    ⟨leaf, -, hsl, hul, hsin, huin⟩ | ⟨p, q, v, hp, hq, hvp, hvq, hne⟩
  · have hcs := companions_of_leafOf hsl
    have hcu := companions_of_leafOf hul
    obtain ⟨v, hvs, hvu, hne⟩ := hothers s hs u hu hsep (hcs ▸ hsin) (hcs ▸ huin)
      (hcu.trans hcs.symm)
    exact ⟨v, exists_mem_maximalWords (List.mem_append_right _ hvs) (List.prefix_refl v),
      exists_mem_maximalWords (List.mem_append_right _ hvu) (List.prefix_refl v), hne⟩
  · have hmem : p ∈ (a.pathWord? s).toList := by rw [hp]; exact List.mem_singleton_self p
    have hmem' : q ∈ (a.pathWord? u).toList := by rw [hq]; exact List.mem_singleton_self q
    exact ⟨v, exists_mem_maximalWords (List.mem_append_left _ hmem) hvp,
      exists_mem_maximalWords (List.mem_append_left _ hmem') hvq, hne⟩

/-- In a finished tree that admits every split, some node splits two states that are separated by
some word, and its separator separates them. -/
theorem exists_splitting (hr : r.Final M options) (hv : options.checkValidity = false)
    (hs : s ∈ M.states) (hu : u ∈ M.states) (hsep : M.Separable s u) :
    ∃ id, r.tree.Splits id s u ∧
      M.outputs s (r.tree.separator id) ≠ M.outputs u (r.tree.separator id) := by
  rcases hr.divides.together_or_split hs hu with hleaf | ⟨id, hid⟩
  · exact absurd ((hr.together_iff hv hs hu).mp hleaf) (Machine.separable_iff.mp hsep)
  · exact ⟨id, hid, hr.outputs_ne_of_splits hid⟩

/-- The family that takes words from the matrix of such a tree separates the states. -/
theorem ofMatrix_separates (h : a.Describes M) (hr : r.Final M options)
    (hv : options.checkValidity = false) :
    ∃ f, ofMatrix a (.ofTree r.tree) = .ok f ∧ f.Separates M := by
  refine ⟨_, ofMatrix_eq h hr.divides.size_ofTree, ?_⟩
  refine separates_of_companions h (a.entries (.ofTree r.tree)) (fun s hs => ?_) ?_
  · exact ⟨_, get?_map (Machine.mem_states.mp hs)⟩
  · intro s hs u hu hsep hss hus hcompanions
    obtain ⟨id, hid, hout⟩ := exists_splitting hr hv hs hu hsep
    exact ⟨r.tree.separator id, (h.mem_entries_iff hr.divides hs).mpr ⟨u, hus, id, hid, rfl⟩,
      (h.mem_entries_iff hr.divides hu).mpr ⟨s, hcompanions ▸ hss, id, hid.symm, rfl⟩, hout⟩

/-- The family that takes words from such a tree separates the states. -/
theorem ofTree_separates (h : a.Describes M) (hr : r.Final M options)
    (hv : options.checkValidity = false) : (ofTree a r.tree).Separates M := by
  rw [ofTree_eq h hr.divides]
  refine separates_of_companions h (a.treeWords r.tree) (fun s hs => ?_) ?_
  · exact ⟨_, get?_map (Machine.mem_states.mp hs)⟩
  · intro s hs u hu hsep hss hus hcompanions
    obtain ⟨id, hid, hout⟩ := exists_splitting hr hv hs hu hsep
    exact ⟨r.tree.separator id,
      (mem_treeWords_iff hr.divides hs hss).mpr ⟨u, hus, id, hid, rfl⟩,
      (mem_treeWords_iff hr.divides hu (hcompanions ▸ hus)).mpr
        ⟨s, hcompanions ▸ hss, id, hid.symm, rfl⟩, hout⟩

end SeparatingFamily

namespace TestSuiteParts

/-- All tables of a test suite fit. The separators of all pairs of states take more room than any
table with an entry for every state. -/
structure Fits (M : Machine) : Prop where
  pairs : TableFits (M.stateCount * M.stateCount) wordWidth
  tree : ¬ SplittingTree.Exceeds M .hopcroft

theorem Fits.states (h : Fits M) {width : Nat} (hw : width ≤ suffixesWidth) :
    TableFits M.stateCount width := by
  have hpos := M.stateCount_pos
  rcases Nat.lt_or_ge 1 M.stateCount with hseveral | hone
  · have hpairs : M.stateCount * 2 * wordWidth ≤ tableLimit :=
      Nat.le_trans (Nat.mul_le_mul_right _ (Nat.mul_le_mul_left _ hseveral)) h.pairs
    rw [Nat.mul_assoc] at hpairs
    exact TableFits.mono hpairs (Nat.le_refl _) hw
  · obtain hcount : M.stateCount = 1 := by omega
    rw [hcount]
    have hone : TableFits 1 suffixesWidth := by decide
    exact hone.mono (Nat.le_refl _) hw

section Parts

variable [RandomSource]

/-- Both methods start from a sequence that describes an experiment. -/
theorem sequenceFor_describes (M : Machine) (config : TestSuiteConfig) (seed : UInt64) :
    ∃ a complete, sequenceFor M config seed = .ok (a, complete) ∧ a.Describes M := by
  cases hmethod : config.method with
  | pairwise => exact ⟨_, _, by rw [sequenceFor, hmethod], AdaptiveSequence.describes_idle M⟩
  | adaptive =>
    obtain ⟨r, hr, hof⟩ := SplittingTree.ofMachine_final M
      (.withRandomized .leeYannakakis config.randomized) seed
    obtain ⟨a, ha, -, hdesc, -⟩ := AdaptiveSequence.ofTree_describes hr rfl rfl
    have hof : SplittingTree.ofMachine M (.withRandomized .leeYannakakis config.randomized) seed =
      .ok r := hof false
    refine ⟨a, r.complete, ?_, hdesc⟩
    simp only [sequenceFor, hmethod, hof, ha, bind, Except.bind]
    rfl

/-- Whatever the seeds are, there are parts: a sequence that describes an experiment, a finished
tree that admits every split, its matrix, and the family that takes words from this matrix. -/
theorem ofSeeds_eq (M : Machine) (config : TestSuiteConfig)
    (sequenceSeed separationSeed accessSeed : UInt64) :
    ∃ parts, ofSeeds M config sequenceSeed separationSeed accessSeed = .ok parts ∧
      parts.sequence.Describes M ∧
      parts.separation.Final M (.withRandomized .minimalHopcroft config.randomized) ∧
      parts.matrix = .ofTree parts.separation.tree ∧
      SeparatingFamily.ofMatrix parts.sequence parts.matrix = .ok parts.family := by
  obtain ⟨a, complete, hsequence, hdesc⟩ := sequenceFor_describes M config sequenceSeed
  obtain ⟨r, hr, hof⟩ := SplittingTree.ofMachine_final M
    (.withRandomized .minimalHopcroft config.randomized) separationSeed
  obtain ⟨f, hfamily⟩ : ∃ f, SeparatingFamily.ofMatrix a (.ofTree r.tree) = .ok f :=
    ⟨_, SeparatingFamily.ofMatrix_eq hdesc hr.divides.size_ofTree⟩
  have hseparation : SplittingTree.ofMachine M (.withRandomized .minimalHopcroft config.randomized)
    separationSeed = .ok r := hof true
  let parts : TestSuiteParts :=
    { sequence := a, sequenceComplete := complete, separation := r, matrix := .ofTree r.tree,
      family := f, access := .ofMachine M config.randomized .first accessSeed }
  refine ⟨parts, ?_, hdesc, hr, rfl, hfamily⟩
  rw [ofSeeds, hsequence, hseparation]
  simp only [Except.mapError, bind, Except.bind, hfamily]
  rfl

/-- The sequence of a method takes a table of candidates. -/
theorem sequenceForBounded_eq (h : ¬ SplittingTree.Exceeds M .hopcroft) (config : TestSuiteConfig)
    (seed : UInt64) : sequenceForBounded M config seed = do
      requireTable M.stateCount pairWidth
      return sequenceFor M config seed := by
  cases hmethod : config.method with
  | pairwise =>
    simp only [sequenceForBounded, sequenceFor, hmethod, AdaptiveSequence.idleBounded]
    cases requireTable M.stateCount pairWidth <;> rfl
  | adaptive =>
    obtain ⟨r, hr, hof⟩ := SplittingTree.ofMachine_final M
      (.withRandomized .leeYannakakis config.randomized) seed
    have hof : SplittingTree.ofMachine M (.withRandomized .leeYannakakis config.randomized) seed =
      .ok r := hof false
    have hbounded : SplittingTree.ofMachineBounded M
        (.withRandomized .leeYannakakis config.randomized) seed = .ok (.ok r) :=
      hof ▸ SplittingTree.ofMachineBounded_of_not_exceeds (fun exceeds => h exceeds.hopcroft) seed
    simp only [sequenceForBounded, sequenceFor, hmethod, hbounded, hof, bind, Except.bind]
    rw [AdaptiveSequence.ofTreeBounded, hr.divides.stateCount_eq]
    cases requireTable M.stateCount pairWidth <;> cases AdaptiveSequence.ofTree r <;> rfl

/-- The access words take a table of their own. -/
theorem accessBounded_eq (M : Machine) (randomized : Bool) (seed : UInt64) :
    AccessWords.ofMachineBounded M randomized .first seed = do
      requireTable M.stateCount wordWidth
      return .ok (.ofMachine M randomized .first seed) := by
  have hfirst : M.admitsState .first = .ok () := if_pos M.first_mem_states
  rw [AccessWords.ofMachineBounded, hfirst]
  rfl

/-- The parts take one table after the other, once there is a tree. -/
theorem ofSeedsBounded_eq (h : ¬ SplittingTree.Exceeds M .hopcroft) (config : TestSuiteConfig)
    (sequenceSeed separationSeed accessSeed : UInt64) :
    ofSeedsBounded M config sequenceSeed separationSeed accessSeed = do
      requireTable M.stateCount pairWidth
      requireTable M.stateCount wordWidth
      requireTable (M.stateCount * M.stateCount) wordWidth
      requireTable M.stateCount suffixesWidth
      return ofSeeds M config sequenceSeed separationSeed accessSeed := by
  obtain ⟨a, complete, hsequence, hdesc⟩ := sequenceFor_describes M config sequenceSeed
  obtain ⟨r, hr, hof⟩ := SplittingTree.ofMachine_final M
    (.withRandomized .minimalHopcroft config.randomized) separationSeed
  have hseparation : SplittingTree.ofMachine M (.withRandomized .minimalHopcroft config.randomized)
    separationSeed = .ok r := hof true
  have hbounded : SplittingTree.ofMachineBounded M
      (.withRandomized .minimalHopcroft config.randomized) separationSeed = pure (.ok r) :=
    hseparation ▸
      SplittingTree.ofMachineBounded_of_not_exceeds (fun exceeds => h exceeds.hopcroft) _
  have hparts : ofSeeds M config sequenceSeed separationSeed accessSeed =
      ((SeparatingFamily.ofMatrix a (.ofTree r.tree)).mapError TestSuiteError.access).map
        fun family => ⟨a, complete, r, .ofTree r.tree, family,
          .ofMachine M config.randomized .first accessSeed⟩ := by
    rw [ofSeeds, hsequence, hseparation]
    rfl
  simp only [ofSeedsBounded, sequenceForBounded_eq h, hsequence, hbounded, accessBounded_eq,
    suffixesBounded, SeparatingMatrix.ofTreeBounded, SeparatingFamily.ofMatrixBounded, bind_assoc,
    pure_bind, hdesc.stateCount_eq, hr.divides.stateCount_eq, hparts]
  cases SeparatingFamily.ofMatrix a (.ofTree r.tree) <;> rfl

/-- If all tables fit, the parts are those without a limit. -/
theorem ofSeedsBounded_of_fits (h : Fits M) (config : TestSuiteConfig)
    (sequenceSeed separationSeed accessSeed : UInt64) :
    ofSeedsBounded M config sequenceSeed separationSeed accessSeed =
      .ok (ofSeeds M config sequenceSeed separationSeed accessSeed) := by
  have hpairs : TableFits M.stateCount pairWidth := h.states (by decide)
  have hwords : TableFits M.stateCount wordWidth := h.states (by decide)
  rw [ofSeedsBounded_eq h.tree, requireTable_bind_of_fits hpairs, requireTable_bind_of_fits hwords,
    requireTable_bind_of_fits h.pairs, requireTable_bind_of_fits (h.states (Nat.le_refl _))]
  rfl

/-- If a table does not fit, there are no parts. -/
theorem ofSeedsBounded_of_not_fits (h : ¬ Fits M) (config : TestSuiteConfig)
    (sequenceSeed separationSeed accessSeed : UInt64) :
    ∃ overflow, ofSeedsBounded M config sequenceSeed separationSeed accessSeed =
      .error overflow := by
  by_cases exceeds : SplittingTree.Exceeds M .hopcroft
  · rw [ofSeedsBounded]
    cases sequenceForBounded M config sequenceSeed with
    | error overflow => exact ⟨overflow, rfl⟩
    | ok sequence =>
      have hplain : SplittingTree.Exceeds M (.withRandomized .minimalHopcroft config.randomized) :=
        exceeds
      rw [SplittingTree.ofMachineBounded_of_exceeds hplain]
      exact ⟨_, rfl⟩
  · have large : ¬ TableFits (M.stateCount * M.stateCount) wordWidth := fun hpairs =>
      h ⟨hpairs, exceeds⟩
    rw [ofSeedsBounded_eq exceeds]
    by_cases hpairs : TableFits M.stateCount pairWidth
    · rw [requireTable_bind_of_fits hpairs]
      by_cases hwords : TableFits M.stateCount wordWidth
      · rw [requireTable_bind_of_fits hwords, requireTable_bind_of_not_fits large]
        exact ⟨_, rfl⟩
      · rw [requireTable_bind_of_not_fits hwords]
        exact ⟨_, rfl⟩
    · rw [requireTable_bind_of_not_fits hpairs]
      exact ⟨_, rfl⟩

/-- A machine has the parts of a test suite exactly if all tables fit, whatever is chosen. The
suffixes separate all states that some word separates, and so does the family that takes words from
the tree. Otherwise a table is refused, so there is no other error. -/
theorem ofMachineBounded_separates (M : Machine) (config : TestSuiteConfig) :
    ((∃ parts f, ofMachineBounded M config = .ok (.ok parts) ∧ parts.family.Separates M ∧
        SeparatingFamily.ofTreeBounded parts.sequence parts.separation.tree = .ok f ∧
        f.Separates M) ↔ Fits M) ∧
    ((∃ overflow, ofMachineBounded M config = .error overflow) ↔ ¬ Fits M) := by
  have hfits (h : Fits M) : ∃ parts f, ofMachineBounded M config = .ok (.ok parts) ∧
      parts.family.Separates M ∧
      SeparatingFamily.ofTreeBounded parts.sequence parts.separation.tree = .ok f ∧
      f.Separates M := by
    obtain ⟨parts, hparts, hdesc, hr, hmatrix, hfamily⟩ := ofSeeds_eq M config _ _ _
    obtain ⟨f, hf, hsep⟩ := SeparatingFamily.ofMatrix_separates hdesc hr rfl
    rw [hmatrix] at hfamily
    obtain rfl := Except.ok.inj (hf.symm.trans hfamily)
    have hwords : TableFits parts.sequence.stateCount suffixesWidth :=
      hdesc.stateCount_eq ▸ h.states (Nat.le_refl _)
    refine ⟨parts, SeparatingFamily.ofTree parts.sequence parts.separation.tree, ?_, hsep, ?_,
      SeparatingFamily.ofTree_separates hdesc hr rfl⟩
    · exact (ofSeedsBounded_of_fits h config _ _ _).trans (congrArg Except.ok hparts)
    · rw [SeparatingFamily.ofTreeBounded, requireTable_bind_of_fits hwords]
      rfl
  have hrefused (h : ¬ Fits M) : ∃ overflow, ofMachineBounded M config = .error overflow :=
    ofSeedsBounded_of_not_fits h config _ _ _
  refine ⟨⟨fun ⟨parts, f, hparts, _⟩ => ?_, hfits⟩, fun ⟨overflow, hoverflow⟩ h => ?_, hrefused⟩
  · by_contra h
    obtain ⟨overflow, hoverflow⟩ := hrefused h
    exact nomatch hparts.symm.trans hoverflow
  · obtain ⟨parts, f, hparts, -⟩ := hfits h
    exact nomatch hparts.symm.trans hoverflow

end Parts

/-- The two states are separated by a word, but there are no parts of a test suite for them. -/
theorem exists_overflow_farApart : Machine.farApart.Separable ⟨0⟩ ⟨1⟩ ∧
    ∃ overflow, ofMachineBounded .farApart ⟨.pairwise, false, 0⟩ = .error overflow := by
  refine ⟨⟨[⟨0⟩], by decide, by decide⟩, ofSeedsBounded_of_not_fits (fun h => ?_) _ _ _ _⟩
  exact h.tree (SplittingTree.exceeds_farApart .hopcroft)

end TestSuiteParts

end StateIdentification
