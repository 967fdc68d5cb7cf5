import StateIdentification.Proofs.SequenceSoundness
import StateIdentification.Proofs.SuffixFamilies

/-!
# Equivalent states have the same suffixes

An experiment ends in the same leaf for states that answer every word alike, and so does the way
down in a tree that admits every split. A node of this tree that splits one of them from a third
state splits the other one from it, too. Hence they have the same companions, the same words in the
matrix, and the same words in the family, although each of them meets the other one there and not
itself.

## Main results

- `AdaptiveSequence.Describes.leafOf?_eq_of_equivalent`: where experiments end.
- `SplittingTree.Divides.wordOf_eq_of_leaf`: the rows of a matrix.
- `AdaptiveSequence.Describes.mem_entries_congr`: the words from a matrix.
- `TestSuiteParts.ofMachine_equivalent`: the suffixes for a machine.
-/

namespace StateIdentification

variable {M : Machine} {a : AdaptiveSequence} {t : SplittingTree} {s u : State}

namespace AdaptiveSequence.Describes

theorem known_wordAbove (h : a.Describes M) (id : Nat) : ∀ i ∈ a.wordAbove id, i ∈ M.inputs := by
  intro i hi
  obtain ⟨_, -, hi⟩ := List.mem_flatMap.mp hi
  exact h.known i hi

/-- The experiment ends for equivalent states in the same leaf. -/
theorem leafOf?_eq_of_equivalent (h : a.Describes M) (hs : s ∈ M.states) (hu : u ∈ M.states)
    (heq : M.Equivalent s u) : a.leafOf? s = a.leafOf? u := by
  obtain ⟨leaf, -, -, hword, -⟩ := h.exists_ending hs
  exact ((h.outputs_eq_iff hs hu hword).mp (heq _ (h.known_wordAbove leaf)).symm).symm

/-- The experiment applies the same word from states for which it ends in the same leaf. -/
theorem pathWord?_eq_of_leafOf?_eq (h : a.Describes M) (hs : s ∈ M.states) (hu : u ∈ M.states)
    (heq : a.leafOf? s = a.leafOf? u) : a.pathWord? s = a.pathWord? u := by
  obtain ⟨leaf, -, hof, hword, -⟩ := h.exists_ending hs
  obtain ⟨other, -, hof', hword', -⟩ := h.exists_ending hu
  obtain rfl : leaf = other := Option.some.inj (hof.symm.trans (heq.trans hof'))
  rw [hword, hword']

end AdaptiveSequence.Describes

namespace SplittingTree.Divides

/-- States of one leaf have the same words in the matrix. -/
theorem wordOf_eq_of_leaf (h : t.Divides M) {leaf : Nat} (hleaf : leaf ∈ t.leaves)
    (hs : s ∈ t.states leaf) (hu : u ∈ t.states leaf) {x : State} (hx : x ∈ M.states) :
    (SeparatingMatrix.ofTree t).wordOf s x = (SeparatingMatrix.ofTree t).wordOf u x := by
  have hsm := h.mem_states (Arena.mem_leaves.mp hleaf).1 hs
  rcases h.together_or_split hsm hx with ⟨other, hother, hso, hxo⟩ | ⟨id, hid⟩
  · obtain rfl := h.leaf_unique hother hleaf hso hs
    rw [h.wordOf_of_leaf hother hso hxo, h.wordOf_of_leaf hother hu hxo]
  · rw [h.wordOf_of_splits hx hid, h.wordOf_of_splits hx (h.splits_of_leaf hleaf hs hu hid)]

end SplittingTree.Divides

/-- Companions of one leaf of the tree get the same words from its matrix. -/
theorem AdaptiveSequence.Describes.mem_entries_congr (h : a.Describes M) (ht : t.Divides M)
    {leaf : Nat} (hleaf : leaf ∈ t.leaves) (hs : s ∈ t.states leaf) (hu : u ∈ t.states leaf)
    (heq : a.companions s = a.companions u) {w : Word} :
    w ∈ a.entries (.ofTree t) s ↔ w ∈ a.entries (.ofTree t) u := by
  have hsize := (Arena.mem_leaves.mp hleaf).1
  rw [h.mem_entries_iff ht (ht.mem_states hsize hs), h.mem_entries_iff ht (ht.mem_states hsize hu),
    heq]
  have congr (x : State) (id : Nat) : t.Splits id s x ↔ t.Splits id u x :=
    ⟨ht.splits_of_leaf hleaf hs hu, ht.splits_of_leaf hleaf hu hs⟩
  simp only [congr]

namespace SeparatingFamily

/-- The suffixes of a state depend on the set of its words, not on their order and number. -/
theorem suffixes_congr {path ws ws' all : List Word} (h : ∀ w, w ∈ ws ↔ w ∈ ws') :
    (⟨maximalWords (path ++ ws),
      maximalWords (if ws.isEmpty then path ++ ws else path ++ ws ++ all)⟩ : Suffixes) =
    ⟨maximalWords (path ++ ws'),
      maximalWords (if ws'.isEmpty then path ++ ws' else path ++ ws' ++ all)⟩ := by
  have hnil : ws = [] ↔ ws' = [] := by simp only [List.eq_nil_iff_forall_not_mem, h]
  have own : maximalWords (path ++ ws) = maximalWords (path ++ ws') :=
    maximalWords_congr fun w => by simp only [List.mem_append, h]
  simp only [List.isEmpty_iff, hnil, own, Suffixes.mk.injEq, true_and]
  split
  · exact own
  · exact maximalWords_congr fun w => by simp only [List.mem_append, h]

/-- Companions of one leaf of the tree have the same words in the family that takes words from its
matrix. -/
theorem get?_eq_of_leaf (h : a.Describes M) (ht : t.Divides M) {f : SeparatingFamily}
    (hf : ofMatrix a (.ofTree t) = .ok f) {leaf : Nat} (hleaf : leaf ∈ t.leaves)
    (hs : s ∈ t.states leaf) (hu : u ∈ t.states leaf) (heq : a.leafOf? s = a.leafOf? u) :
    ∃ member, f.get? s = some member ∧ f.get? u = some member := by
  have hsize := (Arena.mem_leaves.mp hleaf).1
  have hsm := ht.mem_states hsize hs
  have hum := ht.mem_states hsize hu
  have hpath := h.pathWord?_eq_of_leafOf?_eq hsm hum heq
  have hcompanions : a.companions s = a.companions u := by
    rw [AdaptiveSequence.companions, AdaptiveSequence.companions, heq]
  obtain rfl := Except.ok.inj ((ofMatrix_eq h ht.size_ofTree).symm.trans hf)
  refine ⟨_, get?_map (Machine.mem_states.mp hsm), ?_⟩
  refine (get?_map (Machine.mem_states.mp hum)).trans (congrArg some ?_)
  rw [hpath]
  exact suffixes_congr fun w => h.mem_entries_congr ht hleaf hu hs hcompanions.symm

end SeparatingFamily

/-- In the parts of a test suite, states that answer every word alike have the same leaf of the
adaptive sequence. Their pair has no word in the matrix, they have the same word with every state,
and the family has the same local and global words for both. -/
theorem TestSuiteParts.ofMachine_equivalent [RandomSource] (M : Machine)
    (config : TestSuiteConfig) :
    ∃ parts, ofMachine M config = .ok parts ∧
      ∀ s ∈ M.states, ∀ u ∈ M.states, M.Equivalent s u →
        (∃ leaf, parts.sequence.leafOf? s = some leaf ∧ parts.sequence.leafOf? u = some leaf) ∧
        parts.matrix.get s u = .ok [] ∧
        (∀ x ∈ M.states, ∃ w, parts.matrix.get s x = .ok w ∧ parts.matrix.get u x = .ok w) ∧
        ∃ member, parts.family.get? s = some member ∧ parts.family.get? u = some member := by
  obtain ⟨parts, hparts, hdesc, hr, hmatrix, hfamily⟩ := ofSeeds_eq M config _ _ _
  refine ⟨parts, hparts, fun s hs u hu heq => ?_⟩
  rw [hmatrix] at hfamily ⊢
  have ht := hr.divides
  obtain ⟨leaf, hleaf, hsl, hul⟩ := (hr.together_iff rfl hs hu).mpr heq
  have hsame := hdesc.leafOf?_eq_of_equivalent hs hu heq
  have get_eq {x y : State} (hx : x ∈ M.states) (hy : y ∈ M.states) :=
    SeparatingMatrix.get_eq (ht.size_ofTree ▸ Machine.mem_states.mp hx)
      (ht.size_ofTree ▸ Machine.mem_states.mp hy)
  refine ⟨?_, ?_, fun x hx => ?_, ?_⟩
  · obtain ⟨other, -, hof, -⟩ := hdesc.exists_leafOf hs
    exact ⟨other, hof, hsame ▸ hof⟩
  · rw [get_eq hs hu, ht.wordOf_of_leaf hleaf hsl hul]
  · exact ⟨_, get_eq hs hx, by rw [get_eq hu hx, ht.wordOf_eq_of_leaf hleaf hsl hul hx]⟩
  · exact SeparatingFamily.get?_eq_of_leaf hdesc ht hfamily hleaf hsl hul hsame

end StateIdentification
