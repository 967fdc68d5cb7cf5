import Mathlib.Data.Set.Lattice
import StateIdentification.Proofs.FamilyAgreement
import StateIdentification.Proofs.SequenceSoundness

/-!
# What a separating family lists

For every state, a family that takes words from a separating matrix starts from the word that the
adaptive sequence applies, and adds the words for the state and the others of its leaf. The local
words are the maximal ones of these. If words had to be added, the global words come from those of
all states as well.

## Main definitions

- `AdaptiveSequence.pairWords`: the words for a state and the others of its leaf.
- `AdaptiveSequence.ownWords`, `AdaptiveSequence.widerWords`: the words from which local and global
  words are taken.
- `ListsMaximal`: a list has the maximal words of a set in order.
- `PrefixFree`: no word of a list begins another one.

## Main results

- `AdaptiveSequence.Describes.mem_companions_iff`: companions are the states with the same leaf.
- `listsMaximal_maximalWords`: what the words of a trie list.
- `SeparatingFamily.ofMatrix_contents`: the local and global words of every state.
-/

namespace StateIdentification

variable {M : Machine} {a : AdaptiveSequence} {m : SeparatingMatrix} {s u : State} {leaf : Nat}
  {p v w : Word}

namespace AdaptiveSequence

/-- The words of a matrix for a state and another one that ends in the same leaf of the sequence,
without the empty word. -/
def pairWords (a : AdaptiveSequence) (m : SeparatingMatrix) (s : State) : Set Word :=
  {w | w ≠ [] ∧ ∃ u leaf, u ≠ s ∧ a.leafOf? s = some leaf ∧ a.leafOf? u = some leaf ∧
    m.get s u = .ok w}

/-- The word that a sequence applies from a state, and the words that the state gets from a
matrix. -/
def ownWords (a : AdaptiveSequence) (m : SeparatingMatrix) (s : State) : List Word :=
  (a.pathWord? s).toList ++ a.entries m s

/-- The same words, and those that all states get if this one gets any. -/
def widerWords (a : AdaptiveSequence) (M : Machine) (m : SeparatingMatrix) (s : State) :
    List Word :=
  if (a.entries m s).isEmpty then a.ownWords m s
  else a.ownWords m s ++ (Trie.ofList (M.states.map (a.entries m)).flatten).words

theorem ownWords_subset (a : AdaptiveSequence) (M : Machine) (m : SeparatingMatrix) (s : State) :
    a.ownWords m s ⊆ a.widerWords M m s := by
  unfold widerWords
  split
  · exact List.Subset.refl _
  · exact List.subset_append_left _ _

namespace Describes

/-- The initial states of the leaf in which a state ends are those that end there. -/
theorem mem_initials_iff (h : a.Describes M) (hs : s ∈ M.states) (hof : a.leafOf? s = some leaf) :
    u ∈ a.initials leaf ↔ a.leafOf? u = some leaf := by
  obtain ⟨found, hleaf, hfound, hword, hmem⟩ := h.exists_ending hs
  obtain rfl : found = leaf := Option.some.inj (hfound.symm.trans hof)
  have hlt := (Arena.mem_leaves.mp hleaf).1
  constructor
  · intro hu
    obtain ⟨y, hy, rfl⟩ := List.mem_map.mp hu
    have hinitial := (h.mem_states hlt hy).2
    have halike : M.outputs y.initial (a.wordAbove found) = M.outputs s (a.wordAbove found) :=
      h.outputs_wordAbove_eq hlt hy hmem
    exact ((h.outputs_eq_iff hs hinitial hword).mp halike).trans hof
  · intro hu
    have hstate : u ∈ M.states := by
      by_contra hu'
      simp [leafOf?, h.trail?_eq_none hu'] at hu
    obtain ⟨other, -, hother, hin⟩ := h.exists_leafOf hstate
    obtain rfl : other = found := Option.some.inj (hother.symm.trans hu)
    exact hin

/-- The companions of a state are the states that end in the same leaf. -/
theorem mem_companions_iff (h : a.Describes M) (hs : s ∈ M.states) :
    u ∈ a.companions s ↔ ∃ leaf, a.leafOf? s = some leaf ∧ a.leafOf? u = some leaf := by
  obtain ⟨leaf, -, hof, -⟩ := h.exists_leafOf hs
  rw [companions_of_leafOf hof, h.mem_initials_iff hs hof]
  constructor
  · intro hu
    exact ⟨leaf, hof, hu⟩
  · rintro ⟨other, hother, hu⟩
    exact hu.trans (hother.symm.trans hof)

/-- From a matrix a state gets the words for itself and the others of its leaf. -/
theorem mem_entries_iff_mem_pairWords (h : a.Describes M) (hm : m.size = M.stateCount)
    (hs : s ∈ M.states) : w ∈ a.entries m s ↔ w ∈ a.pairWords m s := by
  have hget {u : State} (hu : u ∈ a.companions s) : m.get s u = .ok (m.wordOf s u) := by
    have hstate := (h.companions_spec hs).2 u hu
    apply SeparatingMatrix.get_eq
    · exact hm ▸ Machine.mem_states.mp hs
    · exact hm ▸ Machine.mem_states.mp hstate
  rw [mem_entries]
  constructor
  · rintro ⟨u, hu, hne, rfl, hword⟩
    obtain ⟨leaf, hof, hof'⟩ := (h.mem_companions_iff hs).mp hu
    exact ⟨hword, u, leaf, hne, hof, hof', hget hu⟩
  · rintro ⟨hword, u, leaf, hne, hof, hof', heq⟩
    have hu := (h.mem_companions_iff hs).mpr ⟨leaf, hof, hof'⟩
    exact ⟨u, hu, hne, Except.ok.inj ((hget hu).symm.trans heq), hword⟩

/-- The words from which the local ones of a state are taken. -/
theorem mem_ownWords_iff (h : a.Describes M) (hm : m.size = M.stateCount) (hs : s ∈ M.states)
    (hp : a.pathWord? s = some p) : w ∈ a.ownWords m s ↔ w ∈ insert p (a.pairWords m s) := by
  rw [ownWords, hp, Option.toList_some, List.mem_append, List.mem_singleton, Set.mem_insert_iff,
    h.mem_entries_iff_mem_pairWords hm hs]

/-- The words that the states get from a matrix. -/
theorem mem_all_iff (h : a.Describes M) (hm : m.size = M.stateCount) :
    w ∈ (Trie.ofList (M.states.map (a.entries m)).flatten).words ↔
      w ∈ ⋃ u ∈ M.states, a.pairWords m u := by
  rw [Trie.mem_words_ofList, ← List.flatMap_def, List.mem_flatMap, Set.mem_iUnion₂]
  constructor
  · rintro ⟨u, hu, hw⟩
    exact ⟨u, hu, (h.mem_entries_iff_mem_pairWords hm hu).mp hw⟩
  · rintro ⟨u, hu, hw⟩
    exact ⟨u, hu, (h.mem_entries_iff_mem_pairWords hm hu).mpr hw⟩

theorem isEmpty_entries_iff (h : a.Describes M) (hm : m.size = M.stateCount) (hs : s ∈ M.states) :
    (a.entries m s).isEmpty ↔ a.pairWords m s = ∅ := by
  rw [List.isEmpty_iff, List.eq_nil_iff_forall_not_mem, Set.eq_empty_iff_forall_notMem]
  exact forall_congr' fun w => not_congr (h.mem_entries_iff_mem_pairWords hm hs)

/-- The words from which the global ones of a state are taken, if it has words for others. -/
theorem mem_widerWords_iff (h : a.Describes M) (hm : m.size = M.stateCount) (hs : s ∈ M.states)
    (hp : a.pathWord? s = some p) (hsome : (a.pairWords m s).Nonempty) :
    w ∈ a.widerWords M m s ↔
      w ∈ insert p (a.pairWords m s) ∪ ⋃ u ∈ M.states, a.pairWords m u := by
  have hentries : ¬ (a.entries m s).isEmpty := by
    rw [h.isEmpty_entries_iff hm hs]
    exact hsome.ne_empty
  rw [widerWords, if_neg hentries, List.mem_append, Set.mem_union, h.mem_ownWords_iff hm hs hp,
    h.mem_all_iff hm]

/-- They are those of the local ones, if it has none. -/
theorem widerWords_eq (h : a.Describes M) (hm : m.size = M.stateCount) (hs : s ∈ M.states)
    (hnone : a.pairWords m s = ∅) : a.widerWords M m s = a.ownWords m s := by
  rw [widerWords, if_pos ((h.isEmpty_entries_iff hm hs).mpr hnone)]

end Describes

end AdaptiveSequence

/-- The list has the words of a set that are no proper beginning of another one, in strictly
ascending lexicographic order. -/
structure ListsMaximal (ws : List Word) (words : Set Word) : Prop where
  ascending : ws.Pairwise (compare · · = .lt)
  mem_iff : ∀ v, v ∈ ws ↔ v ∈ words ∧ ∀ w ∈ words, v <+: w → v = w

/-- No word of the list begins another one. -/
def PrefixFree (ws : List Word) : Prop := ∀ v ∈ ws, ∀ w ∈ ws, v <+: w → v = w

theorem ListsMaximal.prefixFree {ws : List Word} {words : Set Word} (h : ListsMaximal ws words) :
    PrefixFree ws := by
  intro v hv w hw hp
  obtain ⟨-, hmax⟩ := (h.mem_iff v).mp hv
  exact hmax w ((h.mem_iff w).mp hw).1 hp

/-- The maximal ones of some words are those of the set of these words. -/
theorem listsMaximal_maximalWords {ws : List Word} {words : Set Word}
    (h : ∀ {w}, w ∈ ws ↔ w ∈ words) : ListsMaximal (maximalWords ws) words where
  ascending := maximalWords_ascending ws
  mem_iff v := by
    rw [mem_maximalWords_iff]
    simp only [h]

theorem prefixFree_maximalWords (ws : List Word) : PrefixFree (maximalWords ws) := by
  have h : ListsMaximal (maximalWords ws) {w | w ∈ ws} := listsMaximal_maximalWords Iff.rfl
  exact h.prefixFree

namespace SeparatingFamily

/-- The family that takes words from a matrix lists the maximal ones for every state. -/
theorem exists_ofMatrix (h : a.Describes M) (hm : m.size = M.stateCount) :
    ∃ f, ofMatrix a m = .ok f ∧ f.size = M.stateCount ∧ ∀ s ∈ M.states,
      f.get? s = some ⟨maximalWords (a.ownWords m s), maximalWords (a.widerWords M m s)⟩ := by
  refine ⟨_, ofMatrix_eq h hm, ?_, fun s hs => get?_map (Machine.mem_states.mp hs)⟩
  rw [size, List.length_map, Machine.states, Handle.length_range]

/-- For every adaptive sequence of a machine and the matrix of every splitting tree, the local words
of a state are the maximal ones among its path word and the words for the state and the others of
its leaf. The global words are the same if there are no such others with a word, and otherwise those
of all states are added. So no list is empty or has a word that begins another one, and every local
word begins a global one. -/
theorem ofMatrix_contents [RandomSource] (M : Machine) (options : SplittingOptions)
    (seed : UInt64) :
    ∃ r, SplittingTree.ofMachine M options seed = .ok r ∧
      ∀ a : AdaptiveSequence, a.IsFor M →
        let m := SeparatingMatrix.ofTree r.tree
        let all := ⋃ u ∈ M.states, a.pairWords m u
        ∃ f, ofMatrix a m = .ok f ∧ f.size = M.stateCount ∧
          ∀ s ∈ M.states, ∃ p member, a.pathWord? s = some p ∧ f.get? s = some member ∧
            let own := insert p (a.pairWords m s)
            ListsMaximal member.localWords own ∧
            ((a.pairWords m s).Nonempty → ListsMaximal member.globalWords (own ∪ all)) ∧
            (a.pairWords m s = ∅ → ListsMaximal member.globalWords own) ∧
            member.localWords ≠ [] ∧ member.globalWords ≠ [] ∧
            PrefixFree member.localWords ∧ PrefixFree member.globalWords ∧
            ∀ v ∈ member.localWords, ∃ w ∈ member.globalWords, v <+: w := by
  obtain ⟨r, hr, hof⟩ := SplittingTree.ofMachine_final M options seed
  refine ⟨r, hof options.checkFineness, fun a ha => ?_⟩
  intro m all
  have h := ha.describes
  have hm : m.size = M.stateCount := hr.divides.size_ofTree
  obtain ⟨f, hf, hsize, hget⟩ := exists_ofMatrix h hm
  refine ⟨f, hf, hsize, fun s hs => ?_⟩
  obtain ⟨leaf, -, -, hp, -⟩ := h.exists_ending hs
  have hown {w : Word} :
      w ∈ a.ownWords m s ↔ w ∈ insert (a.wordAbove leaf) (a.pairWords m s) :=
    h.mem_ownWords_iff hm hs hp
  have hpath : a.wordAbove leaf ∈ a.ownWords m s := hown.mpr (Set.mem_insert _ _)
  have hsub := a.ownWords_subset M m s
  refine ⟨_, _, hp, hget s hs, listsMaximal_maximalWords hown, ?_, ?_, maximalWords_ne_nil hpath,
    maximalWords_ne_nil (hsub hpath), prefixFree_maximalWords _, prefixFree_maximalWords _, ?_⟩
  · intro hsome
    exact listsMaximal_maximalWords (h.mem_widerWords_iff hm hs hp hsome)
  · intro hnone
    rw [h.widerWords_eq hm hs hnone]
    exact listsMaximal_maximalWords hown
  · intro v hv
    exact exists_prefix_maximalWords hsub hv

end SeparatingFamily

end StateIdentification
