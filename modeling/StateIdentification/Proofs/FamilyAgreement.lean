import StateIdentification.Proofs.GatheredWords
import StateIdentification.Proofs.MaximalWords

/-!
# Both kinds of separating families have the same local words

A separating matrix has the word of every pair of states at hand, while a splitting tree is walked
down with marks. Both give a state the separators of the nodes that split it from its companions.
In which order and how often they do so makes no difference, as the words of a trie are sorted.

## Main definitions

- `AdaptiveSequence.IsFor`: the adaptive sequences that are made for a machine.

## Main results

- `AdaptiveSequence.IsFor.describes`: they describe experiments on the machine.
- `SeparatingFamily.ofMatrix_localWords_eq`: the local words of both families.
-/

namespace StateIdentification

variable {M : Machine} {a : AdaptiveSequence} {t : SplittingTree} {s : State}

namespace AdaptiveSequence

/-- The adaptive sequences for a machine: the one that applies nothing, and those that are derived
from its splitting trees. -/
inductive IsFor [RandomSource] (M : Machine) : AdaptiveSequence → Prop where
  | idle : IsFor M (idle M.stateCount)
  | ofTree {options : SplittingOptions} {seed : UInt64} {r : SplittingResult}
      {a : AdaptiveSequence} (built : SplittingTree.ofMachine M options seed = .ok r)
      (derived : AdaptiveSequence.ofTree r = .ok a) : IsFor M a

theorem IsFor.describes [RandomSource] (h : a.IsFor M) : a.Describes M := by
  cases h with
  | idle => exact describes_idle M
  | ofTree built derived =>
    exact (describes_of_ofTree (SplittingTree.final_of_ofMachine built) derived).1

end AdaptiveSequence

namespace SeparatingFamily

/-- A state has the same maximal words, whether separators come from the tree or from its matrix. -/
theorem maximalWords_entries_eq (h : a.Describes M) (ht : t.Divides M) (hs : s ∈ M.states)
    (ws : List Word) :
    maximalWords (ws ++ a.entries (.ofTree t) s) = maximalWords (ws ++ a.treeWords t s) := by
  refine maximalWords_congr fun w => ?_
  rw [List.mem_append, List.mem_append, h.mem_entries_iff ht hs,
    AdaptiveSequence.mem_treeWords_iff ht hs (h.companions_spec hs).1]

/-- For every adaptive sequence and every splitting tree of a machine, the family that takes words
from the separating matrix of the tree and the one that takes words from the tree itself have the
same local words for every state. -/
theorem ofMatrix_localWords_eq [RandomSource] (M : Machine) (options : SplittingOptions)
    (seed : UInt64) :
    ∃ r, SplittingTree.ofMachine M options seed = .ok r ∧
      ∀ a : AdaptiveSequence, a.IsFor M →
        ∃ f, ofMatrix a (.ofTree r.tree) = .ok f ∧
          ∀ s ∈ M.states, ∃ left right, f.get? s = some left ∧
            (ofTree a r.tree).get? s = some right ∧ left.localWords = right.localWords := by
  obtain ⟨r, hr, hof⟩ := SplittingTree.ofMachine_final M options seed
  refine ⟨r, hof options.checkFineness, fun a ha => ?_⟩
  have hdesc := ha.describes
  refine ⟨_, ofMatrix_eq hdesc hr.divides.size_ofTree, fun s hs => ?_⟩
  have hlt := Machine.mem_states.mp hs
  rw [ofTree_eq hdesc hr.divides]
  exact ⟨_, _, get?_map hlt, get?_map hlt, maximalWords_entries_eq hdesc hr.divides hs _⟩

end SeparatingFamily

end StateIdentification
