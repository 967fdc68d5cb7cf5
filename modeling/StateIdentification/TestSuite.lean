import StateIdentification.AccessWords
import StateIdentification.AdaptiveSequence.Derivation
import StateIdentification.Suffixes.Family

/-!
# The ingredients of a test suite

A test suite for a machine reads an access word to come to a state, and suffixes to confirm that it
is there. Both are made from one seed, from which every construction gets a seed of its own.

## Main definitions

- `SuffixMethod`: where the suffixes come from.
- `TestSuiteConfig`: the choices that can be made.
- `TestSuiteParts`: everything that a test suite is made of.
- `TestSuiteParts.ofSeeds`, `TestSuiteParts.ofMachine`: the parts for a machine.
-/

namespace StateIdentification

/-- Where the suffixes come from. -/
inductive SuffixMethod where
  /-- An adaptive distinguishing sequence, and pairwise separation of the states that it leaves
  together. -/
  | adaptive
  /-- Pairwise separation of all states. -/
  | pairwise
deriving DecidableEq, Repr

/-- The choices for a test suite. -/
structure TestSuiteConfig where
  method : SuffixMethod := .adaptive
  randomized : Bool := false
  seed : UInt64 := 0
deriving DecidableEq, Repr

/-- Access words and suffixes, with the constructions that they come from. -/
structure TestSuiteParts where
  /-- The sequence at the start of all suffixes. -/
  sequence : AdaptiveSequence
  /-- Whether the tree behind the sequence splits all states. -/
  sequenceComplete : Bool
  /-- The tree that separates pairs of states. -/
  separation : SplittingResult
  /-- The separators of all pairs. -/
  matrix : SeparatingMatrix
  /-- The suffixes. -/
  family : SeparatingFamily
  /-- The access words from the first state. -/
  access : AccessWords

/-- Why there are no parts. -/
inductive TestSuiteError where
  | construction (error : ConstructionError)
  | access (error : AccessError)
deriving DecidableEq, Repr

namespace TestSuiteParts

open RandomSource

variable [RandomSource]

/-- The sequence of a method, and whether its tree splits all states. Without a tree it does not. -/
def sequenceFor (M : Machine) (config : TestSuiteConfig) (seed : UInt64) :
    Except ConstructionError (AdaptiveSequence × Bool) :=
  match config.method with
  | .pairwise => .ok (.idle M.stateCount, false)
  | .adaptive => do
    let tree ← SplittingTree.ofMachine M (.withRandomized .leeYannakakis config.randomized) seed
    let sequence ← AdaptiveSequence.ofTree tree
    return (sequence, tree.complete)

/-- The parts for a machine, where every construction has a seed of its own. -/
def ofSeeds (M : Machine) (config : TestSuiteConfig)
    (sequenceSeed separationSeed accessSeed : UInt64) : Except TestSuiteError TestSuiteParts := do
  let (sequence, sequenceComplete) ←
    (sequenceFor M config sequenceSeed).mapError .construction
  let separation ←
    (SplittingTree.ofMachine M (.withRandomized .minimalHopcroft config.randomized)
      separationSeed).mapError .construction
  let matrix := SeparatingMatrix.ofTree separation.tree
  let family ← (SeparatingFamily.ofMatrix sequence matrix).mapError .access
  return {
    sequence, sequenceComplete, separation, matrix, family
    access := .ofMachine M config.randomized .first accessSeed }

/-- The parts for a machine. The seeds of the sequence, of the separating tree and of the access
words are drawn in this order. -/
def ofMachine (M : Machine) (config : TestSuiteConfig) : Except TestSuiteError TestSuiteParts :=
  let (sequenceSeed, g) := next (ofSeed config.seed)
  let (separationSeed, g) := next g
  let (accessSeed, _) := next g
  ofSeeds M config sequenceSeed separationSeed accessSeed

end TestSuiteParts

end StateIdentification
