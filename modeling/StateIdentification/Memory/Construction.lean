import StateIdentification.Memory.Growth
import StateIdentification.TestSuite

/-!
# Constructions within the table limit

Constructions for a machine keep tables with an entry for every state, and the separating matrix has
one with an entry for every two states. Whatever is built in several steps stops at the first table
that does not fit.

## Main definitions

- `SplittingResult.singleBounded`: one leaf for all states.
- `AdaptiveSequence.idleBounded`, `AdaptiveSequence.ofTreeBounded`: adaptive sequences.
- `SeparatingMatrix.ofTreeBounded`, `SeparatingFamily.ofMatrixBounded`,
  `SeparatingFamily.ofTreeBounded`: separators of pairs, and words of states.
- `AccessWords.ofMachineBounded`: access words.
- `TestSuiteParts.ofMachineBounded`: everything that a test suite is made of.
-/

namespace StateIdentification

/-- The width of the words of a state in bytes: a list of local words, and one of global words. -/
def suffixesWidth : Nat := 2 * wordWidth

/-- The result for one leaf that nobody tried to split, if its states fit into a table. -/
def SplittingResult.singleBounded (size : Nat) : Except TableOverflow SplittingResult := do
  requireTable size numberWidth
  return single size

/-- The experiment that applies nothing, if its candidates fit into a table. -/
def AdaptiveSequence.idleBounded (size : Nat) : Except TableOverflow AdaptiveSequence := do
  requireTable size pairWidth
  return idle size

/-- The experiment that is derived from a tree, if its candidates fit into a table. -/
def AdaptiveSequence.ofTreeBounded (r : SplittingResult) :
    Except TableOverflow (Except ConstructionError AdaptiveSequence) := do
  requireTable r.tree.stateCount pairWidth
  return ofTree r

/-- The separators of all pairs of states, if they fit into a table. Their number is not reduced to
a word, since a table without a place for every pair could not be filled and read either. -/
def SeparatingMatrix.ofTreeBounded (t : SplittingTree) : Except TableOverflow SeparatingMatrix := do
  requireTable (t.stateCount * t.stateCount) wordWidth
  return ofTree t

/-- The family that takes words from a matrix, if the words of all states fit into a table. -/
def SeparatingFamily.ofMatrixBounded (a : AdaptiveSequence) (m : SeparatingMatrix) :
    Except TableOverflow (Except AccessError SeparatingFamily) := do
  requireTable a.stateCount suffixesWidth
  return ofMatrix a m

/-- The family that takes words from a tree, if the words of all states fit into a table. -/
def SeparatingFamily.ofTreeBounded (a : AdaptiveSequence) (t : SplittingTree) :
    Except TableOverflow SeparatingFamily := do
  requireTable a.stateCount suffixesWidth
  return ofTree a t

variable [RandomSource]

/-- The access words from a state of the machine, if they fit into a table. -/
def AccessWords.ofMachineBounded (M : Machine) (randomized : Bool) (origin : State)
    (seed : UInt64) : Except TableOverflow (Except AccessError AccessWords) := do
  requireTable M.stateCount wordWidth
  return M.admitsState origin |>.map fun _ => ofMachine M randomized origin seed

namespace TestSuiteParts

open RandomSource

/-- The sequence of a method, and whether its tree splits all states, if all tables fit. -/
def sequenceForBounded (M : Machine) (config : TestSuiteConfig) (seed : UInt64) :
    Except TableOverflow (Except ConstructionError (AdaptiveSequence × Bool)) :=
  match config.method with
  | .pairwise => do
    let sequence ← AdaptiveSequence.idleBounded M.stateCount
    return .ok (sequence, false)
  | .adaptive => do
    match ← SplittingTree.ofMachineBounded M
        (.withRandomized .leeYannakakis config.randomized) seed with
    | .error e => return .error e
    | .ok tree =>
      let sequence ← AdaptiveSequence.ofTreeBounded tree
      return sequence.map (·, tree.complete)

/-- The suffixes for a sequence and a tree that separates pairs, together with the separators of
all pairs, if all tables fit. -/
def suffixesBounded (sequence : AdaptiveSequence) (tree : SplittingTree) :
    Except TableOverflow (Except AccessError (SeparatingMatrix × SeparatingFamily)) := do
  let matrix ← SeparatingMatrix.ofTreeBounded tree
  let family ← SeparatingFamily.ofMatrixBounded sequence matrix
  return family.map (matrix, ·)

/-- The parts for a machine, where every construction has a seed of its own, if all tables fit. -/
def ofSeedsBounded (M : Machine) (config : TestSuiteConfig)
    (sequenceSeed separationSeed accessSeed : UInt64) :
    Except TableOverflow (Except TestSuiteError TestSuiteParts) := do
  let sequence ← sequenceForBounded M config sequenceSeed
  let separation ← SplittingTree.ofMachineBounded M
    (.withRandomized .minimalHopcroft config.randomized) separationSeed
  let access ← AccessWords.ofMachineBounded M config.randomized .first accessSeed
  match sequence, separation, access with
  | .error e, _, _ => return .error (.construction e)
  | .ok _, .error e, _ => return .error (.construction e)
  | .ok _, .ok _, .error e => return .error (.access e)
  | .ok (sequence, sequenceComplete), .ok separation, .ok access =>
    let suffixes ← suffixesBounded sequence separation.tree
    return suffixes.mapError .access |>.map fun (matrix, family) =>
      { sequence, sequenceComplete, separation, matrix, family, access }

/-- The parts for a machine, if all tables fit. -/
def ofMachineBounded (M : Machine) (config : TestSuiteConfig) :
    Except TableOverflow (Except TestSuiteError TestSuiteParts) :=
  let (sequenceSeed, g) := next (ofSeed config.seed)
  let (separationSeed, g) := next g
  let (accessSeed, _) := next g
  ofSeedsBounded M config sequenceSeed separationSeed accessSeed

end TestSuiteParts

end StateIdentification
