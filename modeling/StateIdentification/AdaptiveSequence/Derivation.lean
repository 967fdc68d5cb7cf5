import StateIdentification.AdaptiveSequence.Basic
import StateIdentification.SplittingTree.Growth

/-!
# Deriving an adaptive distinguishing sequence

A splitting tree with valid splits and recorded successors tells how to distinguish the states. In
every node of the experiment the separator of the lowest node of the tree is applied that holds the
current states together, and the children of that node are the possible outcomes.

## Main definitions

- `AdaptiveSequence.move`, `AdaptiveSequence.advance`: a candidate behind a separator, and the
  candidates that are left in one outcome.
- `AdaptiveSequence.oracleOf`: the node of the tree whose separator is applied to candidates.
- `AdaptiveSequence.expand`: lets the experiment go on in a node.
- `AdaptiveSequence.ofTree`: the experiment that goes on as long as the tree tells how.
-/

namespace StateIdentification.AdaptiveSequence

/-- A candidate moved on by the separator of the node `oracle`, as far as its successor is
recorded. -/
def move (r : SplittingResult) (oracle : Nat) (c : Candidate) :
    Except ConstructionError Candidate :=
  match r.successors.get? (r.tree.depth oracle) c.current with
  | some s => .ok ⟨s, c.initial⟩
  | none => .error (.invariantViolation (.missingSuccessor c.current (r.tree.depth oracle)))

/-- The candidates whose current states are in the child `child` of the node `oracle`, moved on by
the separator of `oracle`. The separator must not lead two of them to the same state. -/
def advance (r : SplittingResult) (oracle : Nat) (cs : List Candidate) (child : Nat) :
    Except ConstructionError (List Candidate) := do
  let moved ← (cs.filter (·.current ∈ r.tree.states child)).mapM (move r oracle)
  let sorted := moved.mergeSort fun c d => c.current ≤ d.current
  if (sorted.map (·.current)).Nodup then return sorted
  else throw (.invariantViolation (.mergingSeparator (r.tree.separator oracle)))

/-- The node of the tree that holds the current states of the candidates together. -/
def oracleOf (t : SplittingTree) (cs : List Candidate) : Nat :=
  (t.lowestCommonAncestor ∅ ((cs.map (·.current)).contains ·)).1

/-- Lets the experiment go on in a node with several candidates, if the tree has a separator for
their current states. Outcomes without candidates are left out. -/
def expand (r : SplittingResult) (a : AdaptiveSequence) (id : Nat) :
    Except ConstructionError AdaptiveSequence :=
  let cs := a.candidates id
  if cs.length < 2 then .ok a
  else
    let oracle := oracleOf r.tree cs
    if r.tree.isLeaf oracle then .ok a
    else do
      let outcomes ← (r.tree.children oracle).mapM (advance r oracle cs)
      let left := outcomes.filter (!·.isEmpty)
      if left.length < 2 then throw (.invariantViolation (.fewBranches id left.length))
      return a.grow id ({ · with word := r.tree.separator oracle }) (left.map (⟨·, []⟩))

/-- Expands the nodes from `id` on in order of creation, at most `steps` of them. -/
def expandFrom (r : SplittingResult) :
    Nat → Nat → AdaptiveSequence → Except ConstructionError AdaptiveSequence
  | 0, _, a => .ok a
  | steps + 1, id, a => if id < a.size then expand r a id >>= expandFrom r steps (id + 1) else .ok a

/-- The experiment that a splitting tree describes. An expansion divides the candidates of a node
among at least two children, so there are less than twice as many nodes as states. -/
def ofTree (r : SplittingResult) : Except ConstructionError AdaptiveSequence :=
  expandFrom r (2 * r.tree.stateCount) Arena.root (idle r.tree.stateCount)

end StateIdentification.AdaptiveSequence
