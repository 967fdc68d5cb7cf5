import StateIdentification.Machine.Draft
import StateIdentification.Partition.Basic

/-!
# Errors of constructions

## Main definitions

- `Violation`: an assumption on which a construction relies does not hold.
- `ConstructionError`: why a construction gives no result.
-/

namespace StateIdentification

/-- An assumption on which a construction relies does not hold. -/
inductive Violation where
  /-- A word that starts with an input and goes on with the separator of the node `oracle` gives all
  states the same last output. -/
  | transferKeepsClass (separator : Word) (oracle : Nat) (states : List State)
  /-- The number of classes of a split differs from the number of children of `oracle` that are
  reached. -/
  | coarseSplit (states : List State) (separator : Word) (classes hit oracle : Nat)
  /-- Refining a block by a separator leaves it as it is. -/
  | refinementKeepsBlock (states : List State) (separator : Word)
  /-- The state that a separator leads to is not known. -/
  | missingSuccessor (state : State) (depth : Nat)
  /-- A separator leads two states with the same outputs to the same state. -/
  | mergingSeparator (separator : Word)
  /-- A node of an adaptive sequence has fewer than two successors. -/
  | fewBranches (node count : Nat)
deriving DecidableEq, Repr

/-- The text of the violation. -/
def Violation.message : Violation → String
  | .transferKeepsClass separator oracle states =>
    "separator " ++ render separator ++ s!" taken from NodeId({oracle}) does not split " ++
      render states
  | .coarseSplit states separator classes hit oracle =>
    "split of " ++ render states ++ " on " ++ render separator ++
      s!" yields {classes} classes, but {hit} children of NodeId({oracle}) are reached"
  | .refinementKeepsBlock states separator =>
    "refining " ++ render states ++ " on " ++ render separator ++ " did not split it"
  | .missingSuccessor state depth =>
    "no successor of " ++ render state ++ s!" cached at depth {depth}"
  | .mergingSeparator separator =>
    "separator " ++ render separator ++ " merges states, the splitting tree has invalid splits"
  | .fewBranches node count =>
    s!"node AdsId({node}) of the adaptive distinguishing sequence has {count} children"

/-- Why a construction gives no result. -/
inductive ConstructionError where
  | invalidMachine (error : MachineError)
  | refinement (error : PartitionError)
  | invariantViolation (violation : Violation)
deriving DecidableEq, Repr

/-- The text of the error. -/
def ConstructionError.message : ConstructionError → String
  | .invalidMachine error => "invalid machine: " ++ error.message
  | .refinement error => "invalid refinement: " ++ error.message
  | .invariantViolation violation => "internal invariant violated: " ++ violation.message

end StateIdentification
