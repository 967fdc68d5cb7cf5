/-!
# Options for splitting trees

## Main definitions

- `SplittingOptions`: which splits are taken and what is recorded.
- `SplittingOptions.leeYannakakis`, `SplittingOptions.hopcroft`, …: the usual choices.
-/

namespace StateIdentification

/-- How a splitting tree is built. -/
structure SplittingOptions where
  /-- Takes a split only if its first input does not merge two states of one class. -/
  checkValidity : Bool
  /-- Records the states that the separators lead to. -/
  recordSuccessors : Bool
  /-- Tries the inputs in random order for every node. -/
  randomized : Bool
  /-- Checks that a split is as fine as the node allows whose separator it uses. -/
  checkFineness : Bool
deriving DecidableEq, Repr

namespace SplittingOptions

/-- No checks, nothing recorded, ascending inputs. -/
def plain : SplittingOptions := ⟨false, false, false, false⟩

/-- The same choice with or without random order. -/
def withRandomized (o : SplittingOptions) (randomized : Bool) : SplittingOptions :=
  { o with randomized }

/-- Valid splits whose successors are recorded, as an adaptive distinguishing sequence needs
them. -/
def leeYannakakis : SplittingOptions :=
  { plain with checkValidity := true, recordSuccessors := true }

/-- Any split is taken, which is enough to separate all pairs of states. -/
def hopcroft : SplittingOptions := plain

/-- Any split is taken, and its fineness is checked. -/
def minimalHopcroft : SplittingOptions := { hopcroft with checkFineness := true }

end SplittingOptions

end StateIdentification
