import StateIdentification.Machine.Draft
import StateIdentification.Machine.Reachability
import StateIdentification.SplittingTree.Growth

/-!
# Random machines

## Main definitions

- `Machine.random`: a machine whose outputs and targets are drawn at random.
- `Machine.randomMinimal`: draws machines until one is connected and minimal.
-/

namespace StateIdentification.Machine

open RandomSource

/-- The states and inputs of a machine, state by state. -/
def slots (states inputs : Nat) : List (State × Input) :=
  (Handle.range states).flatMap fun s => (Handle.range inputs).map (s, ·)

variable [RandomSource]

/-- Draws an edge for every given state and input: first its output, then its target. -/
def drawEdges (states outputs : Nat) : List (State × Input) → Generator → List Edge × Generator
  | [], g => ([], g)
  | slot :: rest, g =>
    let output := below g (max outputs 1)
    let target := below output.2 (max states 1)
    let drawn := drawEdges states outputs rest target.2
    (⟨slot.1, slot.2, ⟨output.1⟩, ⟨target.1⟩⟩ :: drawn.1, drawn.2)

/-- A machine of the given size, drawn state by state and input by input. Some states may be out of
reach, and some may be equivalent. -/
def random (states inputs outputs : Nat) (g : Generator) :
    Except MachineError Machine × Generator :=
  let drawn := drawEdges states outputs (slots states inputs) g
  (ofEdges states inputs outputs drawn.1, drawn.2)

/-- Whether all states can be reached from the first one, and no two of them are equivalent. -/
def isConnectedMinimal (M : Machine) : Bool :=
  (M.reachableStates .first).length == M.stateCount && M.isMinimal

/-- The first connected and minimal machine among at most `attempts` that are drawn one after the
other, if there is one. -/
def randomMinimal (states inputs outputs : Nat) :
    Nat → Generator → Except MachineError (Option Machine) × Generator
  | 0, g => (.ok none, g)
  | attempts + 1, g =>
    match random states inputs outputs g with
    | (.error e, g) => (.error e, g)
    | (.ok M, g) =>
      if M.isConnectedMinimal then (.ok (some M), g)
      else randomMinimal states inputs outputs attempts g

end StateIdentification.Machine
