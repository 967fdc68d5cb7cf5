import StateIdentification.Memory.Growth
import StateIdentification.Memory.Machine
import StateIdentification.Random.Machine

/-!
# Random machines within the table limit

The edges of a machine are added to its draft as they are drawn. So a fault can come before the
first draw, or after some of them.

## Main definitions

- `StoredDraft.draw`: adds drawn edges to a draft.
- `Machine.randomBounded`: a machine whose outputs and targets are drawn at random.
- `Machine.randomMinimalBounded`: draws machines until one is connected and minimal.
-/

namespace StateIdentification

open RandomSource

variable [RandomSource]

/-- Draws a number of edges and adds them to a draft, state by state and input by input, where
`place` is the place of the first one. Of each edge, the output is drawn first. -/
def StoredDraft.draw (d : StoredDraft) (states inputs outputs place : Nat) :
    Nat → Generator → Except StorageFault (StoredDraft × Generator)
  | 0, g => .ok (d, g)
  | left + 1, g => do
    let output := below g (max outputs 1)
    let target := below output.2 (max states 1)
    let d ← d.insert ⟨⟨place / inputs⟩, ⟨place % inputs⟩, ⟨output.1⟩, ⟨target.1⟩⟩
    d.draw states inputs outputs (place + 1) left target.2

namespace Machine

/-- A random machine of the given size. -/
def randomBounded (states inputs outputs : Nat) (g : Generator) :
    Except StorageFault (Except MachineError Machine × Generator) := do
  let d ← StoredDraft.empty states inputs outputs
  let (d, g) ← d.draw states inputs outputs 0 (states * inputs) g
  match d.finish with
  | .error e => return (.error e, g)
  | .ok stored => return (.ok (← stored.machine), g)

/-- Whether all states can be reached from the first one, and no two of them are equivalent. No
tree is grown if some state cannot be reached. -/
def isConnectedMinimalBounded (M : Machine) : Except TableOverflow Bool := do
  let reached ← M.reachableStatesBounded .first
  if reached.length = M.stateCount then M.isMinimalBounded else return false

/-- The first connected and minimal machine among at most `attempts` that are drawn one after the
other, if there is one. -/
def randomMinimalBounded (states inputs outputs : Nat) :
    Nat → Generator → Except StorageFault (Except MachineError (Option Machine) × Generator)
  | 0, g => .ok (.ok none, g)
  | attempts + 1, g => do
    match ← randomBounded states inputs outputs g with
    | (.error e, g) => return (.error e, g)
    | (.ok M, g) =>
      if ← M.isConnectedMinimalBounded.mapError .overflow then return (.ok (some M), g)
      else randomMinimalBounded states inputs outputs attempts g

end Machine

end StateIdentification
