import StateIdentification.Machine.Basic
import StateIdentification.Random.Source

/-!
# The order in which inputs are tried

Several constructions try the inputs of a machine one after the other, again and again. They do so
in ascending order, or shuffle the order before each pass.

## Main definitions

- `InputOrder`: the current order, with a generator if it is to be shuffled.
- `InputOrder.refresh`: the order of the next pass.
-/

namespace StateIdentification

variable [RandomSource]

/-- An order of inputs; without a generator it stays as it is. -/
structure InputOrder where
  inputs : List Input
  generator : Option RandomSource.Generator

namespace InputOrder

/-- The inputs of a machine in ascending order, to be shuffled from a seed if `randomized`. -/
def ofMachine (M : Machine) (randomized : Bool) (seed : UInt64) : InputOrder :=
  ⟨M.inputs, if randomized then some (RandomSource.ofSeed seed) else none⟩

/-- The order of the next pass. -/
def refresh (o : InputOrder) : InputOrder :=
  match o.generator with
  | none => o
  | some g =>
    let shuffled := RandomSource.shuffle g o.inputs
    ⟨shuffled.1, some shuffled.2⟩

/-- A pass tries the same inputs as the one before it. -/
theorem refresh_perm (o : InputOrder) : o.refresh.inputs.Perm o.inputs := by
  unfold refresh
  split
  · exact .refl _
  · exact RandomSource.shuffle_perm _ _

end InputOrder

end StateIdentification
