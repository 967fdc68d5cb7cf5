import StateIdentification.Machine.Basic
import StateIdentification.Text.Render

/-!
# Drafts of machines

A machine is drafted by adding edges one by one. The first edge that does not fit is an error, and
a draft is finished once every state has an edge for every input.

## Main definitions

- `Edge`: a transition together with its source and input.
- `Draft`: a table with gaps.
- `Draft.insert`, `Draft.finish`: adding an edge and turning the draft into a machine.
- `Machine.ofEdges`: the machine with the given edges.
- `MachineError`: why there is no such machine.
-/

namespace StateIdentification

/-- Why a table is no complete and deterministic machine. -/
inductive MachineError where
  | noStates
  | indexOutOfRange (kind : Kind) (index size : Nat)
  | incomplete (state : State) (input : Input)
  | nonDeterministic (state : State) (input : Input)
deriving DecidableEq, Repr

/-- The text of the error. -/
def MachineError.message : MachineError → String
  | .noStates => "a machine needs at least one state"
  | .indexOutOfRange kind index size =>
    kind.name ++ s!" index {index} is out of range, there are only {size}"
  | .incomplete state input =>
    "state " ++ render state ++ " has no transition on input " ++ render input ++
      ", the machine must be complete"
  | .nonDeterministic state input =>
    "state " ++ render state ++ " has conflicting transitions on input " ++ render input ++
      ", the machine must be deterministic"

/-- An edge of a machine. -/
structure Edge where
  source : State
  input : Input
  output : Output
  target : State
deriving DecidableEq, Repr

/-- A table some of whose entries may still be missing. -/
structure Draft (states inputs outputs : Nat) where
  table : Grid (Option (Cell states outputs)) states inputs

namespace Draft

variable {states inputs outputs : Nat}

/-- The draft without edges. -/
def empty (states inputs outputs : Nat) : Draft states inputs outputs :=
  ⟨.replicate states inputs none⟩

/-- Adds an edge. Its numbers are checked in the order source, input, output, target, and an edge
that is repeated has to be the same. -/
def insert (d : Draft states inputs outputs) (e : Edge) :
    Except MachineError (Draft states inputs outputs) :=
  if hs : e.source.index < states then
    if hi : e.input.index < inputs then
      if ho : e.output.index < outputs then
        if ht : e.target.index < states then
          let cell : Cell states outputs := ⟨⟨e.target.index, ht⟩, ⟨e.output.index, ho⟩⟩
          match d.table.get ⟨e.source.index, hs⟩ ⟨e.input.index, hi⟩ with
          | none => .ok ⟨d.table.set ⟨e.source.index, hs⟩ ⟨e.input.index, hi⟩ (some cell)⟩
          | some present =>
            if present = cell then .ok d else .error (.nonDeterministic e.source e.input)
        else .error (.indexOutOfRange .state e.target.index states)
      else .error (.indexOutOfRange .output e.output.index outputs)
    else .error (.indexOutOfRange .input e.input.index inputs)
  else .error (.indexOutOfRange .state e.source.index states)

/-- Adds several edges; the first one that does not fit is the error. -/
def insertAll (d : Draft states inputs outputs) (es : List Edge) :
    Except MachineError (Draft states inputs outputs) :=
  es.foldlM insert d

/-- The machine of a draft without gaps. The first gap in the order of states, then inputs, is the
error. -/
def finish (d : Draft states inputs outputs) : Except MachineError Machine :=
  if h : 0 < states then do
    let table ← Grid.ofFnM fun s i =>
      match d.table.get s i with
      | some cell => .ok cell
      | none => .error (.incomplete ⟨s⟩ ⟨i⟩)
    return ⟨states, inputs, outputs, table, h⟩
  else .error .noStates

end Draft

namespace Machine

/-- The machine with the given edges. -/
def ofEdges (states inputs outputs : Nat) (es : List Edge) : Except MachineError Machine :=
  (Draft.empty states inputs outputs).insertAll es >>= Draft.finish

end Machine

end StateIdentification
