import StateIdentification.Machine.Draft
import StateIdentification.Machine.Submachine
import StateIdentification.Memory.TableLimit

/-!
# Machines as they are stored

The transitions of a machine are stored state by state in one table. Both the size of the table and
the places of its entries are computed in words, where what exceeds the largest number of a word is
lost. The first edge that does not fit is kept as an error, and all edges after it are passed over.

## Main definitions

- `StoredDraft`: a table with gaps, and the first error.
- `StoredDraft.empty`, `StoredDraft.insert`, `StoredDraft.finish`: making a draft, adding an edge
  and turning the draft into a machine.
- `StoredMachine`: a table without gaps.
- `StoredMachine.ofEdges`, `StoredMachine.ofFn`: the machine with the given edges or entries.
- `Draft.stored`, `Machine.stored`: how a draft and a machine are stored.
- `Machine.reachableStatesBounded`, `Machine.reachableSubmachineBounded`: searches within the table
  limit.
-/

namespace StateIdentification

/-- The width of a state that may be missing in bytes: a number, and a mark if it is there. -/
def numberingWidth : Nat := 2 * numberWidth

/-- The width of a mark in bytes. -/
def markWidth : Nat := 1

/-- Why a construction stops. -/
inductive StorageFault where
  /-- A table exceeds the limit. -/
  | overflow (table : TableOverflow)
  /-- A table is read at a place that it does not have. -/
  | noPlace (place size : Nat)
deriving DecidableEq, Repr

/-- The transitions that a machine gets, as far as they are known. -/
structure StoredDraft where
  states : Nat
  inputs : Nat
  outputs : Nat
  table : Array (Option Transition)
  error : Option MachineError

/-- The transitions of a machine, state by state. -/
structure StoredMachine where
  states : Nat
  inputs : Nat
  outputs : Nat
  table : Array Transition
deriving DecidableEq, Repr

/-- The place of an entry in a table with a number of entries for each state. -/
def storedPlace (inputs : Nat) (s : State) (i : Input) : Nat :=
  (s.index * inputs + i.index) % UInt64.size

/-- Where an edge leads, and with which output. -/
def Edge.transition (e : Edge) : Transition := ⟨e.target, e.output⟩

/-- The error for the first number of an edge that is out of range, in the order source, input,
output, target. -/
def Edge.outOfRange? (states inputs outputs : Nat) (e : Edge) : Option MachineError :=
  [(Kind.state, e.source.index, states), (.input, e.input.index, inputs),
    (.output, e.output.index, outputs), (.state, e.target.index, states)].findSome?
      fun (kind, index, size) =>
        if size ≤ index then some (.indexOutOfRange kind index size) else none

namespace StoredDraft

/-- The draft without edges, if its table fits. -/
def empty (states inputs outputs : Nat) : Except StorageFault StoredDraft := do
  let size := states * inputs % UInt64.size
  (requireTable size transitionWidth).mapError .overflow
  return ⟨states, inputs, outputs, Array.replicate size none, none⟩

/-- Adds an edge, unless there is an error already. -/
def insert (d : StoredDraft) (e : Edge) : Except StorageFault StoredDraft :=
  if d.error.isSome then .ok d
  else
    match e.outOfRange? d.states d.inputs d.outputs with
    | some error => .ok { d with error := some error }
    | none =>
      let place := storedPlace d.inputs e.source e.input
      match d.table[place]? with
      | none => .error (.noPlace place d.table.size)
      | some slot =>
        if slot.any (· != e.transition) then
          .ok { d with error := some (.nonDeterministic e.source e.input) }
        else .ok { d with table := d.table.setIfInBounds place (some e.transition) }

/-- The machine of a draft without gaps. The first error is the error, failing that the lack of
states, and failing that the first gap. -/
def finish (d : StoredDraft) : Except MachineError StoredMachine :=
  match d.error with
  | some error => .error error
  | none =>
    if d.states = 0 then .error .noStates
    else
      match d.table.findIdx? (·.isNone) with
      | some place => .error (.incomplete ⟨place / d.inputs⟩ ⟨place % d.inputs⟩)
      | none => .ok ⟨d.states, d.inputs, d.outputs, d.table.filterMap id⟩

end StoredDraft

namespace StoredMachine

/-- The machine with the given edges. -/
def ofEdges (states inputs outputs : Nat) (es : List Edge) :
    Except StorageFault (Except MachineError StoredMachine) := do
  let d ← StoredDraft.empty states inputs outputs
  let d ← es.foldlM StoredDraft.insert d
  return d.finish

/-- The machine whose transitions are given by a function. -/
def ofFn (states inputs outputs : Nat) (f : State → Input → Transition) :
    Except StorageFault (Except MachineError StoredMachine) :=
  ofEdges states inputs outputs <|
    (Handle.range states).flatMap fun s => (Handle.range inputs).map fun i =>
      ⟨s, i, (f s i).output, (f s i).target⟩

/-- The transition from a state on an input. -/
def transition? (m : StoredMachine) (s : State) (i : Input) : Option Transition :=
  if i.index < m.inputs then m.table[storedPlace m.inputs s i]? else none

/-- The entry for a state and an input, if it is there and its numbers are in range. -/
def cell (m : StoredMachine) (s : Fin m.states) (i : Fin m.inputs) :
    Except StorageFault (Cell m.states m.outputs) :=
  match m.transition? ⟨s⟩ ⟨i⟩ with
  | some t =>
    if h : t.target.index < m.states ∧ t.output.index < m.outputs then
      .ok ⟨⟨t.target.index, h.1⟩, ⟨t.output.index, h.2⟩⟩
    else .error (.noPlace t.target.index m.states)
  | none => .error (.noPlace (storedPlace m.inputs ⟨s⟩ ⟨i⟩) m.table.size)

/-- The machine that is stored, if it has an entry for every state and input. -/
def machine (m : StoredMachine) : Except StorageFault Machine :=
  if pos : 0 < m.states then do
    let table ← Grid.ofFnM m.cell
    return ⟨m.states, m.inputs, m.outputs, table, pos⟩
  else .error (.noPlace 0 m.states)

end StoredMachine

/-- How a draft is stored. -/
def Draft.stored {states inputs outputs : Nat} (d : Draft states inputs outputs) : StoredDraft :=
  ⟨states, inputs, outputs, d.table.cells.toArray.map (·.map Cell.transition), none⟩

namespace Machine

/-- How a machine is stored. -/
def stored (M : Machine) : StoredMachine :=
  ⟨M.stateCount, M.inputCount, M.outputCount, M.table.cells.toArray.map Cell.transition⟩

/-- The reachable states, if the marks of all states fit into a table. -/
def reachableStatesBounded (M : Machine) (origin : State) :
    Except TableOverflow (List State) := do
  requireTable M.stateCount markWidth
  return M.reachableStates origin

/-- The reachable submachine, if the marks and the new numbers of all states fit into tables. -/
def reachableSubmachineBounded (M : Machine) (origin : State) (h : origin ∈ M.states) :
    Except TableOverflow Machine := do
  requireTable M.stateCount markWidth
  requireTable M.stateCount numberingWidth
  return M.reachableSubmachine origin h

end Machine

end StateIdentification
