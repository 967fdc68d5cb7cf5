import StateIdentification.Grid
import StateIdentification.Handle

/-!
# Mealy machines

A complete and deterministic machine with finitely many states: in every state every input leads to
one state and emits one output.

## Main definitions

- `Machine`: a machine, given by a table with one row for each state and one column for each input.
- `Machine.transition`: what an input does in a state.
- `Machine.states`, `Machine.inputs`: the handles that belong to a machine.
-/

namespace StateIdentification

/-- The effect of an input: the state that is reached and the output that is emitted. -/
structure Transition where
  target : State
  output : Output
deriving DecidableEq, Repr

/-- An entry of a table for `states` states and `outputs` outputs. -/
@[ext]
structure Cell (states outputs : Nat) where
  target : Fin states
  output : Fin outputs
deriving DecidableEq, Repr

/-- The transition that an entry stands for. -/
def Cell.transition {states outputs : Nat} (c : Cell states outputs) : Transition :=
  ⟨⟨c.target⟩, ⟨c.output⟩⟩

/-- A complete and deterministic Mealy machine with at least one state. -/
structure Machine where
  stateCount : Nat
  inputCount : Nat
  outputCount : Nat
  table : Grid (Cell stateCount outputCount) stateCount inputCount
  stateCount_pos : 0 < stateCount
deriving DecidableEq

namespace Machine

variable (M : Machine)

/-- All states in ascending order. -/
def states : List State := Handle.range M.stateCount

/-- All inputs in ascending order. -/
def inputs : List Input := Handle.range M.inputCount

/-- The transition from a state on an input, if both belong to the machine. -/
def transition? (s : State) (i : Input) : Option Transition :=
  if h : s.index < M.stateCount ∧ i.index < M.inputCount then
    some (M.table.get ⟨s.index, h.1⟩ ⟨i.index, h.2⟩).transition
  else none

/-- The transition from a state on an input. Where the machine has none, the state stays and the
first output is emitted. -/
def transition (s : State) (i : Input) : Transition := (M.transition? s i).getD ⟨s, .first⟩

/-- The state that an input leads to. -/
def successor (s : State) (i : Input) : State := (M.transition s i).target

/-- The output that an input emits. -/
def output (s : State) (i : Input) : Output := (M.transition s i).output

variable {M}

@[simp]
theorem mem_states {s : State} : s ∈ M.states ↔ s.index < M.stateCount := Handle.mem_range

@[simp]
theorem mem_inputs {i : Input} : i ∈ M.inputs ↔ i.index < M.inputCount := Handle.mem_range

theorem first_mem_states (M : Machine) : .first ∈ M.states := mem_states.mpr M.stateCount_pos

theorem nodup_states : M.states.Nodup := Handle.nodup_range _

theorem exists_fin {s : State} (hs : s ∈ M.states) : ∃ n : Fin M.stateCount, s = ⟨n⟩ :=
  ⟨⟨s.index, mem_states.mp hs⟩, rfl⟩

theorem exists_fin_input {i : Input} (hi : i ∈ M.inputs) : ∃ n : Fin M.inputCount, i = ⟨n⟩ :=
  ⟨⟨i.index, mem_inputs.mp hi⟩, rfl⟩

@[simp]
theorem output_fin (s : Fin M.stateCount) (i : Fin M.inputCount) :
    M.output ⟨s⟩ ⟨i⟩ = ⟨(M.table.get s i).output⟩ := by
  simp [output, transition, transition?, Cell.transition]

@[simp]
theorem successor_fin (s : Fin M.stateCount) (i : Fin M.inputCount) :
    M.successor ⟨s⟩ ⟨i⟩ = ⟨(M.table.get s i).target⟩ := by
  simp [successor, transition, transition?, Cell.transition]

/-- A state of the machine is only left for a state of the machine. -/
theorem successor_mem {s : State} (h : s ∈ M.states) (i : Input) : M.successor s i ∈ M.states := by
  simp only [successor, transition, transition?]
  split
  · simp [Cell.transition]
  · exact h

/-- On an input of the machine, a state of the machine emits an output of the machine. -/
theorem output_lt {s : State} {i : Input} (hs : s ∈ M.states) (hi : i ∈ M.inputs) :
    (M.output s i).index < M.outputCount := by
  rw [mem_states] at hs
  rw [mem_inputs] at hi
  simp [output, transition, transition?, hs, hi, Cell.transition]

/-- Machines of the same size are the same if they have the same transitions. -/
theorem eq_of_entries_eq {A B : Machine} (hs : A.stateCount = B.stateCount)
    (hi : A.inputCount = B.inputCount) (ho : A.outputCount = B.outputCount)
    (h : ∀ s ∈ A.states, ∀ i ∈ A.inputs,
      A.successor s i = B.successor s i ∧ A.output s i = B.output s i) : A = B := by
  have entries (s : Fin A.stateCount) (i : Fin A.inputCount) :=
    h ⟨s⟩ (mem_states.mpr s.isLt) ⟨i⟩ (mem_inputs.mpr i.isLt)
  obtain ⟨states, inputs, outputs, table, pos⟩ := A
  obtain ⟨states', inputs', outputs', table', pos'⟩ := B
  obtain rfl : states = states' := hs
  obtain rfl : inputs = inputs' := hi
  obtain rfl : outputs = outputs' := ho
  congr 1
  refine Grid.ext fun s i => ?_
  obtain ⟨htarget, houtput⟩ := entries s i
  rw [successor_fin, successor_fin] at htarget
  rw [output_fin, output_fin] at houtput
  exact Cell.ext (Fin.ext (congrArg Handle.index htarget)) (Fin.ext (congrArg Handle.index houtput))

end Machine

end StateIdentification
