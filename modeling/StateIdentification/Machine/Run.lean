import StateIdentification.Machine.Basic
import StateIdentification.Text.Render

/-!
# Running words

What a machine does when it reads a word, and which words a machine accepts.

## Main definitions

- `Machine.reached`, `Machine.outputs`, `Machine.run?`: the state behind a word, all outputs, and
  the last transition.
- `Machine.separates`: two states answer a word differently.
- `Machine.admits`, `Machine.admitsState`: the word can be read from the state, or the state
  belongs to the machine, or else the reason why not.
- `AccessError`: a handle does not belong to the thing that it is used with.
-/

namespace StateIdentification

/-- A handle is used with a thing that it does not belong to. -/
inductive AccessError where
  | foreignInput (input : Input)
  | foreignState (state : State)
  | foreignPair (left right : State)
deriving DecidableEq, Repr

/-- The text of the error. -/
def AccessError.message : AccessError → String
  | .foreignInput input => "input " ++ render input ++ " does not belong to this machine"
  | .foreignState state => "state " ++ render state ++ " is out of range"
  | .foreignPair left right => "pair " ++ render (left, right) ++ " is out of range"

namespace Machine

variable (M : Machine)

/-- The state that is reached by reading a word. -/
def reached (s : State) (w : Word) : State := w.foldl M.successor s

/-- All outputs that are emitted while reading a word. -/
def outputs : State → Word → List Output
  | _, [] => []
  | s, i :: w => M.output s i :: outputs (M.successor s i) w

/-- The last transition that is taken while reading a word; the empty word takes none. -/
def run? : State → Word → Option Transition
  | _, [] => none
  | s, i :: w => (run? (M.successor s i) w).or (some (M.transition s i))

/-- The output on the last symbol of a word. -/
def lastOutput (s : State) (w : Word) : Output := ((M.run? s w).map (·.output)).getD .first

/-- Whether two states emit different outputs at some position of a word. -/
def separates (s t : State) (w : Word) : Bool := M.outputs s w != M.outputs t w

/-- Whether a word can be read from a state. The first symbol is looked at before the state, and
the empty word can be read from anywhere. -/
def admits (s : State) : Word → Except AccessError Unit
  | [] => .ok ()
  | i :: w =>
    if i ∉ M.inputs then .error (.foreignInput i)
    else if s ∉ M.states then .error (.foreignState s)
    else match w.find? (· ∉ M.inputs) with
      | some j => .error (.foreignInput j)
      | none => .ok ()

/-- Whether a state belongs to the machine. -/
def admitsState (s : State) : Except AccessError Unit :=
  if s ∈ M.states then .ok () else .error (.foreignState s)

@[simp]
theorem reached_nil (s : State) : M.reached s [] = s := rfl

@[simp]
theorem reached_cons (s : State) (i : Input) (w : Word) :
    M.reached s (i :: w) = M.reached (M.successor s i) w := rfl

@[simp]
theorem outputs_nil (s : State) : M.outputs s [] = [] := rfl

@[simp]
theorem outputs_cons (s : State) (i : Input) (w : Word) :
    M.outputs s (i :: w) = M.output s i :: M.outputs (M.successor s i) w := rfl

theorem reached_append (s : State) (v w : Word) :
    M.reached s (v ++ w) = M.reached (M.reached s v) w := List.foldl_append

theorem outputs_append (s : State) (v w : Word) :
    M.outputs s (v ++ w) = M.outputs s v ++ M.outputs (M.reached s v) w := by
  induction v generalizing s with
  | nil => rfl
  | cons i v ih => simp [ih]

/-- A machine emits one output for every input. -/
@[simp]
theorem length_outputs (s : State) (w : Word) : (M.outputs s w).length = w.length := by
  induction w generalizing s with
  | nil => rfl
  | cons i w ih => simp [ih]

/-- Two states answer a word alike if they answer its beginning alike and are led by it to states
that answer the rest alike. -/
theorem outputs_append_eq_iff {s t : State} {v w : Word} :
    M.outputs s (v ++ w) = M.outputs t (v ++ w) ↔
      M.outputs s v = M.outputs t v ∧
        M.outputs (M.reached s v) w = M.outputs (M.reached t v) w := by
  rw [outputs_append, outputs_append]
  exact List.append_eq_append_iff_of_size_eq_left (by simp)

/-- The last transition of a word is the one that its last input takes behind the others. -/
theorem run?_concat (s : State) (w : Word) (i : Input) :
    M.run? s (w ++ [i]) = some (M.transition (M.reached s w) i) := by
  induction w generalizing s with
  | nil => rfl
  | cons j w ih => simp [run?, ih]

@[simp]
theorem lastOutput_concat (s : State) (w : Word) (i : Input) :
    M.lastOutput s (w ++ [i]) = M.output (M.reached s w) i := by
  simp [lastOutput, run?_concat, output]

variable {M}

theorem reached_mem {s : State} (h : s ∈ M.states) (w : Word) : M.reached s w ∈ M.states := by
  induction w generalizing s with
  | nil => exact h
  | cons i w ih => exact ih (successor_mem h i)

end Machine

end StateIdentification
