import StateIdentification.Machine.Basic
import StateIdentification.Text.Render
import StateIdentification.Text.RoundedTable

/-!
# The transition table as a text

## Main definitions

- `Machine.transitionTable`: one row for each state and one column for each input.
-/

namespace StateIdentification.Machine

/-- The table of all transitions; a cell shows the output and the state that is reached. -/
def transitionTable (M : Machine) : String :=
  RoundedTable.text
    { headings := "State" :: M.inputs.map render
      rows := M.states.map fun s => render s :: M.inputs.map fun i =>
        render (M.output s i) ++ "|" ++ render (M.successor s i) }

end StateIdentification.Machine
