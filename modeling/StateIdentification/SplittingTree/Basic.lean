import StateIdentification.Arena
import StateIdentification.Text.Render
import StateIdentification.Text.Terminal

/-!
# Splitting trees

A splitting tree records how the states of a machine are split into smaller and smaller classes. The
root holds all states. An inner node carries a separator, a word on which the last outputs of two of
its states are equal exactly if the states are in the same child.

## Main definitions

- `SplittingTree`: a tree of classes of states.
- `SplittingTree.leafOf?`: the smallest class of a state.
- `SplittingTree.split`: splits a leaf.
- `SplittingTree.text`: an indented outline of the tree.
-/

namespace StateIdentification

/-- A class of states in ascending order, with the word that splits it; the word is empty as long as
the class is not split. -/
structure StateClass where
  states : List State
  separator : Word
deriving DecidableEq, Repr

instance : Inhabited StateClass := ⟨⟨[], []⟩⟩

/-- A tree of classes of states. -/
abbrev SplittingTree := Arena StateClass

namespace SplittingTree

/-- The tree whose only leaf holds the first `size` states. -/
def ofSize (size : Nat) : SplittingTree := .single ⟨Handle.range size, []⟩

/-- The states in a node. -/
def states (t : SplittingTree) (id : Nat) : List State := (t.label id).states

/-- The word that splits a node into its children. -/
def separator (t : SplittingTree) (id : Nat) : Word := (t.label id).separator

/-- The number of states in the root. -/
def stateCount (t : SplittingTree) : Nat := (t.states Arena.root).length

/-- Splits a leaf on a word into children with the given states. -/
def split (t : SplittingTree) (id : Nat) (separator : Word) (parts : List (List State)) :
    SplittingTree :=
  t.grow id ({ · with separator }) (parts.map (⟨·, []⟩))

/-- The nodes that contain a state, from the root down to its leaf. -/
def trail (t : SplittingTree) (s : State) : List Nat :=
  (t.trailFromRoot? (s ∈ ·.states)).getD []

/-- The leaf that contains a state. -/
def leafOf? (t : SplittingTree) (s : State) : Option Nat := (t.trail s).getLast?

/-- One line of the outline: the states, in bold for a leaf, and otherwise with the separator. -/
def nodeText (t : SplittingTree) (id : Nat) : String :=
  "".pushn ' ' (2 * t.depth id) ++
    (if t.isLeaf id then Terminal.bold (render (t.states id))
      else render (t.states id) ++ " [" ++ Terminal.blue (render (t.separator id)) ++ "]") ++ "\n"

/-- An outline of the tree with one line for each node. -/
def text (t : SplittingTree) : String := String.join ((t.preorder Arena.root).map t.nodeText)

end SplittingTree

end StateIdentification
