import StateIdentification.Handle

/-!
# Text of handles, words and state sets

How states, inputs, outputs, words and sets of states are written in messages and reports.

## Main definitions

- `Render`: the class of things that have a text.
- `renderSet`: a collection between braces, its members separated by commas.
-/

namespace StateIdentification

/-- Things that have a text for reports. -/
class Render (α : Type u) where
  render : α → String

export Render (render)

/-- A collection is written between braces, in the given order. -/
def renderSet {α : Type u} [Render α] (xs : List α) : String :=
  "\x7b" ++ String.intercalate ", " (xs.map render) ++ "\x7d"

/-- A handle is the letter of its kind followed by its number. -/
instance {kind : Kind} : Render (Handle kind) := ⟨fun h => kind.letter ++ toString h.index⟩

/-- A number is written in decimal. -/
instance : Render Nat := ⟨toString⟩

/-- A word lists the numbers of its inputs, and `ε` stands for the empty word. -/
instance : Render Word where
  render
    | [] => "ε"
    | w => String.intercalate " " (w.map fun i => toString i.index)

/-- A list of states is written as a set. -/
instance : Render (List State) := ⟨renderSet⟩

/-- A pair is written between parentheses. -/
instance {α : Type u} {β : Type v} [Render α] [Render β] : Render (α × β) :=
  ⟨fun p => "(" ++ render p.1 ++ ", " ++ render p.2 ++ ")"⟩

end StateIdentification
