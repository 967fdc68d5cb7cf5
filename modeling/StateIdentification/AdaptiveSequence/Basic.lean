import StateIdentification.Arena
import StateIdentification.Handle

/-!
# Adaptive distinguishing sequences

An experiment that finds out in which state a machine was started. In every node of a tree a word is
applied, and the outputs decide in which child the experiment goes on. A node keeps the initial
states that are still possible, each with the state that the machine has moved to since.

## Main definitions

- `Candidate`: a possible initial state with the current state.
- `AdaptiveSequence`: the tree of an experiment.
- `AdaptiveSequence.leafOf?`, `AdaptiveSequence.pathWord?`: where the experiment ends for an initial
  state, and the word that is applied until then.
- `AdaptiveSequence.isComplete`: every initial state is found out.
-/

namespace StateIdentification

/-- A possible initial state, and the state that the machine is in if it started there. -/
structure Candidate where
  current : State
  initial : State
deriving DecidableEq, Repr

/-- The candidates that are left, by ascending current state, and the word that is applied to them;
the word is empty if the experiment ends. -/
structure Stage where
  candidates : List Candidate
  word : Word
deriving DecidableEq, Repr

instance : Inhabited Stage := ⟨⟨[], []⟩⟩

/-- The tree of an experiment. -/
abbrev AdaptiveSequence := Arena Stage

namespace AdaptiveSequence

/-- The experiment that applies nothing and distinguishes nothing. -/
def idle (size : Nat) : AdaptiveSequence :=
  .single ⟨(Handle.range size).map fun s => ⟨s, s⟩, []⟩

/-- The candidates in a node. -/
def candidates (a : AdaptiveSequence) (id : Nat) : List Candidate := (a.label id).candidates

/-- The word that is applied in a node. -/
def word (a : AdaptiveSequence) (id : Nat) : Word := (a.label id).word

/-- The initial states that are possible in a node. -/
def initials (a : AdaptiveSequence) (id : Nat) : List State := (a.candidates id).map (·.initial)

/-- The number of initial states. -/
def stateCount (a : AdaptiveSequence) : Nat := (a.candidates Arena.root).length

/-- Whether every leaf leaves at most one initial state. -/
def isComplete (a : AdaptiveSequence) : Bool := a.leaves.all fun id => (a.candidates id).length ≤ 1

/-- The nodes that the experiment passes from an initial state, if it ends in a leaf. -/
def trail? (a : AdaptiveSequence) (s : State) : Option (List Nat) :=
  a.trailFromRoot? fun stage => s ∈ stage.candidates.map (·.initial)

/-- The leaf in which the experiment ends. -/
def leafOf? (a : AdaptiveSequence) (s : State) : Option Nat := (a.trail? s).bind List.getLast?

/-- The word that is applied until the experiment ends. -/
def pathWord? (a : AdaptiveSequence) (s : State) : Option Word :=
  (a.trail? s).map (·.flatMap a.word)

end AdaptiveSequence

end StateIdentification
