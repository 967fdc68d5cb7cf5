import StateIdentification.Machine.Exploration

/-!
# Access words

A shortest word that leads from one state to each state that can be reached from it.

## Main definitions

- `AccessWords`: a word for every state that has one.
- `AccessWords.ofMachine`: the words found by a breadth-first exploration.
- `AccessWords.get?`: the word of a state.
-/

namespace StateIdentification

/-- An access word for each state, in the order of the states; unreachable states have none. -/
structure AccessWords where
  words : List (Option Word)
deriving DecidableEq, Repr

namespace AccessWords

variable [RandomSource]

/-- The words on which an exploration from `origin` finds the states. In ascending order of inputs
these are the least words by length, then by inputs. -/
def ofMachine (M : Machine) (randomized : Bool) (origin : State) (seed : UInt64) : AccessWords :=
  let visits := M.explore (.ofMachine M randomized seed) origin
  ⟨M.states.map fun s => (visits.find? (·.state = s)).map (·.word)⟩

/-- The word of a state, if the state is known and reachable. -/
def get? (a : AccessWords) (s : State) : Option Word := (a.words[s.index]?).join

/-- The entry of a state, which has to be known. -/
def entry (a : AccessWords) (s : State) : Except AccessError (Option Word) :=
  match a.words[s.index]? with
  | some word => .ok word
  | none => .error (.foreignState s)

/-- The number of states. -/
def size (a : AccessWords) : Nat := a.words.length

/-- Whether there are no states. -/
def isEmpty (a : AccessWords) : Bool := a.words.isEmpty

/-- The reachable states with their words, by ascending state. -/
def toList (a : AccessWords) : List (State × Word) :=
  (Handle.range a.size).filterMap fun s => (a.get? s).map (s, ·)

/-- The number of reachable states. -/
def reachableCount (a : AccessWords) : Nat := a.words.countP (·.isSome)

end AccessWords

end StateIdentification
