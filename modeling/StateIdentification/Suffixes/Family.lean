import StateIdentification.AdaptiveSequence.Basic
import StateIdentification.Random.Source
import StateIdentification.Suffixes.Matrix
import StateIdentification.SplittingTree.CommonAncestor
import StateIdentification.Trie.Stored

/-!
# Separating families

For every state a set of words that together confirm that a machine is in this state. One of them is
the word that an adaptive distinguishing sequence applies. A state that the sequence leaves together
with others gets words that separate it from each of them, too.

## Main definitions

- `Suffixes`: the words of one state.
- `SeparatingFamily`: the words of all states.
- `SeparatingFamily.ofMatrix`: separating words come from a separating matrix.
- `SeparatingFamily.ofTree`: separating words come from a second splitting tree.
-/

namespace StateIdentification

/-- The words that confirm a state: the local ones after a transition into the state, and the global
ones when the state as a whole is checked. -/
structure Suffixes where
  localWords : List Word
  globalWords : List Word
deriving DecidableEq, Repr

/-- The words of every state, in the order of the states. -/
structure SeparatingFamily where
  members : List Suffixes
deriving DecidableEq, Repr

/-- One trie of words for every state. -/
abbrev SuffixTries := Array (StoredTrie Input)

namespace SuffixTries

/-- Tries without words. -/
def blank (size : Nat) : SuffixTries := Array.replicate size ∅

/-- Adds a word for a state. -/
def insert (tries : SuffixTries) (s : State) (w : Word) : SuffixTries :=
  tries.modify s.index fun t => (t.insert w).2

/-- Adds several words for a state. -/
def insertAll (tries : SuffixTries) (s : State) (ws : List Word) : SuffixTries :=
  ws.foldl (fun tries w => tries.insert s w) tries

/-- Adds a word for several states. -/
def insertFor (tries : SuffixTries) (states : List State) (w : Word) : SuffixTries :=
  states.foldl (fun tries s => tries.insert s w) tries

end SuffixTries

/-- The leaves below the nodes of a stack, each with the word that is applied on the way there. The
word that leads to a node of the stack is kept with the node, and the children of a node are put on
the stack in order, so that the last one is visited first. -/
def AdaptiveSequence.leavesFrom (a : AdaptiveSequence) (leaves : List (Nat × Word)) :
    List (Nat × Word) → List (Nat × Word)
  | [] => leaves
  | (id, w) :: stack =>
    if a.isLeaf id then a.leavesFrom (leaves ++ [(id, w)]) stack
    else a.leavesFrom leaves (((a.children id).map (·, w ++ a.word id)).reverse ++ stack)
termination_by stack => (stack.flatMap fun node => a.preorder node.1).length
decreasing_by
  · simp only [List.flatMap_cons, List.length_append, Arena.preorder_eq a id, List.length_cons]
    omega
  · simp [Arena.preorder_eq a id, Function.comp_def]

/-- All leaves with the words that are applied on the way there. -/
def AdaptiveSequence.leavesWithWord (a : AdaptiveSequence) : List (Nat × Word) :=
  a.leavesFrom [] [(Arena.root, [])]

namespace SeparatingFamily

/-- The family without states. -/
def empty : SeparatingFamily := ⟨[]⟩

/-- What is gathered from the leaves of a sequence: the words of every state, the separating words
of all states, and which states have such words. -/
structure Gathered where
  own : SuffixTries
  all : StoredTrie Input
  needy : Array Bool

namespace Gathered

/-- Nothing, for a number of states. -/
def blank (size : Nat) : Gathered := ⟨.blank size, ∅, Array.replicate size false⟩

/-- Adds the word that separates a state from another one. Equivalent states have none and are
passed over. -/
def separate (m : SeparatingMatrix) (s : State) (g : Gathered) (t : State) :
    Except AccessError Gathered := do
  let w ← m.get s t
  if w.isEmpty then return g
  return {
    own := g.own.insert s w
    all := (g.all.insert w).2
    needy := g.needy.setIfInBounds s.index true }

/-- Adds the words of a leaf: for all of its states the word that leads to it, and for every two of
them the word that separates them. -/
def addLeaf (m : SeparatingMatrix) (g : Gathered) (states : List State) (w : Word) :
    Except AccessError Gathered :=
  states.foldlM (fun g s => (states.filter (· ≠ s)).foldlM (separate m s) g)
    { g with own := g.own.insertFor states w }

/-- The family of the words that were gathered. The trie of a state gives its local words first and
its global words afterwards. -/
def family (g : Gathered) : SeparatingFamily :=
  ⟨(g.own.zipWith (fun own needs =>
    { localWords := own.maximalWords
      globalWords :=
        (if needs then g.all.fold (fun t w => (t.insert w).2) own else own).maximalWords })
    g.needy).toList⟩

end Gathered

/-- The family that takes separating words from a matrix. A state that needs such words gets those
of all states as global words, in addition to its local ones. -/
def ofMatrix (a : AdaptiveSequence) (m : SeparatingMatrix) :
    Except AccessError SeparatingFamily := do
  let gathered ← a.leavesWithWord.foldlM
    (fun g (leaf, w) => Gathered.addLeaf m g (a.initials leaf) w) (Gathered.blank a.stateCount)
  return gathered.family

/-- Goes down from a node of a second tree to the leaves, and gives the states of the set the
separators of those nodes on the way that are marked more than once. -/
def collect (t : SplittingTree) (marks : Marks) (among : State → Bool) (id : Nat)
    (separators : List Word) (tries : SuffixTries) : SuffixTries :=
  if t.isLeaf id then
    ((t.states id).filter among).foldl (fun tries s => tries.insertAll s separators) tries
  else
    let separators := if 1 < marks.get id then separators ++ [t.separator id] else separators
    (t.children id).attach.foldl (fun tries c => collect t marks among c.1 separators tries) tries
termination_by t.size - id
decreasing_by
  have := Arena.lt_of_mem_children c.2
  have := Arena.lt_size_of_mem_children c.2
  omega

/-- Adds the words of a leaf: for all of its states the word that leads to it, and if there are
several, the separators on the way down from the node that holds them together. The marks are those
of the leaf before it. -/
def addLeafOfTree (t : SplittingTree) (states : List State) (w : Word)
    (gathered : SuffixTries × Marks) : SuffixTries × Marks :=
  let tries := gathered.1.insertFor states w
  if states.length < 2 then (tries, gathered.2)
  else
    let (id, marks) := t.lowestCommonAncestor gathered.2 (states.contains ·)
    (collect t marks (states.contains ·) id [] tries, marks)

/-- The family that takes separating words from a second tree; the global words are the local
ones. -/
def ofTree (a : AdaptiveSequence) (t : SplittingTree) : SeparatingFamily :=
  let gathered := a.leavesWithWord.foldl
    (fun gathered (leaf, w) => addLeafOfTree t (a.initials leaf) w gathered)
    (.blank a.stateCount, ∅)
  ⟨gathered.1.toList.map fun own => ⟨own.maximalWords, own.maximalWords⟩⟩

/-- The number of states. -/
def size (f : SeparatingFamily) : Nat := f.members.length

/-- Whether there are no states. -/
def isEmpty (f : SeparatingFamily) : Bool := f.members.isEmpty

/-- The words of a state. -/
def get? (f : SeparatingFamily) (s : State) : Option Suffixes := f.members[s.index]?

/-- The words of a state, which has to be known. -/
def get (f : SeparatingFamily) (s : State) : Except AccessError Suffixes :=
  match f.get? s with
  | some member => .ok member
  | none => .error (.foreignState s)

open RandomSource

variable [RandomSource]

/-- One of the given words at random, if there are any. -/
def pick (ws : List Word) (g : Generator) : Option Word × Generator :=
  if ws.isEmpty then (none, g)
  else
    let (n, g) := below g ws.length
    (ws[n]?, g)

/-- One of the local words of a state at random. -/
def randomLocal (f : SeparatingFamily) (s : State) (g : Generator) : Option Word × Generator :=
  pick (((f.get? s).map (·.localWords)).getD []) g

/-- One of the global words of a state at random. -/
def randomGlobal (f : SeparatingFamily) (s : State) (g : Generator) : Option Word × Generator :=
  pick (((f.get? s).map (·.globalWords)).getD []) g

end SeparatingFamily

end StateIdentification
