/-!
# Tries in a table of nodes

A trie keeps its nodes in one table, the root first, and refers to them by number. The children of a
node are in ascending order of their symbols and are found by binary search. Adding a word changes
the nodes on its way in place and puts new ones at the end of the table. A walk visits the nodes
with a stack of its own and a buffer for the word that leads to the current node.

## Main definitions

- `TrieNode`: the children of a node by symbol, and whether a word ends there.
- `TrieNode.search`: the place of a symbol among the children.
- `StoredTrie`: the table, with the number of words and of symbols in them.
- `StoredTrie.insert`, `StoredTrie.contains`: adding a word and looking one up.
- `StoredTrie.walk`: visits every node, each one before its children.
- `StoredTrie.words`, `StoredTrie.maximalWords`: all words, and those that no other word extends.
-/

namespace StateIdentification

/-- A node: the symbols that lead on, each with the number of the child behind it, and whether a
word ends here. -/
structure TrieNode (α : Type u) where
  children : List (α × Nat)
  stop : Bool
deriving DecidableEq, Repr

/-- Where a symbol stands among ascending ones, or where it would have to stand. -/
inductive Place where
  | found (position : Nat)
  | missing (position : Nat)
deriving DecidableEq, Repr

namespace TrieNode

variable {α : Type u}

/-- The node without children in which no word ends. -/
def blank : TrieNode α := ⟨[], false⟩

instance : Inhabited (TrieNode α) := ⟨blank⟩

theorem middle_lt {children : List (α × Nat)} {low high : Nat} (h : high ≤ children.length)
    (hlt : low < high) : low + (high - low) / 2 < children.length := by
  omega

theorem middle_le {children : List (α × Nat)} {low high : Nat} (h : high ≤ children.length)
    (hlt : low < high) : low + (high - low) / 2 ≤ children.length :=
  Nat.le_of_lt (middle_lt h hlt)

/-- Searches for a symbol among the children from `low` up to `high`. -/
def searchBetween [Ord α] (children : List (α × Nat)) (a : α) (low high : Nat)
    (h : high ≤ children.length) : Place :=
  if hlt : low < high then
    let middle := low + (high - low) / 2
    have : middle < children.length := middle_lt h hlt
    match compare children[middle].1 a with
    | .lt => searchBetween children a (middle + 1) high h
    | .eq => .found middle
    | .gt => searchBetween children a low middle (middle_le h hlt)
  else .missing low
termination_by high - low

/-- The place of a symbol among the children. -/
def search [Ord α] (node : TrieNode α) (a : α) : Place :=
  searchBetween node.children a 0 node.children.length (Nat.le_refl _)

end TrieNode

/-- A finite set of words in a table of nodes. `size` counts the words and `symbols` adds up their
lengths. -/
structure StoredTrie (α : Type u) where
  nodes : Array (TrieNode α)
  size : Nat
  symbols : Nat
deriving DecidableEq, Repr

namespace StoredTrie

variable {α : Type u} {β : Type v}

/-- The trie without words, which has a root only. -/
def empty : StoredTrie α := ⟨#[.blank], 0, 0⟩

instance : EmptyCollection (StoredTrie α) := ⟨empty⟩

/-- Whether the trie has no words. -/
def isEmpty (t : StoredTrie α) : Bool := t.size == 0

/-- The number of words and the sum of their lengths. -/
def totalSize (t : StoredTrie α) : Nat × Nat := (t.size, t.symbols)

section Search

variable [Ord α]

/-- The child of a node behind a symbol. -/
def child? (nodes : Array (TrieNode α)) (id : Nat) (a : α) : Option Nat :=
  match nodes[id]!.search a with
  | .found position => nodes[id]!.children[position]?.map (·.2)
  | .missing _ => none

/-- The node that a word leads to. -/
def find? (t : StoredTrie α) (w : List α) : Option Nat := w.foldlM (child? t.nodes) 0

/-- Whether exactly this word is a member; a beginning of a member need not be one. -/
def contains (t : StoredTrie α) (w : List α) : Bool :=
  (t.find? w).any fun id => t.nodes[id]!.stop

/-- Goes from a node to its child behind a symbol. If there is none, a new node becomes the child,
at the place of the symbol among the others. -/
def enter (nodes : Array (TrieNode α)) (id : Nat) (a : α) : Array (TrieNode α) × Nat :=
  match nodes[id]!.search a with
  | .found position => (nodes, (nodes[id]!.children[position]?.map (·.2)).getD id)
  | .missing position =>
    ((nodes.push .blank).modify id fun node =>
      { node with children := node.children.insertIdx position (a, nodes.size) }, nodes.size)

/-- Goes along a word, and makes the nodes that are missing. -/
def descend (nodes : Array (TrieNode α)) (id : Nat) : List α → Array (TrieNode α) × Nat
  | [] => (nodes, id)
  | a :: w => descend (enter nodes id a).1 (enter nodes id a).2 w

/-- Lets a word end in a node. -/
def endWord (nodes : Array (TrieNode α)) (id : Nat) : Array (TrieNode α) :=
  nodes.modify id ({ · with stop := true })

/-- Adds a word and tells whether it was new. -/
def insert (t : StoredTrie α) (w : List α) : Bool × StoredTrie α :=
  let (nodes, last) := descend t.nodes 0 w
  if nodes[last]!.stop then (false, { t with nodes })
  else
    (true,
      { nodes := endWord nodes last
        size := t.size + 1
        symbols := t.symbols + w.length })

/-- Adds several words one after the other. -/
def insertAll (t : StoredTrie α) (ws : List (List α)) : StoredTrie α :=
  ws.foldl (fun t w => (t.insert w).2) t

/-- The trie of the given words. -/
def ofList (ws : List (List α)) : StoredTrie α := empty.insertAll ws

end Search

/-- The state of a walk: the word that leads to the current node, the nodes on the way there, the
last one first and each with the position of its next child, and what the visits have given. -/
structure Walk (α : Type u) (β : Type v) where
  word : List α
  stack : List (Nat × Nat)
  result : β

/-- One step of a walk: it visits the next child of the current node, or goes back if there is none.
A visit is told the word of the node, whether it is a member, and whether the node is childless. -/
def step? (t : StoredTrie α) (visit : β → List α → Bool → Bool → β) (walk : Walk α β) :
    Option (Walk α β) :=
  match walk.stack with
  | [] => none
  | (id, next) :: stack =>
    match t.nodes[id]!.children[next]? with
    | none => some { walk with word := walk.word.dropLast, stack }
    | some (a, child) =>
      let word := walk.word ++ [a]
      let node := t.nodes[child]!
      some
        { word
          stack := (child, 0) :: (id, next + 1) :: stack
          result := visit walk.result word node.stop node.children.isEmpty }

/-- Walks on until the stack is empty, for at most the given number of steps. -/
def walkFor (t : StoredTrie α) (visit : β → List α → Bool → Bool → β) : Nat → Walk α β → Walk α β
  | 0, walk => walk
  | steps + 1, walk =>
    match t.step? visit walk with
    | none => walk
    | some walk => walkFor t visit steps walk

/-- The walk that has visited the root. -/
def start (t : StoredTrie α) (visit : β → List α → Bool → Bool → β) (init : β) : Walk α β :=
  let node := t.nodes[0]!
  { word := []
    stack := [(0, 0)]
    result := visit init [] node.stop node.children.isEmpty }

/-- Visits every node, each one before its children. The walk enters and leaves every node once. A
trie without words has nothing to visit. -/
def walk (t : StoredTrie α) (visit : β → List α → Bool → Bool → β) (init : β) : β :=
  if t.isEmpty then init else (t.walkFor visit (2 * t.nodes.size) (t.start visit init)).result

/-- Goes through all words in lexicographic order. -/
def fold (t : StoredTrie α) (f : β → List α → β) (init : β) : β :=
  t.walk (fun b w stop _ => if stop then f b w else b) init

/-- Goes through the words of all childless nodes in lexicographic order. -/
def foldMaximal (t : StoredTrie α) (f : β → List α → β) (init : β) : β :=
  t.walk (fun b w _ childless => if childless then f b w else b) init

/-- All words in lexicographic order. -/
def words (t : StoredTrie α) : List (List α) := t.fold (fun ws w => ws ++ [w]) []

/-- The words that are no proper beginning of another word, in lexicographic order. -/
def maximalWords (t : StoredTrie α) : List (List α) := t.foldMaximal (fun ws w => ws ++ [w]) []

end StoredTrie

end StateIdentification
