import StateIdentification.Machine.Run
import StateIdentification.SplittingTree.Basic
import StateIdentification.Text.RoundedTable

/-!
# Separating matrices

A word for every pair of states of a splitting tree: the separator of the node in which the two
states were split. Pairs that are never split keep the empty word.

## Main definitions

- `SplittingTree.splitPairs`: all pairs of states that the tree splits, with the separator.
- `SeparatingMatrix`: the words by rows, one behind the other.
- `SeparatingMatrix.ofTree`: the matrix of a splitting tree.
- `SeparatingMatrix.get`, `SeparatingMatrix.pairs`: the word of a pair, and all pairs.
-/

namespace StateIdentification

/-- All pairs of members of a list, the earlier one first. -/
def orderedPairs {α : Type u} : List α → List (α × α)
  | [] => []
  | x :: xs => xs.map (x, ·) ++ orderedPairs xs

/-- The pairs of states that lie in different children of a node, with the word that splits them. -/
def SplittingTree.splitPairs (t : SplittingTree) : List (State × State × Word) :=
  t.ids.flatMap fun id => (orderedPairs (t.children id)).flatMap fun (left, right) =>
    (t.states left).flatMap fun p => (t.states right).map fun q => (p, q, t.separator id)

/-- A square matrix of words, row by row. -/
structure SeparatingMatrix where
  size : Nat
  words : Array Word
  size_words : words.size = size * size
deriving DecidableEq

namespace SeparatingMatrix

/-- The matrix of empty words. -/
def blank (size : Nat) : SeparatingMatrix :=
  ⟨size, Array.replicate (size * size) [], Array.size_replicate⟩

/-- The place of an entry among all entries. -/
def place (m : SeparatingMatrix) (s t : State) : Nat := s.index * m.size + t.index

/-- Two pairs whose second states are in range share a place only if they are equal. -/
theorem place_inj {m : SeparatingMatrix} {s t p q : State} (ht : t.index < m.size)
    (hq : q.index < m.size) : m.place s t = m.place p q ↔ s = p ∧ t = q := by
  have quotient (u : State) {v : State} (hv : v.index < m.size) :
      m.place u v / m.size = u.index ∧ m.place u v % m.size = v.index := by
    rw [place, Nat.mul_comm, Nat.mul_add_div (by omega), Nat.mul_add_mod]
    exact ⟨by rw [Nat.div_eq_of_lt hv, Nat.add_zero], Nat.mod_eq_of_lt hv⟩
  grind [Handle.ext]

/-- Writes the word of a pair at both places of the pair. -/
def put (m : SeparatingMatrix) (s t : State) (w : Word) : SeparatingMatrix where
  size := m.size
  words := (m.words.setIfInBounds (m.place s t) w).setIfInBounds (m.place t s) w
  size_words := by simp [m.size_words]

/-- The matrix of a splitting tree. -/
def ofTree (t : SplittingTree) : SeparatingMatrix :=
  t.splitPairs.foldl (fun m (p, q, w) => m.put p q w) (blank t.stateCount)

/-- The word of a pair, which is found by its place. -/
def get (m : SeparatingMatrix) (s t : State) : Except AccessError Word :=
  match m.words[m.place s t]? with
  | some w => .ok w
  | none => .error (.foreignPair s t)

/-- The word of a pair, or the empty word where there is no entry. -/
def wordOf (m : SeparatingMatrix) (s t : State) : Word := m.words[m.place s t]?.getD []

theorem place_lt {m : SeparatingMatrix} {s t : State} (hs : s.index < m.size)
    (ht : t.index < m.size) : m.place s t < m.words.size := by
  rw [m.size_words]
  calc m.place s t < s.index * m.size + m.size := Nat.add_lt_add_left ht _
    _ = (s.index + 1) * m.size := (Nat.succ_mul ..).symm
    _ ≤ m.size * m.size := Nat.mul_le_mul_right _ hs

@[simp]
theorem wordOf_blank (size : Nat) (s t : State) : (blank size).wordOf s t = [] := by
  simp only [wordOf, blank, Array.getElem?_replicate]
  split <;> rfl

/-- A word is written for both orders of its pair, and all other pairs keep theirs. -/
theorem wordOf_put {m : SeparatingMatrix} {p q s t : State} (hp : p.index < m.size)
    (hq : q.index < m.size) (ht : t.index < m.size) (w : Word) :
    (m.put p q w).wordOf s t =
      if (s = p ∧ t = q) ∨ (s = q ∧ t = p) then w else m.wordOf s t := by
  have hpq := place_lt hp hq
  have hqp := place_lt hq hp
  have same (u v : State) (hv : v.index < m.size) : m.place u v = m.place s t ↔ u = s ∧ v = t :=
    place_inj hv ht
  simp only [wordOf, put, Array.getElem?_setIfInBounds]
  grind [place]

/-- All pairs of states in ascending order, each with its word. -/
def pairs (m : SeparatingMatrix) : List (State × State × Word) :=
  (orderedPairs (Handle.range m.size)).map fun (s, t) => (s, t, m.wordOf s t)

/-- The matrix as a table whose diagonal is left blank. -/
def text (m : SeparatingMatrix) : String :=
  let states : List State := Handle.range m.size
  RoundedTable.text
    { headings := "" :: states.map render
      rows := states.map fun s => render s :: states.map fun t =>
        if s = t then "" else render (m.wordOf s t) }

end SeparatingMatrix

end StateIdentification
