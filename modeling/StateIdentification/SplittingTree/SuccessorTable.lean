import StateIdentification.Machine.Run

/-!
# Successors under separators

For every depth of a splitting tree, the states that are reached from the states of the nodes at
that depth by reading their separators. Nodes at the same depth have no state in common, so one row
for each depth is enough.

## Main definitions

- `SuccessorTable`: one row for each depth.
- `SuccessorTable.get?`, `SuccessorTable.record`: looking up and entering a successor.
- `SuccessorTable.recordWord`: enters the states behind a word.
- `SuccessorTable.Tight`: there are no more rows than the entries need.
-/

namespace StateIdentification

/-- The recorded successors, for machines with `stateCount` states. -/
structure SuccessorTable where
  stateCount : Nat
  levels : Array (Array (Option State))
  size_level : ∀ row ∈ levels, row.size = stateCount
deriving DecidableEq

namespace SuccessorTable

/-- The table without entries. -/
def empty (stateCount : Nat) : SuccessorTable := ⟨stateCount, #[], by simp⟩

/-- The successor that is recorded for a state at a depth. -/
def get? (c : SuccessorTable) (depth : Nat) (s : State) : Option State :=
  c.levels[depth]?.bind fun row => row[s.index]?.join

/-- The number of depths that have a row. -/
def depth (c : SuccessorTable) : Nat := c.levels.size

/-- Whether nothing is recorded. -/
def isEmpty (c : SuccessorTable) : Bool := c.levels.isEmpty

/-- Enters a successor; rows are added as far as they are needed. -/
def record (c : SuccessorTable) (depth : Nat) (s successor : State) : SuccessorTable where
  stateCount := c.stateCount
  levels :=
    let missing := Array.replicate (depth + 1 - c.levels.size) (Array.replicate c.stateCount none)
    (c.levels ++ missing).modify depth (·.setIfInBounds s.index (some successor))
  size_level row h := by
    obtain ⟨n, hn⟩ := Array.mem_iff_getElem?.mp h
    have old (row : Array (Option State)) (h : c.levels[n]? = some row) : row.size = c.stateCount :=
      c.size_level row (Array.mem_of_getElem? h)
    simp only [Array.getElem?_modify, Array.getElem?_append, Array.getElem?_replicate] at hn
    grind

/-- Enters, for each of the given states, the state that a word leads to. -/
def recordWord (M : Machine) (c : SuccessorTable) (depth : Nat) (w : Word) (states : List State) :
    SuccessorTable :=
  states.foldl (fun c s => c.record depth s (M.reached s w)) c

/-- The last row has an entry. -/
def Tight (c : SuccessorTable) : Prop := ∀ d, c.depth = d + 1 → ∃ s, (c.get? d s).isSome

@[simp]
theorem get?_empty (stateCount depth : Nat) (s : State) :
    (empty stateCount).get? depth s = none := by
  simp [get?, empty]

theorem get?_record_self (c : SuccessorTable) (depth : Nat) {s : State}
    (h : s.index < c.stateCount) (successor : State) :
    (c.record depth s successor).get? depth s = some successor := by
  have old (hd : depth < c.levels.size) : s.index < c.levels[depth].size := by
    rwa [c.size_level _ (Array.getElem_mem hd)]
  simp only [get?, record, Array.getElem?_modify, Array.getElem?_append, Array.getElem?_replicate]
  grind

/-- An entry leaves those of other depths and other states as they are. -/
theorem get?_record_ne (c : SuccessorTable) {depth other : Nat} {s t : State} (successor : State)
    (h : depth ≠ other ∨ s ≠ t) : (c.record depth s successor).get? other t = c.get? other t := by
  have hi (hd : depth = other) : s.index ≠ t.index := fun he =>
    h.elim (· hd) (· (Handle.ext he))
  simp only [get?, record, Array.getElem?_modify, Array.getElem?_append, Array.getElem?_replicate]
  grind

@[simp]
theorem stateCount_recordWord (M : Machine) (c : SuccessorTable) (depth : Nat) (w : Word)
    (states : List State) : (c.recordWord M depth w states).stateCount = c.stateCount := by
  induction states generalizing c with
  | nil => rfl
  | cons s states ih => exact ih (c.record depth s (M.reached s w))

/-- Behind a word, the entries of the given states at the given depth are new. -/
theorem get?_recordWord (M : Machine) (c : SuccessorTable) (depth : Nat) (w : Word)
    {states : List State} (h : ∀ s ∈ states, s.index < c.stateCount) (other : Nat) (t : State) :
    (c.recordWord M depth w states).get? other t =
      if depth = other ∧ t ∈ states then some (M.reached t w) else c.get? other t := by
  induction states generalizing c with
  | nil => simp [recordWord]
  | cons s states ih =>
    have hs := h s List.mem_cons_self
    have hrest := ih (c.record depth s (M.reached s w)) fun u hu => h u (List.mem_cons_of_mem _ hu)
    rw [recordWord, List.foldl_cons, ← recordWord, hrest]
    by_cases heq : depth = other ∧ s = t
    · obtain ⟨rfl, rfl⟩ := heq
      simp [get?_record_self c depth hs]
    · have hne : depth ≠ other ∨ s ≠ t := Decidable.not_and_iff_or_not.mp heq
      have := get?_record_ne c (M.reached s w) hne
      grind

theorem isEmpty_iff {c : SuccessorTable} : c.isEmpty ↔ c.depth = 0 := by
  simp [isEmpty, depth]

/-- An entry is in one of the rows. -/
theorem lt_depth {c : SuccessorTable} {d : Nat} {s x : State} (h : c.get? d s = some x) :
    d < c.depth := by
  obtain ⟨row, hrow, -⟩ := Option.bind_eq_some_iff.mp h
  exact (Array.getElem?_eq_some_iff.mp hrow).1

@[simp]
theorem depth_record (c : SuccessorTable) (depth : Nat) (s successor : State) :
    (c.record depth s successor).depth = max c.depth (depth + 1) := by
  simp only [SuccessorTable.depth, record, Array.size_modify, Array.size_append,
    Array.size_replicate]
  omega

theorem tight_empty (stateCount : Nat) : (empty stateCount).Tight := by
  intro d hd
  simp [depth, empty] at hd

/-- An entry adds rows only up to its own. -/
theorem Tight.record {c : SuccessorTable} (h : c.Tight) (depth : Nat) {s : State}
    (hs : s.index < c.stateCount) (successor : State) : (c.record depth s successor).Tight := by
  intro d hd
  rw [depth_record] at hd
  by_cases hlast : d = depth
  · subst hlast
    exact ⟨s, by rw [get?_record_self c d hs]; rfl⟩
  · obtain ⟨u, hu⟩ := h d (by omega)
    exact ⟨u, by rwa [get?_record_ne c successor (.inl (Ne.symm hlast))]⟩

theorem Tight.recordWord {c : SuccessorTable} (h : c.Tight) (M : Machine) (depth : Nat) (w : Word)
    {states : List State} (hs : ∀ s ∈ states, s.index < c.stateCount) :
    (c.recordWord M depth w states).Tight := by
  induction states generalizing c with
  | nil => exact h
  | cons s states ih =>
    obtain ⟨hfirst, hrest⟩ := List.forall_mem_cons.mp hs
    exact ih (h.record depth hfirst _) hrest

end SuccessorTable

end StateIdentification
