import StateIdentification.Machine.Reachability

/-!
# The reachable submachine

A machine restricted to the states that can be reached from one of its states. The states are
numbered in the order of the exploration, which depends on the behaviour alone and not on the
numbers that they had.

## Main definitions

- `Machine.numbering`, `Machine.renumber`: the new numbers of states, as a table and one by one.
- `Machine.restrict`: the restriction to states that are not left.
- `Machine.reachableSubmachine`: the restriction to the reachable states, numbered breadth-first.
-/

namespace StateIdentification.Machine

/-- Enters ascending numbers, the first of which is `n`, for the states of a list. -/
def numberFrom (numbers : Array (Option State)) (n : Nat) : List State → Array (Option State)
  | [] => numbers
  | s :: order => numberFrom (numbers.setIfInBounds s.index (some ⟨n⟩)) (n + 1) order

/-- The table of new numbers, in which the states of a list have the numbers of their places. -/
def numbering (M : Machine) (order : List State) : Array (Option State) :=
  numberFrom (Array.replicate M.stateCount none) 0 order

/-- The new number of a state. A state that has none keeps its own. -/
def renumber (numbers : Array (Option State)) (s : State) : State :=
  (numbers[s.index]?.join).getD s

section Numbers

variable {M : Machine} {numbers : Array (Option State)} {order : List State} {s : State}

theorem getElem?_numberFrom_of_notMem (hs : s ∉ order) (n : Nat) :
    (numberFrom numbers n order)[s.index]? = numbers[s.index]? := by
  induction order generalizing numbers n with
  | nil => rfl
  | cons t order ih =>
    obtain ⟨hne, hs⟩ := List.ne_and_not_mem_of_not_mem_cons hs
    have hindex : t.index ≠ s.index := fun heq => hne (Handle.ext heq.symm)
    rw [numberFrom, ih hs, Array.getElem?_setIfInBounds_ne hindex]

theorem getElem?_numberFrom (hlt : s.index < numbers.size) (hs : s ∈ order) (n : Nat) :
    ∃ k, order[k]? = some s ∧ (numberFrom numbers n order)[s.index]? = some (some ⟨n + k⟩) := by
  induction order generalizing numbers n with
  | nil => cases hs
  | cons t order ih =>
    rw [numberFrom]
    by_cases hmem : s ∈ order
    · have hlt' : s.index < (numbers.setIfInBounds t.index (some ⟨n⟩)).size := by
        rwa [Array.size_setIfInBounds]
      obtain ⟨k, hk, hnumber⟩ := ih hlt' hmem (n + 1)
      exact ⟨k + 1, hk, by rw [hnumber, Nat.add_right_comm, Nat.add_assoc]⟩
    · obtain rfl := (List.mem_cons.mp hs).resolve_right hmem
      exact ⟨0, rfl, by simp [getElem?_numberFrom_of_notMem hmem, hlt]⟩

/-- A listed state has the number of a place where it stands. -/
theorem getElem?_numbering (hM : s ∈ M.states) (hs : s ∈ order) :
    ∃ k, order[k]? = some s ∧ (M.numbering order)[s.index]? = some (some ⟨k⟩) := by
  have hlt : s.index < (Array.replicate M.stateCount (none : Option State)).size := by
    simpa using hM
  simpa [numbering] using getElem?_numberFrom hlt hs 0

/-- The new number of a listed state is a place where it stands. -/
theorem getElem?_renumber (hM : s ∈ M.states) (hs : s ∈ order) :
    order[(renumber (M.numbering order) s).index]? = some s := by
  obtain ⟨k, hk, hnumber⟩ := getElem?_numbering hM hs
  simpa [renumber, hnumber] using hk

theorem renumber_lt (hM : s ∈ M.states) (hs : s ∈ order) :
    (renumber (M.numbering order) s).index < order.length :=
  (List.getElem?_eq_some_iff.mp (getElem?_renumber hM hs)).1

end Numbers

/-- The machine restricted to some of its states, which are numbered by their places in the list. No
input may lead out of them. -/
def restrict (M : Machine) (order : List State) (nonempty : 0 < order.length)
    (known : ∀ s ∈ order, s ∈ M.states)
    (closed : ∀ s ∈ order, ∀ i ∈ M.inputs, M.successor s i ∈ order) : Machine where
  stateCount := order.length
  inputCount := M.inputCount
  outputCount := M.outputCount
  table :=
    let numbers := M.numbering order
    .ofFn fun s i =>
      have hs : order[s] ∈ order := List.getElem_mem _
      have hi : ⟨i⟩ ∈ M.inputs := mem_inputs.mpr i.isLt
      { target :=
          ⟨(renumber numbers (M.successor order[s] ⟨i⟩)).index,
            renumber_lt (successor_mem (known _ hs) _) (closed _ hs _ hi)⟩
        output := ⟨(M.output order[s] ⟨i⟩).index, output_lt (known _ hs) hi⟩ }
  stateCount_pos := nonempty

/-- The machine restricted to the states that can be reached from `origin`, which becomes its first
state. -/
def reachableSubmachine (M : Machine) (origin : State) (h : origin ∈ M.states) : Machine :=
  M.restrict (M.reachableStates origin)
    (List.length_pos_of_mem (M.origin_mem_reachableStates origin))
    (fun _ hs => mem_states_of_mem_reachableStates h hs)
    (fun _ hs _ hi => successor_mem_reachableStates hs hi)

end StateIdentification.Machine
