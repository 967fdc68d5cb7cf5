import StateIdentification.Machine.Exploration
import StateIdentification.Random.Generator

/-!
# Reachable states

The states that can be reached from a state, in breadth-first order with ascending inputs. The
search keeps no words, only a mark for every state that was seen. Still it finds the states in the
order in which an exploration visits them.

## Main definitions

- `Machine.lineUp`: what following up one state adds to the marks and to the queue.
- `Machine.reachableStates`: the reachable states in the order in which they are found.

## Main results

- `Machine.reachableStates_eq`: they are the states that an exploration visits.
-/

namespace StateIdentification.Machine

variable (M : Machine)

/-- Whether a state is marked. There are marks for the states of a machine, and any other state
counts as marked. -/
def isMarked (seen : Array Bool) (s : State) : Bool := seen[s.index]?.getD true

/-- Marks a state. -/
def mark (seen : Array Bool) (s : State) : Array Bool := seen.setIfInBounds s.index true

/-- The marks and the queue after state `s` was followed up: the states that the inputs lead to are
marked and join the queue, unless they are marked already. -/
def lineUp (s : State) (seen : Array Bool) (queue : List State) :
    List Input → Array Bool × List State
  | [] => (seen, queue)
  | i :: is =>
    let target := M.successor s i
    if isMarked seen target then lineUp s seen queue is
    else lineUp s (mark seen target) (queue ++ [target]) is

/-- One mark more is one state less that is not marked. -/
theorem count_mark {seen : Array Bool} {s : State} (h : ¬ isMarked seen s) :
    (mark seen s).count false + 1 = seen.count false := by
  have hlt : s.index < seen.size := by
    apply Decidable.byContradiction
    intro hout
    simp [isMarked, Nat.not_lt.mp hout] at h
  have hs : seen[s.index] = false := by simpa [isMarked, hlt] using h
  have hpos : 0 < seen.count false := Array.count_pos_iff.mpr (hs ▸ Array.getElem_mem hlt)
  have hset : (seen.set s.index true).count false = seen.count false - 1 := by
    simp [Array.count_set, hs]
  simp only [mark, Array.setIfInBounds, dif_pos hlt, hset]
  omega

/-- Every state that joins the queue gets a mark. -/
theorem count_lineUp (s : State) (seen : Array Bool) (queue : List State) (is : List Input) :
    (M.lineUp s seen queue is).1.count false + (M.lineUp s seen queue is).2.length =
      seen.count false + queue.length := by
  fun_induction lineUp with
  | case1 => rfl
  | case2 seen queue i is target h ih => exact ih
  | case3 seen queue i is target h ih =>
    have := count_mark h
    simp only [ih, List.length_append, List.length_singleton]
    omega

/-- Continues a search: the states in `order` have been followed up on all inputs, and those in the
queue are still to be followed up. -/
def searchFrom (seen : Array Bool) (order : List State) : List State → List State
  | [] => order
  | s :: queue =>
    let next := M.lineUp s seen queue M.inputs
    searchFrom next.1 (order ++ [s]) next.2
termination_by queue => seen.count false + queue.length
decreasing_by
  have := M.count_lineUp s seen queue M.inputs
  rw [List.length_cons]
  omega

/-- The states that can be reached, in breadth-first order with ascending inputs. -/
def reachableStates (origin : State) : List State :=
  M.searchFrom (mark (Array.replicate M.stateCount false) origin) [] [origin]

/-- There is a mark for each state of the machine, and it tells whether the state is known. -/
structure Tracks (M : Machine) (seen : Array Bool) (known : List State) : Prop where
  size_eq : seen.size = M.stateCount
  iff_mem : ∀ s ∈ M.states, isMarked seen s ↔ s ∈ known

variable {M} {seen : Array Bool} {known : List State} {s : State}

namespace Tracks

theorem congr {known' : List State} (h : M.Tracks seen known)
    (heq : ∀ s, s ∈ known ↔ s ∈ known') : M.Tracks seen known' :=
  ⟨h.size_eq, fun s hs => (h.iff_mem s hs).trans (heq s)⟩

theorem blank (M : Machine) : M.Tracks (Array.replicate M.stateCount false) [] := by
  refine ⟨by simp, fun s hs => ?_⟩
  simp [isMarked, mem_states.mp hs]

theorem mark (h : M.Tracks seen known) (s : State) :
    M.Tracks (mark seen s) (s :: known) := by
  refine ⟨by simp [Machine.mark, h.size_eq], fun u hu => ?_⟩
  have hiff := h.iff_mem u hu
  have hlt : u.index < seen.size := h.size_eq ▸ mem_states.mp hu
  simp only [isMarked, Machine.mark, Array.getElem?_setIfInBounds, List.mem_cons] at hiff ⊢
  grind [Handle.ext]

/-- The marks tell which inputs lead from a known state to known states. -/
theorem successor_iff (h : M.Tracks seen known) (hs : s ∈ known) (i : Input) :
    isMarked seen (M.successor s i) ↔ M.successor s i ∈ known := by
  by_cases hM : s ∈ M.states
  · exact h.iff_mem _ (successor_mem hM i)
  · have hout : seen.size ≤ s.index := h.size_eq ▸ Nat.not_lt.mp fun hlt => hM (mem_states.mpr hlt)
    simp [successor_of_notMem hM, hs, isMarked, hout]

end Tracks

/-- The states that join the queue are those that an exploration discovers. -/
theorem Tracks.lineUp {v : Visit} (h : M.Tracks seen known) (hv : v.state ∈ known)
    (queue : List State) (is : List Input) :
    (M.lineUp v.state seen queue is).2 = queue ++ (M.discover v known is).map (·.state) ∧
      M.Tracks (M.lineUp v.state seen queue is).1
        (known ++ (M.discover v known is).map (·.state)) := by
  induction is generalizing seen known queue with
  | nil => simpa [Machine.lineUp, discover] using h
  | cons i is ih =>
    have hiff := h.successor_iff hv i
    rw [Machine.lineUp, discover]
    by_cases hmem : M.successor v.state i ∈ known
    · simp only [hiff.mpr hmem, hmem, if_true]
      exact ih h hv queue
    · have hnew := ih (h.mark (M.successor v.state i)) (List.mem_cons_of_mem _ hv)
        (queue ++ [M.successor v.state i])
      simp only [mt hiff.mp hmem, hmem, if_false]
      refine ⟨by simpa using hnew.1, hnew.2.congr fun s => ?_⟩
      simp only [List.map_cons, List.mem_append, List.mem_cons]
      grind

section

variable [RandomSource]

/-- A search goes on like an exploration with ascending inputs. -/
theorem searchFrom_eq (M : Machine) (done queue : List Visit) (seen : Array Bool)
    (h : M.Tracks seen ((done ++ queue).map (·.state))) :
    M.searchFrom seen (done.map (·.state)) (queue.map (·.state)) =
      (M.exploreFrom ⟨M.inputs, none⟩ done queue).map (·.state) := by
  generalize horder : (⟨M.inputs, none⟩ : InputOrder) = order
  revert seen
  fun_induction exploreFrom with
  | case1 => simp [searchFrom]
  | case2 order done v queue known ih =>
    intro seen h
    subst horder
    obtain ⟨hqueue, hmarks⟩ := h.lineUp (by simp) (queue.map (·.state)) M.inputs (v := v)
    have hrest := ih rfl _ (by simpa [known, InputOrder.refresh] using hmarks)
    rw [List.map_cons, searchFrom, hqueue]
    simpa [known, InputOrder.refresh] using hrest

/-- The search finds the states that an exploration visits, in the same order. -/
theorem reachableStates_eq (M : Machine) (origin : State) :
    M.reachableStates origin = (M.explore ⟨M.inputs, none⟩ origin).map (·.state) :=
  M.searchFrom_eq [] [⟨origin, []⟩] _ ((Tracks.blank M).mark origin)

end

theorem origin_mem_reachableStates (M : Machine) (origin : State) :
    origin ∈ M.reachableStates origin := by
  rw [reachableStates_eq]
  exact List.mem_map.mpr ⟨⟨origin, []⟩, M.mem_exploreFrom (by simp), rfl⟩

theorem successor_mem_reachableStates {origin : State} {i : Input}
    (h : s ∈ M.reachableStates origin) (hi : i ∈ M.inputs) :
    M.successor s i ∈ M.reachableStates origin := by
  rw [reachableStates_eq] at h ⊢
  obtain ⟨v, hv, rfl⟩ := List.mem_map.mp h
  exact successor_mem_exploreFrom (.refl _) (by simp) v hv i hi

theorem mem_states_of_mem_reachableStates {origin : State} (ho : origin ∈ M.states)
    (h : s ∈ M.reachableStates origin) : s ∈ M.states := by
  rw [reachableStates_eq] at h
  obtain ⟨v, hv, rfl⟩ := List.mem_map.mp h
  exact mem_states_of_mem_exploreFrom (by simpa using ho) v hv

end StateIdentification.Machine
