import StateIdentification.Machine.InputOrder
import StateIdentification.Machine.Run

/-!
# Exploring a machine breadth-first

The states that can be reached from a state are found breadth-first, each with the word on which it
is found first.

## Main definitions

- `Visit`: a state and a word that leads to it.
- `Machine.explore`: all visits in the order in which they happen.
-/

namespace StateIdentification

/-- A state that was found, and the word that leads to it. -/
structure Visit where
  state : State
  word : Word
deriving DecidableEq, Repr

namespace Machine

variable (M : Machine)

/-- The visits that continue `v` by one input to states that are not yet `known`. -/
def discover (v : Visit) : List State → List Input → List Visit
  | _, [] => []
  | known, i :: is =>
    let target := M.successor v.state i
    if target ∈ known then discover v known is
    else ⟨target, v.word ++ [i]⟩ :: discover v (target :: known) is

/-- The number of states that are not yet known. -/
def unseen (known : List State) : Nat := M.states.countP (· ∉ known)

variable {M}

theorem unseen_congr {xs ys : List State} (h : ∀ s, s ∈ xs ↔ s ∈ ys) :
    M.unseen xs = M.unseen ys := by
  simp [unseen, h]

theorem unseen_cons_lt {known : List State} {s : State} (hs : s ∈ M.states) (hn : s ∉ known) :
    M.unseen (s :: known) < M.unseen known := by
  have split (l : List State) : l.countP (· ∉ known) =
      l.countP (· ∉ s :: known) + l.countP (fun t => t = s ∧ t ∉ known) := by
    induction l <;> grind
  have pos : 0 < M.states.countP (fun t => t = s ∧ t ∉ known) :=
    List.countP_pos_iff.mpr ⟨s, hs, by simpa using hn⟩
  have := split M.states
  simp only [unseen]
  omega

/-- A state that does not belong to the machine is never left. -/
theorem successor_of_notMem {s : State} (h : s ∉ M.states) (i : Input) : M.successor s i = s := by
  rw [mem_states] at h
  simp [successor, transition, transition?, h]

/-- Every discovery makes an unseen state a known one. -/
theorem discover_unseen (v : Visit) {known : List State} (hv : v.state ∈ known)
    (is : List Input) :
    (M.discover v known is).length +
      M.unseen (known ++ (M.discover v known is).map (·.state)) ≤ M.unseen known := by
  fun_induction discover with
  | case1 => simp
  | case2 known i is target h ih => exact ih hv
  | case3 known i is target h ih =>
    have hs : v.state ∈ M.states :=
      Decidable.byContradiction fun hn => h (by simpa [target, successor_of_notMem hn] using hv)
    have hlt : M.unseen (target :: known) < M.unseen known :=
      unseen_cons_lt (successor_mem hs i) h
    have hle := ih (List.mem_cons_of_mem _ hv)
    have hc : M.unseen (known ++ target :: (M.discover v (target :: known) is).map (·.state)) =
        M.unseen (target :: known ++ (M.discover v (target :: known) is).map (·.state)) :=
      unseen_congr (by simp; grind)
    simp only [List.length_cons, List.map_cons]
    omega

theorem mem_states_of_mem_discover {v u : Visit} {known : List State} {is : List Input}
    (hv : v.state ∈ M.states) (h : u ∈ M.discover v known is) : u.state ∈ M.states := by
  fun_induction discover with
  | case1 => simp at h
  | case2 known i is target _ ih => exact ih h
  | case3 known i is target _ ih =>
    rcases List.mem_cons.mp h with rfl | h
    · exact successor_mem hv i
    · exact ih h

theorem successor_mem_discover (v : Visit) (known : List State) {is : List Input} {i : Input}
    (hi : i ∈ is) :
    M.successor v.state i ∈ known ++ (M.discover v known is).map (·.state) := by
  fun_induction discover with
  | case1 => simp at hi
  | case2 known j is target h ih => grind
  | case3 known j is target h ih => grind

variable (M) [RandomSource]

/-- Continues an exploration: the visits in `done` have been followed up on all inputs, and those in
`queue` are still to be followed up. -/
def exploreFrom (order : InputOrder) (done : List Visit) : List Visit → List Visit
  | [] => done
  | v :: queue =>
    let known := (done ++ v :: queue).map (·.state)
    exploreFrom order.refresh (done ++ [v]) (queue ++ M.discover v known order.refresh.inputs)
termination_by queue => M.unseen ((done ++ queue).map (·.state)) + queue.length
decreasing_by
  have hv : v.state ∈ known := by simp [known]
  have h := discover_unseen (M := M) v hv order.refresh.inputs
  simp only [known, List.map_append, List.map_cons, List.length_append, List.length_cons,
    List.append_assoc, List.cons_append, List.nil_append] at h ⊢
  omega

/-- The exploration ends with the state and its followers known: nothing that was found is lost. -/
theorem mem_exploreFrom {order : InputOrder} {done queue : List Visit} {v : Visit}
    (h : v ∈ done ++ queue) : v ∈ M.exploreFrom order done queue := by
  fun_induction exploreFrom with
  | case1 => simpa using h
  | case2 order done u queue known ih => exact ih (by grind)

/-- All states that can be reached from `origin`, in breadth-first order. -/
def explore (order : InputOrder) (origin : State) : List Visit :=
  M.exploreFrom order [] [⟨origin, []⟩]

variable {M}

theorem mem_states_of_mem_exploreFrom {order : InputOrder} {done queue : List Visit}
    (h : ∀ v ∈ done ++ queue, v.state ∈ M.states) :
    ∀ v ∈ M.exploreFrom order done queue, v.state ∈ M.states := by
  fun_induction exploreFrom with
  | case1 => simpa using h
  | case2 order done v queue known ih =>
    apply ih
    intro u hu
    have hd (hm : u ∈ M.discover v known order.refresh.inputs) : u.state ∈ M.states :=
      mem_states_of_mem_discover (h v (by simp)) hm
    grind

/-- An exploration is closed: from what it found, the inputs lead nowhere else. -/
theorem successor_mem_exploreFrom {order : InputOrder} {done queue : List Visit}
    (ho : order.inputs.Perm M.inputs)
    (h : ∀ v ∈ done, ∀ i ∈ M.inputs, M.successor v.state i ∈ (done ++ queue).map (·.state)) :
    ∀ v ∈ M.exploreFrom order done queue, ∀ i ∈ M.inputs,
      M.successor v.state i ∈ (M.exploreFrom order done queue).map (·.state) := by
  fun_induction exploreFrom with
  | case1 => simpa using h
  | case2 order done v queue known ih =>
    have hp := order.refresh_perm.trans ho
    refine ih hp fun u hu i hi => ?_
    have hd := successor_mem_discover (M := M) v known (hp.mem_iff.mpr hi)
    grind

end Machine

end StateIdentification
