import StateIdentification.Machine.Submachine
import StateIdentification.Proofs.LeastWords
import StateIdentification.Proofs.StateEquivalence

/-!
# The reachable submachine behaves like the machine

A restricted machine numbers its states by their places in a list. On each input it does in a state
what the machine does in the state at that place, so it does the same on every word. For the list of
reachable states this means that nothing is lost by leaving out the other ones.

## Main definitions

- `Machine.Mirrors`: the states of a machine stand for a list of states of another machine.

## Main results

- `Machine.mirrors_restrict`: a restricted machine stands for the states that it was restricted to.
- `Machine.Mirrors.outputs_eq`, `Machine.Mirrors.reached`: what that means for words.
- `Machine.reachableSubmachine_behaves`: the reachable submachine.
-/

namespace StateIdentification.Machine

/-- State number `n` of machine `A` stands for the state of machine `M` at place `n` of a list: on
every input it has the same output, and the state that the input leads to stands for the one that
the input leads to in `M`. -/
structure Mirrors (A M : Machine) (order : List State) : Prop where
  stateCount_eq : A.stateCount = order.length
  inputCount_eq : A.inputCount = M.inputCount
  outputCount_eq : A.outputCount = M.outputCount
  output_eq : ∀ {n : Nat} {s : State} {i : Input}, order[n]? = some s → i ∈ M.inputs →
    A.output ⟨n⟩ i = M.output s i
  successor : ∀ {n : Nat} {s : State} {i : Input}, order[n]? = some s → i ∈ M.inputs →
    order[(A.successor ⟨n⟩ i).index]? = some (M.successor s i)

variable {A M : Machine} {order : List State} {origin s u : State} {n m : Nat} {w : Word}

theorem mirrors_restrict (nonempty : 0 < order.length) (known : ∀ s ∈ order, s ∈ M.states)
    (closed : ∀ s ∈ order, ∀ i ∈ M.inputs, M.successor s i ∈ order) :
    (M.restrict order nonempty known closed).Mirrors M order := by
  let A := M.restrict order nonempty known closed
  refine ⟨rfl, rfl, rfl, fun {n s i} hs hi => ?_, fun {n s i} hs hi => ?_⟩
  · obtain ⟨hn, rfl⟩ := List.getElem?_eq_some_iff.mp hs
    have hentry : A.output ⟨n⟩ i = _ := A.output_fin ⟨n, hn⟩ ⟨i.index, mem_inputs.mp hi⟩
    simpa [A, restrict] using hentry
  · obtain ⟨hn, rfl⟩ := List.getElem?_eq_some_iff.mp hs
    have hentry : A.successor ⟨n⟩ i = _ := A.successor_fin ⟨n, hn⟩ ⟨i.index, mem_inputs.mp hi⟩
    have hmem : order[n] ∈ order := List.getElem_mem hn
    rw [hentry]
    simpa [A, restrict] using
      getElem?_renumber (successor_mem (known _ hmem) i) (closed _ hmem i hi)

theorem mirrors_reachableSubmachine (ho : origin ∈ M.states) :
    (M.reachableSubmachine origin ho).Mirrors M (M.reachableStates origin) :=
  mirrors_restrict ..

namespace Mirrors

theorem mem_states_iff (h : A.Mirrors M order) : (⟨n⟩ : State) ∈ A.states ↔ n < order.length := by
  rw [mem_states, h.stateCount_eq]

theorem exists_state (h : A.Mirrors M order) (hs : s ∈ A.states) :
    ∃ u, order[s.index]? = some u :=
  ⟨_, List.getElem?_eq_getElem (h.mem_states_iff.mp hs)⟩

theorem inputs_eq (h : A.Mirrors M order) : A.inputs = M.inputs := by
  rw [inputs, inputs, h.inputCount_eq]

/-- A word leads to a number that stands for the state that it leads to in the other machine. -/
theorem reached (h : A.Mirrors M order) (hs : order[n]? = some s) (hw : ∀ i ∈ w, i ∈ M.inputs) :
    order[(A.reached ⟨n⟩ w).index]? = some (M.reached s w) := by
  induction w generalizing n s with
  | nil => exact hs
  | cons i w ih =>
    obtain ⟨hi, hw⟩ := List.forall_mem_cons.mp hw
    exact ih (h.successor hs hi) hw

/-- Both machines answer every word alike. -/
theorem outputs_eq (h : A.Mirrors M order) (hs : order[n]? = some s) (hw : ∀ i ∈ w, i ∈ M.inputs) :
    A.outputs ⟨n⟩ w = M.outputs s w := by
  induction w generalizing n s with
  | nil => rfl
  | cons i w ih =>
    obtain ⟨hi, hw⟩ := List.forall_mem_cons.mp hw
    rw [outputs_cons, outputs_cons, h.output_eq hs hi, ih (h.successor hs hi) hw]

/-- If the list has no repetitions, the same states are reached. -/
theorem reaches_iff (h : A.Mirrors M order) (hn : order.Nodup) (hs : order[n]? = some s)
    (hu : order[m]? = some u) : A.Reaches ⟨n⟩ ⟨m⟩ ↔ M.Reaches s u := by
  simp only [Reaches, h.inputs_eq]
  refine exists_congr fun w => and_congr_right fun hw => ?_
  have hreached := h.reached hs hw
  constructor
  · intro hm
    rw [hm, hu] at hreached
    exact (Option.some.inj hreached).symm
  · intro hsu
    rw [hsu] at hreached
    obtain ⟨hlt, -⟩ := List.getElem?_eq_some_iff.mp hreached
    exact Handle.ext ((List.getElem?_inj hlt hn).mp (hreached.trans hu.symm))

/-- Different states of a reduced machine are separated in a machine that stands for them, too. -/
theorem reduced (h : A.Mirrors M order) (hn : order.Nodup) (known : ∀ s ∈ order, s ∈ M.states)
    (hM : M.Reduced) : A.Reduced := by
  intro s hs u hu hne
  obtain ⟨x, hx⟩ := h.exists_state hs
  obtain ⟨y, hy⟩ := h.exists_state hu
  have hxy : x ≠ y := by
    rintro rfl
    exact hne (Handle.ext ((List.getElem?_inj (h.mem_states_iff.mp hs) hn).mp (hx.trans hy.symm)))
  obtain ⟨w, hw, hsep⟩ :=
    hM x (known x (List.mem_of_getElem? hx)) y (known y (List.mem_of_getElem? hy)) hxy
  refine ⟨w, h.inputs_eq ▸ hw, ?_⟩
  rw [separates] at hsep ⊢
  rwa [h.outputs_eq hx hw, h.outputs_eq hy hw]

end Mirrors

/-- The first place in the list of reachable states belongs to the state where the search starts. -/
theorem getElem?_reachableStates_zero (M : Machine) (origin : State) :
    (M.reachableStates origin)[0]? = some origin := by
  rw [← List.head?_eq_getElem?, M.head?_reachableStates]

/-- The reachable submachine has a state for each reachable state, and all of its own states can be
reached. From each of them it answers every word like the machine, and it ends in the number of the
state in which the machine ends. In particular no target lacks a number. If the machine is minimal,
so is the submachine. -/
theorem reachableSubmachine_behaves [RandomSource] (ho : origin ∈ M.states) :
    let order := M.reachableStates origin
    let A := M.reachableSubmachine origin ho
    A.stateCount = order.length ∧ A.inputs = M.inputs ∧
      (∀ s ∈ order, ∀ i ∈ M.inputs, ∃ n < order.length,
        (M.numbering order)[(M.successor s i).index]? = some (some ⟨n⟩)) ∧
      (∀ s ∈ A.states, ∀ i ∈ A.inputs, (A.successor s i).index < order.length) ∧
      (∀ s ∈ A.states, A.Reaches .first s) ∧
      (∀ (n : Nat) (s : State), order[n]? = some s → ∀ w : Word, (∀ i ∈ w, i ∈ M.inputs) →
        A.outputs ⟨n⟩ w = M.outputs s w ∧
          order[(A.reached ⟨n⟩ w).index]? = some (M.reached s w)) ∧
      (M.isMinimal → A.isMinimal) := by
  intro order A
  have h : A.Mirrors M order := mirrors_reachableSubmachine ho
  have hn : order.Nodup := M.nodup_reachableStates origin
  have known (s : State) (hs : s ∈ order) : s ∈ M.states := mem_states_of_mem_reachableStates ho hs
  refine ⟨h.stateCount_eq, h.inputs_eq, fun s hs i hi => ?_, fun s hs i hi => ?_, fun s hs => ?_,
    fun n s hs w hw => ⟨h.outputs_eq hs hw, h.reached hs hw⟩, fun hmin => ?_⟩
  · obtain ⟨n, hn, hnumber⟩ := getElem?_numbering (successor_mem (known s hs) i)
      (successor_mem_reachableStates hs hi)
    exact ⟨n, (List.getElem?_eq_some_iff.mp hn).1, hnumber⟩
  · exact h.mem_states_iff.mp (successor_mem hs i)
  · obtain ⟨u, hu⟩ := h.exists_state hs
    have hfirst := M.getElem?_reachableStates_zero origin
    exact (h.reaches_iff hn hfirst hu).mpr (mem_reachableStates_iff.mp (List.mem_of_getElem? hu))
  · rw [isMinimal_iff_reduced] at hmin ⊢
    exact h.reduced hn known hmin

/-- State `0` leads to state `2`, and the states `1` and `2` lead to state `0`. No word leads from
state `0` to state `1`. Each state emits its own number. -/
def bypass : Machine := ⟨3, 1, 3, .ofFn fun s _ => ⟨if s = 0 then 2 else 0, s⟩, by decide⟩

/-- From state `0`, both machines emit the numbers `0` and `2` in turn, and both are minimal. -/
theorem reachableSubmachine_behaves_bypass : ∃ ho : (⟨0⟩ : State) ∈ bypass.states,
    (bypass.reachableSubmachine ⟨0⟩ ho).outputs ⟨0⟩ [⟨0⟩, ⟨0⟩, ⟨0⟩] = [⟨0⟩, ⟨2⟩, ⟨0⟩] ∧
      (bypass.reachableSubmachine ⟨0⟩ ho).isMinimal := by
  have ho : (⟨0⟩ : State) ∈ bypass.states := by decide
  obtain ⟨-, -, -, -, -, hwords, hminimal⟩ := reachableSubmachine_behaves ho
  have hfirst := bypass.getElem?_reachableStates_zero ⟨0⟩
  obtain ⟨houtputs, -⟩ := hwords 0 ⟨0⟩ hfirst [⟨0⟩, ⟨0⟩, ⟨0⟩] (by decide)
  have hreduced : bypass.Reduced := by
    intro s hs u hu hne
    have apart : ∀ s ∈ bypass.states, ∀ u ∈ bypass.states, s ≠ u → bypass.separates s u [⟨0⟩] := by
      decide
    exact ⟨[⟨0⟩], by decide, apart s hs u hu hne⟩
  exact ⟨ho, houtputs, hminimal (bypass.isMinimal_iff_reduced.mpr hreduced)⟩

end StateIdentification.Machine
