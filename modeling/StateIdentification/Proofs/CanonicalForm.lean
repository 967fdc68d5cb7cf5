import Mathlib.Data.Set.Function
import Mathlib.Logic.Equiv.Basic
import StateIdentification.Proofs.SubmachineBehaviour

/-!
# The reachable submachine is a canonical form

If the reachable states of one machine correspond to those of another one, an exploration of the one
and an exploration of the other go hand in hand: at every step the visits of the one are those of
the other with the corresponding states. So both find their states in corresponding orders, and as
the states are numbered in these orders, the reachable submachines are the same. The other way
round, the states of a common submachine stand for states of both machines, which thereby
correspond.

## Main definitions

- `Machine.Carries`: a correspondence between the reachable states of two machines.
- `Machine.rename`: a machine whose states have other numbers.

## Main results

- `Machine.Carries.reachableStates_eq`: the reachable states are found in corresponding orders.
- `Machine.Mirrors.unique`, `Machine.Mirrors.carries`: machines that stand for the same states.
- `Machine.reachableSubmachine_eq_iff`: when two machines have the same reachable submachine.
-/

namespace StateIdentification

/-- The visit of the corresponding state. -/
def Visit.rename (f : State → State) (v : Visit) : Visit := ⟨f v.state, v.word⟩

namespace Machine

/-- The states that can be reached from `q` in `M` correspond one to one to those that can be
reached from `r` in `N`: on every input, corresponding states emit the same output and are left for
corresponding states. -/
structure Carries (f : State → State) (M N : Machine) (q r : State) : Prop where
  bijOn : Set.BijOn f {s | M.Reaches q s} {u | N.Reaches r u}
  origin_eq : f q = r
  output_eq : ∀ {s : State} {i : Input}, M.Reaches q s → i ∈ M.inputs →
    N.output (f s) i = M.output s i
  successor_eq : ∀ {s : State} {i : Input}, M.Reaches q s → i ∈ M.inputs →
    N.successor (f s) i = f (M.successor s i)

variable {A B M N : Machine} {f : State → State} {q r s u : State} {order order' : List State}
  {n : Nat}

/-- Where different reachable states have different counterparts, nothing else can be reached from
the counterpart of the first state. -/
theorem carries_of_injOn (hinputs : M.inputs = N.inputs) (inj : Set.InjOn f {s | M.Reaches q s})
    (output : ∀ s i, M.Reaches q s → i ∈ M.inputs → N.output (f s) i = M.output s i)
    (successor : ∀ s i, M.Reaches q s → i ∈ M.inputs → N.successor (f s) i = f (M.successor s i)) :
    Carries f M N q (f q) := by
  have reached {s : State} {w : Word} (hs : M.Reaches q s) (hw : ∀ i ∈ w, i ∈ M.inputs) :
      N.reached (f s) w = f (M.reached s w) := by
    induction w generalizing s with
    | nil => rfl
    | cons i w ih =>
      obtain ⟨hi, hw⟩ := List.forall_mem_cons.mp hw
      rw [reached_cons, reached_cons, successor s i hs hi, ih (hs.successor hi) hw]
  refine ⟨⟨?_, inj, ?_⟩, rfl, output _ _, successor _ _⟩
  · rintro s ⟨w, hw, rfl⟩
    exact ⟨w, hinputs ▸ hw, reached (.refl M q) hw⟩
  · rintro u ⟨w, hw, rfl⟩
    rw [← hinputs] at hw
    exact ⟨M.reached q w, ⟨w, hw, rfl⟩, (reached (.refl M q) hw).symm⟩

namespace Carries

variable {v : Visit} {known : List State} {is : List Input}

theorem eq_of_eq (h : Carries f M N q r) (hs : M.Reaches q s) (hu : M.Reaches q u)
    (heq : f s = f u) : s = u :=
  h.bijOn.injOn hs hu heq

theorem mem_map_iff (h : Carries f M N q r) (hknown : ∀ s ∈ known, M.Reaches q s)
    (hs : M.Reaches q s) : f s ∈ known.map f ↔ s ∈ known := by
  refine ⟨fun hmem => ?_, List.mem_map_of_mem⟩
  obtain ⟨u, hu, heq⟩ := List.mem_map.mp hmem
  exact h.eq_of_eq (hknown u hu) hs heq ▸ hu

/-- From corresponding states, corresponding states are discovered. -/
theorem discover (h : Carries f M N q r) (hv : M.Reaches q v.state)
    (hknown : ∀ s ∈ known, M.Reaches q s) (his : ∀ i ∈ is, i ∈ M.inputs) :
    N.discover (v.rename f) (known.map f) is = (M.discover v known is).map (Visit.rename f) := by
  induction is generalizing known with
  | nil => rfl
  | cons i is ih =>
    obtain ⟨hi, his⟩ := List.forall_mem_cons.mp his
    have htarget : M.Reaches q (M.successor v.state i) := hv.successor hi
    have hsuccessor : N.successor (v.rename f).state i = f (M.successor v.state i) :=
      h.successor_eq hv hi
    rw [Machine.discover, Machine.discover, hsuccessor]
    by_cases hmem : M.successor v.state i ∈ known
    · simp only [(h.mem_map_iff hknown htarget).mpr hmem, hmem, if_true]
      exact ih hknown his
    · have hrest := ih (List.forall_mem_cons.mpr ⟨htarget, hknown⟩) his
      simp only [mt (h.mem_map_iff hknown htarget).mp hmem, hmem, if_false, List.map_cons]
      exact congrArg (_ :: ·) hrest

/-- Explorations that stand at corresponding visits end with corresponding visits. -/
theorem exploreFrom [RandomSource] (h : Carries f M N q r) (o : InputOrder)
    (done queue : List Visit) (ho : o.inputs.Perm M.inputs)
    (hvisits : ∀ v ∈ done ++ queue, M.Reaches q v.state) :
    N.exploreFrom o (done.map (Visit.rename f)) (queue.map (Visit.rename f)) =
      (M.exploreFrom o done queue).map (Visit.rename f) := by
  fun_induction Machine.exploreFrom M o done queue with
  | case1 o done => rw [List.map_nil, Machine.exploreFrom]
  | case2 o done v queue known ih =>
    have hp : o.refresh.inputs.Perm M.inputs := o.refresh_perm.trans ho
    have his (i : Input) (hi : i ∈ o.refresh.inputs) : i ∈ M.inputs := hp.subset hi
    have hv : M.Reaches q v.state := hvisits v (by simp)
    have hknown : ∀ s ∈ known, M.Reaches q s := List.forall_mem_map.mpr hvisits
    have hmap : ((done.map (Visit.rename f)) ++ v.rename f :: queue.map (Visit.rename f)).map
        (·.state) = known.map f := by
      simp [known, Visit.rename, Function.comp_def]
    rw [List.map_cons, Machine.exploreFrom, hmap, h.discover hv hknown his]
    have hrest := ih hp fun x hx => ?_
    · simpa using hrest
    · have hcases : x ∈ done ++ v :: queue ∨ x ∈ M.discover v known o.refresh.inputs := by grind
      rcases hcases with hx | hx
      · exact hvisits x hx
      · obtain ⟨i, hi, rfl⟩ := exists_of_mem_discover hx
        exact hv.successor (his i hi)

/-- The reachable states are found in corresponding orders. -/
theorem reachableStates_eq (h : Carries f M N q r) (hinputs : M.inputs = N.inputs) :
    N.reachableStates r = (M.reachableStates q).map f := by
  have hexplore := h.exploreFrom ⟨M.inputs, none⟩ [] [⟨q, []⟩] (.refl _) (by
    rintro v hv
    rw [List.mem_singleton.mp hv]
    exact .refl M q)
  rw [Machine.reachableStates_eq, Machine.reachableStates_eq, explore, explore, ← hinputs,
    ← h.origin_eq]
  calc _ = (N.exploreFrom ⟨M.inputs, none⟩ [] [⟨f q, []⟩]).map (·.state) := rfl
    _ = ((M.exploreFrom ⟨M.inputs, none⟩ [] [⟨q, []⟩]).map (Visit.rename f)).map (·.state) :=
      congrArg _ hexplore
    _ = _ := by simp [Visit.rename, Function.comp_def]

end Carries

/-- The state that another state stands for, as its number is a place in a list. -/
def stateAt (order : List State) (s : State) : State := (order[s.index]?).getD s

/-- The state at the same place of another list. -/
def counterpart (order order' : List State) (s : State) : State := stateAt order' ⟨order.idxOf s⟩

theorem stateAt_eq (hs : order[n]? = some s) : stateAt order ⟨n⟩ = s := by
  rw [stateAt, hs, Option.getD_some]

theorem counterpart_eq (hn : order.Nodup) (hs : order[n]? = some s) (hu : order'[n]? = some u) :
    counterpart order order' s = u := by
  obtain ⟨hlt, rfl⟩ := List.getElem?_eq_some_iff.mp hs
  rw [counterpart, hn.idxOf_getElem n hlt, stateAt_eq hu]

namespace Mirrors

/-- There is only one machine that stands for a list of states without repetitions. -/
theorem unique (hA : A.Mirrors M order) (hB : B.Mirrors M order) (hn : order.Nodup) : A = B := by
  refine eq_of_entries_eq (hA.stateCount_eq.trans hB.stateCount_eq.symm)
    (hA.inputCount_eq.trans hB.inputCount_eq.symm)
    (hA.outputCount_eq.trans hB.outputCount_eq.symm) fun s hs i hi => ?_
  obtain ⟨u, hu⟩ := hA.exists_state hs
  rw [hA.inputs_eq] at hi
  refine ⟨?_, (hA.output_eq hu hi).trans (hB.output_eq hu hi).symm⟩
  have hplace := hA.successor hu hi
  obtain ⟨hlt, -⟩ := List.getElem?_eq_some_iff.mp hplace
  exact Handle.ext ((List.getElem?_inj hlt hn).mp (hplace.trans (hB.successor hu hi).symm))

/-- A machine that stands for states also stands for the states that these correspond to. -/
theorem of_carries (hA : A.Mirrors N (order.map f)) (h : Carries f M N q r)
    (hreach : ∀ s ∈ order, M.Reaches q s) (hi : M.inputCount = N.inputCount)
    (ho : M.outputCount = N.outputCount) : A.Mirrors M order := by
  have hinputs : M.inputs = N.inputs := by rw [inputs, inputs, hi]
  have image {n : Nat} {s : State} (hs : order[n]? = some s) : (order.map f)[n]? = some (f s) := by
    rw [List.getElem?_map, hs, Option.map_some]
  refine ⟨hA.stateCount_eq.trans (List.length_map ..), hA.inputCount_eq.trans hi.symm,
    hA.outputCount_eq.trans ho.symm, fun hs hin => ?_, fun {n s i} hs hin => ?_⟩
  · rw [hA.output_eq (image hs) (hinputs ▸ hin),
      h.output_eq (hreach _ (List.mem_of_getElem? hs)) hin]
  · have hsr : M.Reaches q s := hreach s (List.mem_of_getElem? hs)
    have htarget := hA.successor (image hs) (hinputs ▸ hin)
    rw [h.successor_eq hsr hin, List.getElem?_map] at htarget
    obtain ⟨u, hu, heq⟩ := Option.map_eq_some_iff.mp htarget
    have hur : M.Reaches q u := hreach u (List.mem_of_getElem? hu)
    rw [hu, h.eq_of_eq hur (hsr.successor hin) heq]

/-- If a machine stands for the reachable states of two machines, these correspond by place. -/
theorem carries (hM : A.Mirrors M (M.reachableStates q)) (hN : A.Mirrors N (N.reachableStates r)) :
    Carries (counterpart (M.reachableStates q) (N.reachableStates r)) M N q r := by
  have hn := M.nodup_reachableStates q
  have hn' := N.nodup_reachableStates r
  generalize hf : counterpart (M.reachableStates q) (N.reachableStates r) = f
  have places {s : State} (hs : M.Reaches q s) :
      ∃ n : Nat, (M.reachableStates q)[n]? = some s ∧ (N.reachableStates r)[n]? = some (f s) := by
    obtain ⟨n, hsn⟩ := List.getElem?_of_mem (mem_reachableStates_iff.mpr hs)
    obtain ⟨u, hu⟩ := hN.exists_state (s := ⟨n⟩)
      (hM.mem_states_iff.mpr (List.getElem?_eq_some_iff.mp hsn).1)
    exact ⟨n, hsn, by rw [hu, ← hf, counterpart_eq hn hsn hu]⟩
  have hinputs : M.inputs = N.inputs := hM.inputs_eq.symm.trans hN.inputs_eq
  have horigin : f q = r := by
    rw [← hf]
    exact counterpart_eq hn (M.getElem?_reachableStates_zero q) (N.getElem?_reachableStates_zero r)
  have hcarries : Carries f M N q (f q) := by
    refine carries_of_injOn hinputs (fun s hs u hu heq => ?_) (fun s i hs hi => ?_)
      fun s i hs hi => ?_
    · obtain ⟨n, hsn, hsn'⟩ := places hs
      obtain ⟨m, hum, hum'⟩ := places hu
      obtain ⟨hlt, -⟩ := List.getElem?_eq_some_iff.mp hsn'
      obtain rfl : n = m := (List.getElem?_inj hlt hn').mp (by rw [hsn', heq, hum'])
      exact Option.some.inj (hsn.symm.trans hum)
    · obtain ⟨n, hsn, hsn'⟩ := places hs
      rw [← hN.output_eq hsn' (hinputs ▸ hi), hM.output_eq hsn hi]
    · obtain ⟨n, hsn, hsn'⟩ := places hs
      have htarget := counterpart_eq hn (hM.successor hsn hi) (hN.successor hsn' (hinputs ▸ hi))
      rw [← htarget, hf]
  rwa [horigin] at hcarries

end Mirrors

section Rename

variable (M) (π : Equiv.Perm (Fin M.stateCount))

/-- The machine in which state number `s` has the number `π s`. -/
def rename : Machine :=
  { M with
    table := .ofFn fun s i =>
      let cell := M.table.get (π.symm s) i
      ⟨π cell.target, cell.output⟩ }

/-- The state with the new number. -/
def renamed (s : State) : State :=
  if h : s.index < M.stateCount then ⟨π ⟨s.index, h⟩⟩ else s

variable {M} {π}

@[simp]
theorem renamed_fin (s : Fin M.stateCount) : M.renamed π ⟨s⟩ = ⟨π s⟩ := dif_pos s.isLt

theorem renamed_inj (hs : s ∈ M.states) (hu : u ∈ M.states)
    (heq : M.renamed π s = M.renamed π u) : s = u := by
  obtain ⟨s, rfl⟩ := exists_fin hs
  obtain ⟨u, rfl⟩ := exists_fin hu
  simp only [renamed_fin, Handle.mk.injEq, Fin.val_inj] at heq
  rw [π.injective heq]

theorem output_rename {i : Input} (hs : s ∈ M.states) (hi : i ∈ M.inputs) :
    (M.rename π).output (M.renamed π s) i = M.output s i := by
  obtain ⟨s, rfl⟩ := exists_fin hs
  obtain ⟨i, rfl⟩ := exists_fin_input hi
  have hentry : (M.rename π).output ⟨π s⟩ ⟨i⟩ = _ := (M.rename π).output_fin (π s) i
  rw [renamed_fin, hentry, output_fin]
  simp [rename]

/-- An input leads to the new number of the state that it leads to. -/
theorem successor_rename {i : Input} (hs : s ∈ M.states) (hi : i ∈ M.inputs) :
    (M.rename π).successor (M.renamed π s) i = M.renamed π (M.successor s i) := by
  obtain ⟨s, rfl⟩ := exists_fin hs
  obtain ⟨i, rfl⟩ := exists_fin_input hi
  have hentry : (M.rename π).successor ⟨π s⟩ ⟨i⟩ = _ := (M.rename π).successor_fin (π s) i
  rw [renamed_fin, hentry, successor_fin, renamed_fin]
  simp [rename]

/-- A machine whose states have other numbers has the same reachable states up to that. -/
theorem carries_rename (hq : q ∈ M.states) :
    Carries (M.renamed π) M (M.rename π) q (M.renamed π q) := by
  have known {s : State} (hs : M.Reaches q s) : s ∈ M.states := hs.mem_states hq
  exact carries_of_injOn rfl (fun s hs u hu => renamed_inj (known hs) (known hu))
    (fun s i hs hi => output_rename (known hs) hi) fun s i hs hi => successor_rename (known hs) hi

end Rename

/-- Where the reachable states correspond, the reachable submachines are the same. -/
theorem reachableSubmachine_eq_of_carries (hq : q ∈ M.states) (hr : r ∈ N.states)
    (hi : M.inputCount = N.inputCount) (ho : M.outputCount = N.outputCount)
    (h : Carries f M N q r) : M.reachableSubmachine q hq = N.reachableSubmachine r hr := by
  have hinputs : M.inputs = N.inputs := by rw [inputs, inputs, hi]
  have hN := mirrors_reachableSubmachine hr
  rw [h.reachableStates_eq hinputs] at hN
  refine (mirrors_reachableSubmachine hq).unique
    (hN.of_carries h (fun s hs => mem_reachableStates_iff.mp hs) hi ho) (M.nodup_reachableStates q)

/-- The states of the reachable submachine correspond to the states that they stand for. -/
theorem carries_reachableSubmachine (hq : q ∈ M.states) :
    Carries (stateAt (M.reachableStates q)) (M.reachableSubmachine q hq) M .first q := by
  generalize hf : stateAt (M.reachableStates q) = f
  have h := mirrors_reachableSubmachine hq
  have hn := M.nodup_reachableStates q
  have place {s u : State} (hu : (M.reachableStates q)[s.index]? = some u) : f s = u :=
    hf ▸ stateAt_eq hu
  have stands {s : State} (hs : (M.reachableSubmachine q hq).Reaches .first s) :
      (M.reachableStates q)[s.index]? = some (f s) := by
    obtain ⟨u, hu⟩ := h.exists_state
      (hs.mem_states (mem_states.mpr (M.reachableSubmachine q hq).stateCount_pos))
    rw [hu, place hu]
  have horigin : f .first = q := place (M.getElem?_reachableStates_zero q)
  have hcarries : Carries f (M.reachableSubmachine q hq) M .first (f .first) := by
    refine carries_of_injOn h.inputs_eq (fun s hs u hu heq => ?_) (fun s i hs hi => ?_)
      fun s i hs hi => ?_
    · obtain ⟨hlt, -⟩ := List.getElem?_eq_some_iff.mp (stands hs)
      exact Handle.ext ((List.getElem?_inj hlt hn).mp (by rw [stands hs, heq, stands hu]))
    · exact (h.output_eq (stands hs) (h.inputs_eq ▸ hi)).symm
    · exact (place (h.successor (stands hs) (h.inputs_eq ▸ hi))).symm
  rwa [horigin] at hcarries

/-- Two machines over the same inputs and outputs have the same reachable submachine if and only if
their reachable states correspond. So the numbers of the states do not matter, and the reachable
submachine of a reachable submachine is the latter itself. -/
theorem reachableSubmachine_eq_iff (hq : q ∈ M.states) (hr : r ∈ N.states)
    (hi : M.inputCount = N.inputCount) (ho : M.outputCount = N.outputCount) :
    (M.reachableSubmachine q hq = N.reachableSubmachine r hr ↔ ∃ f, Carries f M N q r) ∧
      (∀ (π : Equiv.Perm (Fin M.stateCount)) (s : Fin M.stateCount),
        (M.rename π).reachableSubmachine ⟨π s⟩ (mem_states.mpr (π s).isLt) =
          M.reachableSubmachine ⟨s⟩ (mem_states.mpr s.isLt)) ∧
      (M.reachableSubmachine q hq).reachableSubmachine .first
          (mem_states.mpr (M.reachableSubmachine q hq).stateCount_pos) =
        M.reachableSubmachine q hq := by
  refine ⟨⟨fun heq => ?_, fun ⟨f, hf⟩ => ?_⟩, fun π s => ?_, ?_⟩
  · have hN := mirrors_reachableSubmachine hr
    rw [← heq] at hN
    exact ⟨_, (mirrors_reachableSubmachine hq).carries hN⟩
  · exact reachableSubmachine_eq_of_carries hq hr hi ho hf
  · have hs : (⟨s⟩ : State) ∈ M.states := mem_states.mpr s.isLt
    have hcarries := carries_rename (π := π) hs
    rw [renamed_fin] at hcarries
    exact (reachableSubmachine_eq_of_carries (N := M.rename π) hs _ rfl rfl hcarries).symm
  · exact reachableSubmachine_eq_of_carries _ hq rfl rfl (carries_reachableSubmachine hq)

/-- Exchanging the numbers `0` and `1` makes no difference to what can be reached. -/
theorem reachableSubmachine_eq_iff_bypass :
    let π : Equiv.Perm (Fin bypass.stateCount) := (Equiv.swap 0 1 : Equiv.Perm (Fin 3))
    ∃ (hq : ⟨0⟩ ∈ bypass.states) (hr : ⟨1⟩ ∈ (bypass.rename π).states),
      bypass.reachableSubmachine ⟨0⟩ hq = (bypass.rename π).reachableSubmachine ⟨1⟩ hr := by
  intro π
  have hq : (⟨0⟩ : State) ∈ bypass.states := by decide
  have hr : (⟨1⟩ : State) ∈ (bypass.rename π).states := by decide
  have hcarries := carries_rename (π := π) hq
  rw [show bypass.renamed π ⟨0⟩ = ⟨1⟩ by decide] at hcarries
  exact ⟨hq, hr, (reachableSubmachine_eq_iff hq hr rfl rfl).1.mpr ⟨_, hcarries⟩⟩

end Machine

end StateIdentification
