import Mathlib.Data.List.MinMax
import Mathlib.Data.List.Perm.Subperm
import StateIdentification.Proofs.SequenceDerivation

/-!
# Which machines have a distinguishing experiment

An experiment applies one input after the other, and what it applies next may depend on all outputs
so far. It distinguishes the states of a machine if no two of them give the same observations.

A complete adaptive sequence is such an experiment, with words in place of single inputs. On the
other hand, a tree with valid splits that is stuck shows that there is none: take a leaf with the
most states among those that are stuck. On every input its states agree, and none of them are
merged, so they go to the states of a leaf that is as large. No experiment ever gets out of such
leaves.

## Main definitions

- `Experiment`: a finite tree of inputs that branches on outputs.
- `Experiment.observe`: the outputs from a state on.
- `Experiment.Resolves`: no two states of a class give the same observations.

## Main results

- `Experiment.exists_resolves_of_word`: an experiment may start with a word.
- `AdaptiveSequence.Describes.exists_resolves`: a complete sequence is a distinguishing experiment.
- `SplittingResult.Final.not_resolves`: no experiment resolves a stuck leaf of greatest size.
- `AdaptiveSequence.ofTree_complete_iff`: the derived sequence is complete if and only if there is a
  distinguishing experiment.
-/

namespace StateIdentification

/-- A finite experiment on machines with the given numbers of inputs and outputs: it stops, or it
applies an input and goes on with one experiment for every output that may be observed. -/
inductive Experiment (inputs outputs : Nat) where
  | stop
  | apply (i : Fin inputs) (next : Fin outputs → Experiment inputs outputs)

namespace Experiment

/-- The outputs that are observed from a state on until the experiment stops. They tell in which
leaf of the experiment it stops. -/
def observe (M : Machine) : Experiment M.inputCount M.outputCount → Fin M.stateCount →
    List (Fin M.outputCount)
  | stop, _ => []
  | apply i next, s =>
    (M.table.get s i).output ::
      observe M (next (M.table.get s i).output) (M.table.get s i).target

/-- No two states of a class give the same observations. -/
def Resolves (M : Machine) (e : Experiment M.inputCount M.outputCount) (C : State → Prop) : Prop :=
  ∀ s u : Fin M.stateCount, C ⟨s⟩ → C ⟨u⟩ → e.observe M s = e.observe M u → s = u

variable {M : Machine} {C D : State → Prop}

theorem Resolves.mono {e : Experiment M.inputCount M.outputCount} (h : e.Resolves M D)
    (hsub : ∀ s, C s → D s) : e.Resolves M C :=
  fun s u hs hu => h s u (hsub _ hs) (hsub _ hu)

variable {i : Fin M.inputCount} {next : Fin M.outputCount → Experiment M.inputCount M.outputCount}

/-- An experiment that resolves a class does not start with an input that merges two states of the
class. -/
theorem Resolves.eq_of_step (h : (apply i next).Resolves M C) (hC : ∀ s, C s → s ∈ M.states)
    {s u : State} (hs : C s) (hu : C u) (hout : M.output s ⟨i⟩ = M.output u ⟨i⟩)
    (hsucc : M.successor s ⟨i⟩ = M.successor u ⟨i⟩) : s = u := by
  obtain ⟨s, rfl⟩ := Machine.exists_fin (hC s hs)
  obtain ⟨u, rfl⟩ := Machine.exists_fin (hC u hu)
  have hout : (M.table.get s i).output = (M.table.get u i).output := by
    simpa [Fin.ext_iff] using hout
  have hsucc : (M.table.get s i).target = (M.table.get u i).target := by
    simpa [Fin.ext_iff] using hsucc
  rw [h s u hs hu (by rw [observe, observe, hout, hsucc])]

/-- Behind its first input, an experiment goes on to resolve the states that are reached. -/
theorem Resolves.rest (h : (apply i next).Resolves M C) (hC : ∀ s, C s → s ∈ M.states)
    (o : Fin M.outputCount) : (next o).Resolves M fun x =>
      ∃ s, C s ∧ M.output s ⟨i⟩ = ⟨o⟩ ∧ M.successor s ⟨i⟩ = x := by
  rintro x y ⟨s, hs, hso, hsx⟩ ⟨u, hu, huo, huy⟩ heq
  obtain ⟨s, rfl⟩ := Machine.exists_fin (hC s hs)
  obtain ⟨u, rfl⟩ := Machine.exists_fin (hC u hu)
  obtain rfl : (M.table.get s i).output = o := by simpa [Fin.ext_iff] using hso
  have huo : (M.table.get u i).output = (M.table.get s i).output := by simpa [Fin.ext_iff] using huo
  obtain rfl : (M.table.get s i).target = x := by simpa [Fin.ext_iff] using hsx
  obtain rfl : (M.table.get u i).target = y := by simpa [Fin.ext_iff] using huy
  rw [h s u hs hu (by rw [observe, observe, huo, heq])]

/-- The states of a class are resolved by applying a word first, if behind the word the states with
the same answer can be resolved, and the word merges none of these. -/
theorem exists_resolves_of_word {w : Word} (hw : ∀ i ∈ w, i ∈ M.inputs)
    (hlate : ∀ s u, C s → C u → M.outputs s w = M.outputs u w → M.reached s w = M.reached u w →
      s = u)
    (hnext : ∀ answer, ∃ e : Experiment M.inputCount M.outputCount, e.Resolves M fun x =>
      ∃ s, C s ∧ M.outputs s w = answer ∧ M.reached s w = x) :
    ∃ e : Experiment M.inputCount M.outputCount, e.Resolves M C := by
  induction w generalizing C with
  | nil =>
    obtain ⟨e, he⟩ := hnext []
    exact ⟨e, he.mono fun s hs => ⟨s, hs, rfl, rfl⟩⟩
  | cons i w ih =>
    obtain ⟨hi, hrest⟩ := List.forall_mem_cons.mp hw
    obtain ⟨n, rfl⟩ : ∃ n : Fin M.inputCount, i = ⟨n⟩ := ⟨⟨i.index, Machine.mem_inputs.mp hi⟩, rfl⟩
    have rest (o : Fin M.outputCount) : ∃ e : Experiment M.inputCount M.outputCount,
        e.Resolves M fun x => ∃ s, C s ∧ M.output s ⟨n⟩ = ⟨o⟩ ∧ M.successor s ⟨n⟩ = x := by
      refine ih hrest ?_ fun answer => ?_
      · rintro _ _ ⟨s, hs, hso, rfl⟩ ⟨u, hu, huo, rfl⟩ houts hreached
        rw [hlate s u hs hu (by simp [hso, huo, houts]) hreached]
      · obtain ⟨e, he⟩ := hnext (⟨o⟩ :: answer)
        refine ⟨e, he.mono ?_⟩
        rintro x ⟨_, ⟨s, hs, hso, rfl⟩, houts, hreached⟩
        exact ⟨s, hs, by simp [hso, houts], hreached⟩
    choose next hresolves using rest
    refine ⟨.apply n next, fun s u hs hu heq => ?_⟩
    obtain ⟨hout, heq⟩ := List.cons.inj heq
    rw [← hout] at heq
    have htarget := hresolves (M.table.get s n).output _ _ ⟨⟨s⟩, hs, by simp, by simp⟩
      ⟨⟨u⟩, hu, by simp [hout], by simp⟩ heq
    have hsame := hlate ⟨s⟩ ⟨u⟩ hs hu (by simp [hout, htarget]) (by simp [htarget])
    exact Fin.ext (congrArg Handle.index hsame)

end Experiment

/-- From every node on, a complete sequence resolves the current states of its candidates. -/
theorem AdaptiveSequence.Describes.exists_resolves {M : Machine} {a : AdaptiveSequence}
    (h : a.Describes M) (hcomplete : a.isComplete) {id : Nat} (hid : id < a.size) :
    ∃ e : Experiment M.inputCount M.outputCount, e.Resolves M fun x =>
      ∃ y ∈ a.candidates id, y.current = x := by
  induction id using a.inductionOnChildren with
  | node id ih =>
    by_cases hl : a.isLeaf id
    · refine ⟨.stop, ?_⟩
      rintro s u ⟨y, hy, hys⟩ ⟨z, hz, hzu⟩ -
      have hsmall := List.all_eq_true.mp hcomplete id (Arena.mem_leaves.mpr ⟨hid, hl⟩)
      have hyz : y = z := by
        by_contra hne
        have := (two_le_length_iff (h.current_nodup hid).of_map).mpr ⟨y, hy, z, hz, hne⟩
        exact absurd (of_decide_eq_true hsmall) (Nat.not_le.mpr this)
      rw [hyz, hzu] at hys
      exact Fin.ext (congrArg Handle.index hys).symm
    · refine Experiment.exists_resolves_of_word (w := a.word id) h.known ?_ fun answer => ?_
      · rintro _ _ ⟨y, hy, rfl⟩ ⟨z, hz, rfl⟩ houts hreached
        obtain ⟨c, hc, hyc⟩ := h.kept hl hy
        obtain ⟨d, hd, hzd⟩ := h.kept hl hz
        obtain rfl := (h.told hc hd hy hz hyc hzd).mp houts
        have hafter := h.eq_of_current_eq (Arena.lt_size_of_mem_children hc) hyc hzd hreached
        have hinitial := congrArg Candidate.initial hafter
        rw [h.eq_of_initial_eq hid hy hz hinitial]
      · by_cases hpossible : ∃ y ∈ a.candidates id, M.outputs y.current (a.word id) = answer
        · obtain ⟨y, hy, rfl⟩ := hpossible
          obtain ⟨c, hc, hyc⟩ := h.kept hl hy
          obtain ⟨e, he⟩ := ih c hc (Arena.lt_size_of_mem_children hc)
          refine ⟨e, he.mono ?_⟩
          rintro x ⟨_, ⟨z, hz, rfl⟩, houts, hreached⟩
          obtain ⟨d, hd, hzd⟩ := h.kept hl hz
          obtain rfl := (h.told hd hc hz hy hzd hyc).mp houts
          exact ⟨_, hzd, hreached⟩
        · refine ⟨.stop, ?_⟩
          rintro s u ⟨_, ⟨y, hy, rfl⟩, houts, -⟩
          exact absurd ⟨y, hy, houts⟩ hpossible

namespace SplittingResult.Final

variable {M : Machine} {options : SplittingOptions} {r : SplittingResult}

/-- No experiment resolves the states of a leaf with several states if no leaf has more. -/
theorem not_resolves (h : r.Final M options) {leaf : Nat} (hleaf : leaf ∈ r.tree.leaves)
    (hlarge : 2 ≤ (r.tree.states leaf).length)
    (hmax : ∀ other ∈ r.tree.leaves, (r.tree.states other).length ≤ (r.tree.states leaf).length)
    (e : Experiment M.inputCount M.outputCount) : ¬ e.Resolves M (· ∈ r.tree.states leaf) := by
  induction e generalizing leaf with
  | stop =>
    intro hres
    have hsize := (Arena.mem_leaves.mp hleaf).1
    obtain ⟨s, hs, u, hu, hne⟩ := (two_le_length_iff (h.divides.nodup hsize)).mp hlarge
    obtain ⟨s, rfl⟩ := Machine.exists_fin (h.divides.mem_states hsize hs)
    obtain ⟨u, rfl⟩ := Machine.exists_fin (h.divides.mem_states hsize hu)
    exact hne (by rw [hres s u hs hu rfl])
  | apply i next ih =>
    intro hres
    have hsize := (Arena.mem_leaves.mp hleaf).1
    have hC := fun s => h.divides.mem_states (s := s) hsize
    have hi : (⟨i⟩ : Input) ∈ M.inputs := Machine.mem_inputs.mpr i.isLt
    rcases h.stuck leaf hleaf hlarge ⟨i⟩ hi with
      ⟨-, s, hs, u, hu, hne, hout, hsucc⟩ | ⟨hagree, target, htarget, hreach⟩
    · exact hne (hres.eq_of_step hC hs hu hout hsucc)
    · -- the states of the leaf go to different states of a leaf that has no more of them
      have hinj : ((r.tree.states leaf).map (M.successor · ⟨i⟩)).Nodup :=
        (List.nodup_map_iff_inj_on (h.divides.nodup hsize)).mpr fun s hs u hu =>
          hres.eq_of_step hC hs hu (hagree s hs u hu)
      have hsub : (r.tree.states leaf).map (M.successor · ⟨i⟩) ⊆ r.tree.states target := by
        intro x hx
        obtain ⟨s, hs, rfl⟩ := List.mem_map.mp hx
        exact hreach s hs
      have hperm : ((r.tree.states leaf).map (M.successor · ⟨i⟩)).Perm (r.tree.states target) :=
        (hinj.subperm hsub).perm_of_length_le (by simpa using hmax target htarget)
      have hlength : (r.tree.states leaf).length = (r.tree.states target).length := by
        simpa using hperm.length_eq
      obtain ⟨s, hs⟩ := h.divides.exists_mem hsize
      have ho := Machine.output_lt (hC s hs) hi
      refine ih ⟨_, ho⟩ htarget (hlength ▸ hlarge)
        (fun other hother => hlength ▸ hmax other hother) ?_
      refine (hres.rest hC ⟨_, ho⟩).mono fun x hx => ?_
      obtain ⟨u, hu, rfl⟩ := List.mem_map.mp (hperm.mem_iff.mpr hx)
      exact ⟨u, hu, hagree u hu s hs, rfl⟩

/-- If some experiment distinguishes all states, every leaf has at most one state. -/
theorem small_leaves_of_injective (h : r.Final M options)
    {e : Experiment M.inputCount M.outputCount} (he : Function.Injective (e.observe M)) :
    ∀ id ∈ r.tree.leaves, (r.tree.states id).length ≤ 1 := by
  intro id hid
  obtain ⟨leaf, hleaf⟩ := Option.ne_none_iff_exists'.mp
    (mt List.argmax_eq_none.mp (List.ne_nil_of_mem hid) :
      r.tree.leaves.argmax (fun id => (r.tree.states id).length) ≠ none)
  have hmax : ∀ other ∈ r.tree.leaves,
      (r.tree.states other).length ≤ (r.tree.states leaf).length := fun other hother =>
    List.le_of_mem_argmax (f := fun id => (r.tree.states id).length) hother hleaf
  by_contra hlarge
  have hmost : 2 ≤ (r.tree.states leaf).length := (Nat.not_le.mp hlarge).trans_le (hmax id hid)
  exact h.not_resolves (List.argmax_mem hleaf) hmost hmax e fun s u _ _ heq => he heq

end SplittingResult.Final

/-- The construction succeeds for every machine. The splitting tree is complete if and
only if the derived adaptive sequence is, and if and only if some experiment distinguishes all
states. The bound for the number of steps does not cut the derivation short. -/
theorem AdaptiveSequence.ofTree_complete_iff [RandomSource] (M : Machine)
    (options : SplittingOptions) (seed : UInt64) :
    ∃ r a,
      SplittingTree.ofMachine M { options with checkValidity := true, recordSuccessors := true }
        seed = .ok r ∧
      ofTree r = .ok a ∧
      (∀ steps, 2 * M.stateCount ≤ steps →
        expandFrom r steps Arena.root (idle M.stateCount) = .ok a) ∧
      (r.complete ↔ a.isComplete) ∧
      (a.isComplete ↔ ∃ e : Experiment M.inputCount M.outputCount,
        Function.Injective (e.observe M)) := by
  obtain ⟨r, hr, hof⟩ := SplittingTree.ofMachine_final M
    { options with checkValidity := true, recordSuccessors := true } seed
  obtain ⟨a, ha, hsteps, hdesc, hsettled⟩ := ofTree_describes hr rfl rfl
  have complete_of_tree (hcomplete : r.complete) : a.isComplete := by
    refine List.all_eq_true.mpr fun leaf hleaf => decide_eq_true ?_
    rcases hsettled leaf hleaf with hsmall | ⟨target, htarget, hin⟩
    · exact Nat.le_of_lt_succ hsmall
    · have hn := hdesc.current_nodup (Arena.mem_leaves.mp hleaf).1
      have hsub : (a.candidates leaf).map (·.current) ⊆ r.tree.states target := by
        intro x hx
        obtain ⟨y, hy, rfl⟩ := List.mem_map.mp hx
        exact hin y hy
      have hle := (hn.subperm hsub).length_le
      rw [List.length_map] at hle
      exact hle.trans (hr.complete_iff.mp hcomplete target htarget)
  have experiment_of_complete (hcomplete : a.isComplete) :
      ∃ e : Experiment M.inputCount M.outputCount, Function.Injective (e.observe M) := by
    obtain ⟨e, he⟩ := hdesc.exists_resolves hcomplete a.root_lt_size
    have hroot (s : Fin M.stateCount) : ∃ y ∈ a.candidates Arena.root, y.current = ⟨s⟩ := by
      rw [hdesc.candidates_root]
      exact ⟨_, List.mem_map_of_mem (Machine.mem_states.mpr s.isLt), rfl⟩
    exact ⟨e, fun s u heq => he s u (hroot s) (hroot u) heq⟩
  have tree_of_experiment : (∃ e : Experiment M.inputCount M.outputCount,
      Function.Injective (e.observe M)) → r.complete := by
    rintro ⟨e, he⟩
    exact hr.complete_iff.mpr (hr.small_leaves_of_injective he)
  exact ⟨r, a, hof options.checkFineness, ha, hsteps,
    ⟨complete_of_tree, fun hc => tree_of_experiment (experiment_of_complete hc)⟩,
    ⟨experiment_of_complete, fun he => complete_of_tree (tree_of_experiment he)⟩⟩

end StateIdentification
