import Mathlib.Data.List.Nodup
import StateIdentification.Proofs.LowestNode
import StateIdentification.SplittingTree.Growth

/-!
# Which splits are found

The search for a split never fails on a tree that divides the states by last outputs, and it finds
nothing only if no input tells anything about the states. A word that is found answers with the same
outputs from all of the states, except for the last output.

## Main definitions

- `Machine.Separates`: what a word tells about a class of states.
- `Machine.Merges`: an input leads two states to the same state with the same output.
- `SplittingTree.Stuck`: no input tells anything about a class of states.
- `SplittingTree.transferWord?`: the split behind a single input.
- `SplittingTree.Grown`: the trees that arise by splits that are found.

## Main results

- `SplittingTree.Divides.findSplit_eq`: the search gives an answer, and which one.
- `SplittingTree.Divides.findSplit_eq_some`: the two kinds of words that are found.
- `SplittingTree.Divides.separates_of_findSplit`: what is found separates the states.
- `SplittingTree.Divides.stuck_of_findSplit`: if nothing is found, no input tells anything.
- `SplittingTree.Divides.findSplit_cases`: both cases of the search.
-/

namespace StateIdentification

namespace Machine

variable {M : Machine}

theorem run?_eq_none {s : State} {w : Word} : M.run? s w = none ↔ w = [] := by
  cases w <;> simp [run?]

/-- Behind the first input, the last output is that of the rest of the word. -/
theorem lastOutput_cons (s : State) (i : Input) {w : Word} (h : w ≠ []) :
    M.lastOutput s (i :: w) = M.lastOutput (M.successor s i) w := by
  have hne : M.run? (M.successor s i) w ≠ none := mt run?_eq_none.mp h
  obtain ⟨tr, htr⟩ := Option.ne_none_iff_exists'.mp hne
  simp [lastOutput, run?, htr]

@[simp]
theorem lastOutput_singleton (s : State) (i : Input) : M.lastOutput s [i] = M.output s i :=
  M.lastOutput_concat s [] i

/-- Two answers to a word are equal if they agree up to the last output, and in the last output. -/
theorem outputs_eq_iff {s u : State} {w : Word} (h : w ≠ []) :
    M.outputs s w = M.outputs u w ↔
      (M.outputs s w).dropLast = (M.outputs u w).dropLast ∧
        M.lastOutput s w = M.lastOutput u w := by
  rcases List.eq_nil_or_concat w with rfl | ⟨v, i, rfl⟩
  · exact absurd rfl h
  · simp only [List.concat_eq_append, outputs_append, outputs_cons, outputs_nil,
      List.dropLast_concat, lastOutput_concat]
    constructor
    · intro heq
      obtain ⟨hv, hi⟩ := List.append_inj' heq rfl
      exact ⟨hv, (List.cons.inj hi).1⟩
    · rintro ⟨hv, hi⟩
      rw [hv, hi]

/-- On an input, two of the states have the same output and the same successor. -/
def Merges (M : Machine) (states : List State) (i : Input) : Prop :=
  ∃ s ∈ states, ∃ u ∈ states,
    s ≠ u ∧ M.output s i = M.output u i ∧ M.successor s i = M.successor u i

/-- The states have the same output on an input. -/
def Agrees (M : Machine) (states : List State) (i : Input) : Prop :=
  ∀ s ∈ states, ∀ u ∈ states, M.output s i = M.output u i

/-- What a word tells about a class of states: they answer with the same outputs up to the last one.
If `valid`, no two of the states are led together by a proper beginning of the word, and none with
the same last output by the whole word. -/
structure Separates (M : Machine) (valid : Bool) (states : List State) (w : Word) : Prop where
  ne_nil : w ≠ []
  known : ∀ i ∈ w, i ∈ M.inputs
  agree : ∀ s ∈ states, ∀ u ∈ states, (M.outputs s w).dropLast = (M.outputs u w).dropLast
  early : valid → ∀ v x, v ++ x = w → x ≠ [] → ∀ s ∈ states, ∀ u ∈ states,
    M.reached s v = M.reached u v → s = u
  late : valid → ∀ s ∈ states, ∀ u ∈ states, M.lastOutput s w = M.lastOutput u w →
    M.reached s w = M.reached u w → s = u

theorem keepsApart_iff {states : List State} (hn : states.Nodup) {i : Input} {w : Word} :
    M.keepsApart states i w ↔ ∀ s ∈ states, ∀ u ∈ states,
      M.lastOutput s (i :: w) = M.lastOutput u (i :: w) → M.successor s i = M.successor u i →
        s = u := by
  simp only [keepsApart, injectiveWithinClasses, decide_eq_true_eq,
    List.nodup_map_iff_inj_on hn, Prod.mk.injEq, and_imp]

/-- A split is admitted only if its first input merges none of the states. -/
theorem not_merges_of_admits {options : SplittingOptions} {states : List State}
    (hn : states.Nodup) {i : Input} {w : Word} (ha : options.admits M states i w)
    (hvalid : options.checkValidity) : ¬ M.Merges states i := by
  rintro ⟨s, hs, u, hu, hne, hout, hsucc⟩
  rw [SplittingOptions.admits, hvalid, Bool.not_true, Bool.false_or, keepsApart_iff hn] at ha
  refine hne (ha s hs u hu ?_ hsucc)
  by_cases hw : w = []
  · simpa [hw] using hout
  · rw [lastOutput_cons _ _ hw, lastOutput_cons _ _ hw, hsucc]

/-- A split is refused only if its first input merges two of the states, provided that the states
agree on that input whenever the word goes on. -/
theorem merges_of_not_admits {options : SplittingOptions} {states : List State}
    (hn : states.Nodup) {i : Input} {w : Word} (h : w = [] ∨ M.Agrees states i)
    (ha : ¬ options.admits M states i w) : options.checkValidity ∧ M.Merges states i := by
  simp only [SplittingOptions.admits, Bool.or_eq_true, Bool.not_eq_true', not_or,
    Bool.not_eq_false, keepsApart_iff hn] at ha
  obtain ⟨hvalid, hapart⟩ := ha
  push Not at hapart
  obtain ⟨s, hs, u, hu, hlast, hsucc, hne⟩ := hapart
  refine ⟨hvalid, s, hs, u, hu, hne, ?_, hsucc⟩
  rcases h with rfl | hagree
  · simpa using hlast
  · exact hagree s hs u hu

/-- A single input separates the states, if it is admitted. -/
theorem separates_singleton {options : SplittingOptions} {states : List State}
    (hn : states.Nodup) {i : Input} (hi : i ∈ M.inputs) (ha : options.admits M states i []) :
    M.Separates options.checkValidity states [i] where
  ne_nil := List.cons_ne_nil i []
  known := by simpa using hi
  agree := by simp
  early _ v x hv hx s hs u hu heq := by
    have : v = [] := by
      rcases List.append_eq_singleton_iff.mp hv with ⟨hv, -⟩ | ⟨-, hx'⟩
      · exact hv
      · exact absurd hx' hx
    simpa [this] using heq
  late hvalid s hs u hu hlast heq := by
    by_contra hne
    exact not_merges_of_admits hn ha hvalid
      ⟨s, hs, u, hu, hne, by simpa using hlast, by simpa using heq⟩

/-- An input that leads from states with the same output into a class separates them by a word that
separates the class, if it is admitted. -/
theorem Separates.cons {options : SplittingOptions} {states targets : List State} {i : Input}
    {w : Word} (h : M.Separates options.checkValidity targets w) (hn : states.Nodup)
    (hi : i ∈ M.inputs) (hagree : M.Agrees states i)
    (ht : ∀ s ∈ states, M.successor s i ∈ targets) (ha : options.admits M states i w) :
    M.Separates options.checkValidity states (i :: w) := by
  have apart (hvalid : options.checkValidity) {s u : State} (hs : s ∈ states) (hu : u ∈ states)
      (heq : M.successor s i = M.successor u i) : s = u := by
    by_contra hne
    exact not_merges_of_admits hn ha hvalid ⟨s, hs, u, hu, hne, hagree s hs u hu, heq⟩
  constructor
  · exact List.cons_ne_nil i w
  · exact List.forall_mem_cons.mpr ⟨hi, h.known⟩
  · intro s hs u hu
    have hw (x : State) : M.outputs x w ≠ [] := fun hnil =>
      h.ne_nil (List.length_eq_zero_iff.mp (by rw [← M.length_outputs x w, hnil]; rfl))
    rw [outputs_cons, outputs_cons, List.dropLast_cons_of_ne_nil (hw _),
      List.dropLast_cons_of_ne_nil (hw _), hagree s hs u hu, h.agree _ (ht s hs) _ (ht u hu)]
  · intro hvalid v x hv hx s hs u hu heq
    cases v with
    | nil => simpa using heq
    | cons j v =>
      obtain ⟨rfl, hw⟩ := List.cons.inj hv
      exact apart hvalid hs hu (h.early hvalid v x hw hx _ (ht s hs) _ (ht u hu) heq)
  · intro hvalid s hs u hu hlast heq
    rw [lastOutput_cons _ _ h.ne_nil, lastOutput_cons _ _ h.ne_nil] at hlast
    exact apart hvalid hs hu (h.late hvalid _ (ht s hs) _ (ht u hu) hlast heq)

/-- A single input divides the states if they do not agree on it. -/
theorem two_le_classCount_iff {states : List State} {i : Input} :
    2 ≤ M.classCount states [i] ↔ ¬ M.Agrees states i := by
  simp only [classCount, two_le_distinctCount, lastOutput_singleton, List.mem_map, Agrees]
  grind

end Machine

namespace SplittingTree

variable {M : Machine} {options : SplittingOptions} {t : SplittingTree} {states : List State}

/-- An input tells nothing about a class of states: it merges two of them, or they agree on it and
it leads them into one leaf. Only if `valid`, merging counts. -/
def Idle (M : Machine) (valid : Bool) (t : SplittingTree) (states : List State) (i : Input) :
    Prop :=
  (valid ∧ M.Merges states i) ∨
    (M.Agrees states i ∧ ∃ leaf ∈ t.leaves, ∀ s ∈ states, M.successor s i ∈ t.states leaf)

/-- No input of the machine tells anything about a class of states. -/
def Stuck (M : Machine) (valid : Bool) (t : SplittingTree) (states : List State) : Prop :=
  ∀ i ∈ M.inputs, t.Idle M valid states i

/-- The word on which an input divides a class of states by the leaves behind that input. -/
def transferWord? (M : Machine) (options : SplittingOptions) (t : SplittingTree)
    (states : List State) (i : Input) : Option Word :=
  let oracle := (t.lowestCommonAncestor ∅ ((states.map (M.successor · i)).contains ·)).1
  if !t.isLeaf oracle && options.admits M states i (t.separator oracle) then
    some (i :: t.separator oracle)
  else none

/-- A single input is not found only if the states agree on it or it is not admitted. -/
theorem outputSplit?_eq_none {inputs : List Input} (hn : states.Nodup)
    (h : outputSplit? M options states inputs = none) {i : Input} (hi : i ∈ inputs) :
    M.Agrees states i ∨ (options.checkValidity ∧ M.Merges states i) := by
  simp only [outputSplit?, Option.map_eq_none_iff, List.find?_eq_none] at h
  by_cases hagree : M.Agrees states i
  · exact .inl hagree
  · refine .inr (Machine.merges_of_not_admits hn (.inl rfl) fun ha => h i hi ?_)
    rw [Bool.and_eq_true, decide_eq_true_eq]
    exact ⟨Machine.two_le_classCount_iff.mpr hagree, ha⟩

theorem outputSplit?_eq_some {inputs : List Input} {w : Word}
    (h : outputSplit? M options states inputs = some w) :
    ∃ i ∈ inputs, w = [i] ∧ 2 ≤ M.classCount states [i] ∧ options.admits M states i [] := by
  simp only [outputSplit?, Option.map_eq_some_iff] at h
  obtain ⟨i, hf, rfl⟩ := h
  have hp := List.find?_some hf
  rw [Bool.and_eq_true, decide_eq_true_eq] at hp
  exact ⟨i, List.mem_of_find?_eq_some hf, rfl, hp⟩

namespace Divides

/-- The node behind an input that holds the successors of a class together. -/
theorem oracle_spec (h : t.Divides M) (scratch : Marks) (hs : ∀ s ∈ states, s ∈ M.states)
    (hne : states ≠ []) (i : Input) :
    let query := t.lowestCommonAncestor scratch ((states.map (M.successor · i)).contains ·)
    query.1 < t.size ∧ (∀ s ∈ states, M.successor s i ∈ t.states query.1) ∧
      (¬ t.isLeaf query.1 → 2 ≤ (t.children query.1).countP (0 < query.2.get ·) ∧
        (t.children query.1).countP (0 < query.2.get ·) =
          M.classCount states (i :: t.separator query.1)) := by
  intro query
  obtain ⟨x, hx⟩ := List.exists_mem_of_ne_nil _ hne
  have member {s : State} (hm : s ∈ states) :
      (states.map (M.successor · i)).contains (M.successor s i) :=
    List.contains_iff_mem.mpr (List.mem_map_of_mem hm)
  obtain ⟨hlt, hall, hinner⟩ := h.lowestCommonAncestor_spec
    (p := ((states.map (M.successor · i)).contains ·)) scratch
    ⟨_, Machine.successor_mem (hs x hx) i, member hx⟩
  have targets {s : State} (hm : s ∈ states) :=
    hall _ (Machine.successor_mem (hs s hm) i) (member hm)
  have known {s : State} (hm : s ∈ states.map (M.successor · i)) :
      s ∈ t.states query.1 := by
    obtain ⟨u, hu, rfl⟩ := List.mem_map.mp hm
    exact targets hu
  refine ⟨hlt, fun s hm => targets hm, fun hl => ⟨hinner hl, ?_⟩⟩
  refine (h.countP_marked scratch hl fun s hm => known hm).trans ?_
  rw [List.map_map, Machine.classCount]
  congr 1
  exact List.map_congr_left fun s _ => (M.lastOutput_cons s i (h.separator_ne_nil hl)).symm

/-- The search for a split behind an input never fails. -/
theorem transferSplit?_eq (h : t.Divides M) (hs : ∀ s ∈ states, s ∈ M.states) (hne : states ≠ [])
    (inputs : List Input) :
    transferSplit? M options t states inputs =
      .ok (inputs.findSome? (t.transferWord? M options states)) := by
  induction inputs with
  | nil => rfl
  | cons i is ih =>
    obtain ⟨-, -, hinner⟩ := h.oracle_spec ∅ hs hne i
    rw [transferSplit?, List.findSome?_cons, transferWord?]
    dsimp only at hinner ⊢
    generalize t.lowestCommonAncestor ∅ ((states.map (M.successor · i)).contains ·) = query
      at hinner ⊢
    by_cases hl : t.isLeaf query.1
    · simp [hl, ih]
    · obtain ⟨htwo, hcount⟩ := hinner hl
      rw [if_neg hl, if_neg (by omega), hcount]
      by_cases ha : options.admits M states i (t.separator query.1)
      · simp [hl, ha]
      · simp [ha, ih]

/-- The search for a split never fails: it gives the first single input that divides the states, or
else the first one behind which they are in different leaves. -/
theorem findSplit_eq (h : t.Divides M) (options : SplittingOptions)
    (hs : ∀ s ∈ states, s ∈ M.states) (hne : states ≠ []) (inputs : List Input) :
    t.findSplit M options states inputs = .ok ((outputSplit? M options states inputs).or
      (inputs.findSome? (t.transferWord? M options states))) := by
  rw [findSplit, h.transferSplit?_eq hs hne]
  cases outputSplit? M options states inputs <;> rfl

/-- A word that is found is a single input, or else an input that leads the states into an inner
node, followed by the separator of that node. -/
theorem findSplit_eq_some (h : t.Divides M) (hs : ∀ s ∈ states, s ∈ M.states) (hne : states ≠ [])
    {inputs : List Input} {w : Word} (hf : t.findSplit M options states inputs = .ok (some w)) :
    (∃ i ∈ inputs, w = [i] ∧ 2 ≤ M.classCount states [i] ∧ options.admits M states i []) ∨
      ∃ i ∈ inputs, ∃ oracle, w = i :: t.separator oracle ∧ ¬ t.isLeaf oracle ∧
        (∀ s ∈ states, M.successor s i ∈ t.states oracle) ∧ 2 ≤ M.classCount states w ∧
        options.admits M states i (t.separator oracle) ∧
        outputSplit? M options states inputs = none := by
  rw [h.findSplit_eq options hs hne, Except.ok.injEq] at hf
  cases hout : outputSplit? M options states inputs with
  | some v =>
    obtain ⟨i, him, rfl, hcount, ha⟩ := outputSplit?_eq_some hout
    obtain rfl : [i] = w := by simpa [hout] using hf
    exact .inl ⟨i, him, rfl, hcount, ha⟩
  | none =>
    rw [hout, Option.none_or] at hf
    obtain ⟨i, him, hword⟩ := List.exists_of_findSome?_eq_some hf
    obtain ⟨-, htargets, hinner⟩ := h.oracle_spec ∅ hs hne i
    simp only [transferWord?] at hword
    split at hword
    case isFalse => cases hword
    case isTrue hcond =>
      obtain rfl := Option.some.inj hword
      simp only [Bool.and_eq_true, Bool.not_eq_true', ← Bool.not_eq_true] at hcond
      obtain ⟨hl, ha⟩ := hcond
      have hcount := (hinner hl).1
      rw [(hinner hl).2] at hcount
      exact .inr ⟨i, him, _, rfl, hl, htargets, hcount, ha, rfl⟩

/-- A word that is found separates the states. -/
theorem separates_of_findSplit (h : t.Divides M)
    (hsep : ∀ id, ¬ t.isLeaf id →
      M.Separates options.checkValidity (t.states id) (t.separator id))
    (hs : ∀ s ∈ states, s ∈ M.states) (hn : states.Nodup) (hne : states ≠ []) {inputs : List Input}
    (hi : ∀ i ∈ inputs, i ∈ M.inputs) {w : Word}
    (hf : t.findSplit M options states inputs = .ok (some w)) :
    M.Separates options.checkValidity states w ∧ 2 ≤ M.classCount states w := by
  rcases h.findSplit_eq_some hs hne hf with
    ⟨i, him, rfl, hcount, ha⟩ | ⟨i, him, oracle, rfl, hl, htargets, hcount, ha, hout⟩
  · exact ⟨Machine.separates_singleton hn (hi i him) ha, hcount⟩
  · have hagree : M.Agrees states i := by
      refine (outputSplit?_eq_none hn hout him).resolve_right fun hm => ?_
      exact Machine.not_merges_of_admits hn ha hm.1 hm.2
    exact ⟨(hsep _ hl).cons hn (hi i him) hagree htargets ha, hcount⟩

/-- If nothing is found, no input tells anything about the states. -/
theorem stuck_of_findSplit (h : t.Divides M) (hs : ∀ s ∈ states, s ∈ M.states)
    (hn : states.Nodup) (hne : states ≠ []) {inputs : List Input}
    (hi : ∀ i ∈ M.inputs, i ∈ inputs) (hf : t.findSplit M options states inputs = .ok none) :
    t.Stuck M options.checkValidity states := by
  intro i him
  rw [h.findSplit_eq options hs hne, Except.ok.injEq, Option.or_eq_none_iff,
    List.findSome?_eq_none_iff] at hf
  obtain ⟨hout, htransfer⟩ := hf
  obtain ⟨hlt, htargets, -⟩ := h.oracle_spec ∅ hs hne i
  have hword := htransfer i (hi i him)
  simp only [transferWord?] at hword
  split at hword
  case isTrue => cases hword
  case isFalse hcond =>
    rcases outputSplit?_eq_none hn hout (hi i him) with hagree | hmerge
    · simp only [Bool.and_eq_true, Bool.not_eq_true', ← Bool.not_eq_true, not_and_or,
        Decidable.not_not] at hcond
      rcases hcond with hl | ha
      · exact .inr ⟨hagree, _, Arena.mem_leaves.mpr ⟨hlt, hl⟩, htargets⟩
      · exact .inl (Machine.merges_of_not_admits hn (.inr hagree) ha)
    · exact .inl hmerge

/-- The search gives a word that separates the states, or else no input tells anything about
them. -/
theorem findSplit_cases (h : t.Divides M)
    (hsep : ∀ id, ¬ t.isLeaf id →
      M.Separates options.checkValidity (t.states id) (t.separator id))
    (hs : ∀ s ∈ states, s ∈ M.states) (hn : states.Nodup) (hne : states ≠ []) {inputs : List Input}
    (hi : inputs.Perm M.inputs) :
    (∃ w, t.findSplit M options states inputs = .ok (some w) ∧
        M.Separates options.checkValidity states w ∧ 2 ≤ M.classCount states w) ∨
      (t.findSplit M options states inputs = .ok none ∧
        t.Stuck M options.checkValidity states) := by
  obtain ⟨found, hf⟩ : ∃ found, t.findSplit M options states inputs = .ok found :=
    ⟨_, h.findSplit_eq options hs hne inputs⟩
  cases found with
  | some w =>
    exact .inl ⟨w, hf, h.separates_of_findSplit hsep hs hn hne (fun i => hi.mem_iff.mp) hf⟩
  | none => exact .inr ⟨hf, h.stuck_of_findSplit hs hn hne (fun i => hi.mem_iff.mpr) hf⟩

end Divides

/-- The trees that arise from one leaf for all states of a machine by splitting leaves on words that
the search finds, whatever leaf comes next and in whatever order the inputs are tried. -/
inductive Grown (M : Machine) (options : SplittingOptions) : SplittingTree → Prop where
  | single : Grown M options (ofSize M.stateCount)
  | split {t : SplittingTree} {leaf : Nat} {inputs : List Input} {w : Word}
      (before : Grown M options t) (divides : t.Divides M) (isLeaf : leaf ∈ t.leaves)
      (perm : inputs.Perm M.inputs)
      (found : t.findSplit M options (t.states leaf) inputs = .ok (some w)) :
      Grown M options (t.split leaf w (classes (t.states leaf) (M.lastOutput · w)))

end SplittingTree

end StateIdentification
