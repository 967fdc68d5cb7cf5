import StateIdentification.Proofs.SequenceDerivation
import StateIdentification.Proofs.SequencePaths
import StateIdentification.Proofs.TurnByTurn

/-!
# Adaptive sequences identify states

The nodes above a node of an adaptive sequence tell which word has been applied before the
experiment arrives there. All initial states of the node answer this word alike, and it has led each
of them to its current state. So the word that is applied from a state until the experiment ends
tells that state from those that end in another leaf, and from no others.

## Main definitions

- `AdaptiveSequence.wordAbove`: the word that is applied before a node.

## Main results

- `AdaptiveSequence.Describes.current_eq`: where the candidates of a node are.
- `AdaptiveSequence.Describes.exists_ending`: where the experiment ends, and by which word.
- `AdaptiveSequence.Describes.outputs_eq_iff`: which states answer that word alike.
- `AdaptiveSequence.ofTree_sound`: all this holds for whatever is derived from a splitting tree.
-/

namespace StateIdentification

namespace AdaptiveSequence

variable {M : Machine} {a : AdaptiveSequence} {id c : Nat} {w : Word} {y z : Candidate}
  {s u : State}

/-- The word that has been applied when the experiment arrives in a node. -/
def wordAbove (a : AdaptiveSequence) (id : Nat) : Word := (a.ancestors id).flatMap a.word

@[simp]
theorem wordAbove_root (a : AdaptiveSequence) : a.wordAbove Arena.root = [] := by
  rw [wordAbove, Arena.ancestors_root, List.flatMap_nil]

namespace Describes

theorem wordAbove_child (h : a.Describes M) (hc : c ∈ a.children id) :
    a.wordAbove c = a.wordAbove id ++ a.word id := by
  rw [wordAbove, wordAbove, h.rooted.ancestors_child hc, List.flatMap_append,
    List.flatMap_singleton]

/-- The current state of a candidate is the one that its initial state has been led to. -/
theorem current_eq (h : a.Describes M) (hid : id < a.size) (hy : y ∈ a.candidates id) :
    y.current = M.reached y.initial (a.wordAbove id) := by
  induction id, hid using h.rooted.induction generalizing y with
  | atRoot =>
    rw [h.candidates_root] at hy
    obtain ⟨s, -, rfl⟩ := List.mem_map.mp hy
    rw [wordAbove_root, Machine.reached_nil]
  | child p c hp hc ih =>
    obtain ⟨z, hz, rfl⟩ := h.moved hc hy
    calc (z.after M (a.word p)).current
        = M.reached (M.reached z.initial (a.wordAbove p)) (a.word p) := by rw [← ih hz]; rfl
      _ = M.reached z.initial (a.wordAbove c) := by rw [h.wordAbove_child hc, M.reached_append]

/-- The initial states of a node have given the same answers until then. -/
theorem outputs_wordAbove_eq (h : a.Describes M) (hid : id < a.size) (hy : y ∈ a.candidates id)
    (hz : z ∈ a.candidates id) :
    M.outputs y.initial (a.wordAbove id) = M.outputs z.initial (a.wordAbove id) := by
  induction id, hid using h.rooted.induction generalizing y z with
  | atRoot => rw [wordAbove_root, Machine.outputs_nil, Machine.outputs_nil]
  | child p c hp hc ih =>
    obtain ⟨y', hy', rfl⟩ := h.moved hc hy
    obtain ⟨z', hz', rfl⟩ := h.moved hc hz
    have before := ih hy' hz'
    have behind := (h.told hc hc hy' hz' hy hz).mpr rfl
    rw [h.current_eq hp hy', h.current_eq hp hz'] at behind
    rw [h.wordAbove_child hc]
    exact M.outputs_append_eq_iff.mpr ⟨before, behind⟩

/-- From every state the experiment ends in a leaf. The word that has been applied until then leads
to the state that the leaf has for the initial state. -/
theorem exists_ending (h : a.Describes M) (hs : s ∈ M.states) :
    ∃ leaf ∈ a.leaves, a.leafOf? s = some leaf ∧ a.pathWord? s = some (a.wordAbove leaf) ∧
      ⟨M.reached s (a.wordAbove leaf), s⟩ ∈ a.candidates leaf := by
  obtain ⟨leaf, hleaf, hof, hin⟩ := h.exists_leafOf hs
  obtain ⟨hlt, hl⟩ := Arena.mem_leaves.mp hleaf
  have hword : a.pathWord? s = some (a.wordAbove leaf) := by
    obtain ⟨l, htrail, hlast⟩ := Option.bind_eq_some_iff.mp hof
    have hdown : Arena.trail? a (fun stage => s ∈ stage.candidates.map (·.initial)) Arena.root =
        some l := by
      rw [trail?, Arena.trailFromRoot?] at htrail
      split at htrail
      case isTrue => exact htrail
      case isFalse => cases htrail
    obtain ⟨last, hlast', heq⟩ := h.rooted.trail?_eq_ancestors hdown
    obtain rfl := Option.some.inj (hlast.symm.trans hlast')
    rw [Arena.ancestors_root, List.nil_append] at heq
    rw [pathWord?, htrail, heq]
    simp [wordAbove, h.word_leaf hl]
  obtain ⟨y, hy, rfl⟩ := List.mem_map.mp hin
  refine ⟨leaf, hleaf, hof, hword, ?_⟩
  rw [← h.current_eq hlt hy]
  exact hy

/-- The word that is applied from a state is answered alike by the states that end in the same leaf,
and by no others. -/
theorem outputs_eq_iff (h : a.Describes M) (hs : s ∈ M.states) (hu : u ∈ M.states)
    (hw : a.pathWord? s = some w) :
    M.outputs u w = M.outputs s w ↔ a.leafOf? u = a.leafOf? s := by
  constructor
  · intro heq
    rcases h.together_or_told hs hu with ⟨leaf, -, hof, hof', -⟩ | ⟨p, _, v, hp, -, hv, -, hne⟩
    · rw [hof, hof']
    · obtain rfl := Option.some.inj (hw.symm.trans hp)
      obtain ⟨rest, rfl⟩ := hv
      exact absurd (M.outputs_append_eq_iff.mp heq).1.symm hne
  · intro hsame
    obtain ⟨leaf, hleaf, hof, hword, hmem⟩ := h.exists_ending hs
    obtain ⟨other, -, hof', -, hmem'⟩ := h.exists_ending hu
    obtain rfl := Option.some.inj (hw.symm.trans hword)
    obtain rfl : other = leaf := Option.some.inj (hof'.symm.trans (hsame.trans hof))
    exact h.outputs_wordAbove_eq (Arena.mem_leaves.mp hleaf).1 hmem' hmem

/-- The experiment does not start in states that the machine does not have. -/
theorem trail?_eq_none (h : a.Describes M) (hs : s ∉ M.states) : a.trail? s = none := by
  have hroot : s ∉ (a.label Arena.root).candidates.map (·.initial) := by
    intro hin
    obtain ⟨y, hy, rfl⟩ := List.mem_map.mp hin
    exact hs (h.mem_states a.root_lt_size hy).2
  rw [trail?, Arena.trailFromRoot?, if_neg]
  simpa using hroot

end Describes

/-- If the tree does not tell how to go on from some candidates, their states are in one leaf. -/
theorem Settled.exists_leaf {t : SplittingTree} {cs : List Candidate} (h : Settled t cs)
    (ht : t.Divides M) (hne : cs ≠ []) (hs : ∀ y ∈ cs, y.current ∈ M.states) :
    ∃ target ∈ t.leaves, ∀ y ∈ cs, y.current ∈ t.states target := by
  rcases h with hsmall | hleaf
  · obtain ⟨y, rfl⟩ : ∃ y, cs = [y] := by
      have := List.length_pos_iff.mpr hne
      exact List.length_eq_one_iff.mp (by omega)
    obtain ⟨target, htarget, hin⟩ := ht.exists_leaf (hs y (List.mem_singleton_self y))
    exact ⟨target, htarget, fun z hz => List.mem_singleton.mp hz ▸ hin⟩
  · exact hleaf

/-- What is derived from a splitting tree identifies the states of the machine as far as its leaves
do. It is derived from every tree with valid splits and recorded successors, and the bound for the
number of steps never cuts a derivation short. From every state the experiment ends in a leaf, and
the word that is applied until then leads to the state that the leaf has for it; those states answer
it alike that end in the same leaf. Every node has its candidates in strictly ascending order, and
the states that the word above the node has led to. The candidates of a leaf are in one leaf of the
splitting tree. -/
theorem ofTree_sound [RandomSource] (M : Machine) (options : SplittingOptions) (seed : UInt64) :
    ∃ r, SplittingTree.ofMachine M options seed = .ok r ∧
      (options.checkValidity → options.recordSuccessors → ∃ a, ofTree r = .ok a) ∧
      (∀ steps, 2 * M.stateCount ≤ steps →
        expandFrom r steps Arena.root (idle M.stateCount) = ofTree r) ∧
      ∀ a, ofTree r = .ok a →
        (∀ s ∈ M.states, ∃ leaf ∈ a.leaves, ∃ w,
          a.leafOf? s = some leaf ∧ a.pathWord? s = some w ∧
          ⟨M.reached s w, s⟩ ∈ a.candidates leaf ∧
          ∀ u ∈ M.states, M.outputs u w = M.outputs s w ↔ a.leafOf? u = a.leafOf? s) ∧
        (∀ s, s ∉ M.states → a.leafOf? s = none ∧ a.pathWord? s = none) ∧
        (∀ id < a.size, (a.candidates id).Pairwise (·.current < ·.current) ∧
          ∀ y ∈ a.candidates id, y.current = M.reached y.initial (a.wordAbove id)) ∧
        ∀ leaf ∈ a.leaves, ∃ target ∈ r.tree.leaves,
          ∀ y ∈ a.candidates leaf, y.current ∈ r.tree.states target := by
  obtain ⟨r, hr, hof⟩ := SplittingTree.ofMachine_final M options seed
  refine ⟨r, hof options.checkFineness, exists_ofTree hr,
    fun steps hle => expandFrom_eq_ofTree hr hle, fun a ha => ?_⟩
  obtain ⟨hdesc, hsettled⟩ := describes_of_ofTree hr ha
  refine ⟨fun s hs => ?_, fun s hs => ?_, fun id hid => ?_, fun leaf hleaf => ?_⟩
  · obtain ⟨leaf, hleaf, hof, hword, hmem⟩ := hdesc.exists_ending hs
    exact ⟨leaf, hleaf, _, hof, hword, hmem, fun u hu => hdesc.outputs_eq_iff hs hu hword⟩
  · rw [leafOf?, pathWord?, hdesc.trail?_eq_none hs]
    exact ⟨rfl, rfl⟩
  · exact ⟨hdesc.ascending hid, fun y hy => hdesc.current_eq hid hy⟩
  · have hlt := (Arena.mem_leaves.mp hleaf).1
    exact (hsettled leaf hleaf).exists_leaf hr.divides (hdesc.candidates_ne_nil hlt)
      fun y hy => (hdesc.mem_states hlt hy).1

/-- How many inputs are applied to every state, and where they lead. -/
example : ∃ r, SplittingTree.ofMachine laggard .leeYannakakis 0 = .ok r ∧
    ((ofTree r).toOption.map fun a => laggard.states.map fun s => (a.pathWord? s).map fun w =>
      (w.length, (laggard.reached s w).index)) =
        some [some (3, 3), some (3, 0), some (2, 0), some (4, 3), some (4, 0)] :=
  SplittingTree.exists_of_runFor 12 (by cbv)

end AdaptiveSequence

end StateIdentification
