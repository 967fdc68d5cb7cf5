import Mathlib.Data.List.Perm.Subperm
import StateIdentification.Proofs.LowestNode
import StateIdentification.Proofs.MatrixEntries
import StateIdentification.Proofs.SequenceDerivation
import StateIdentification.Proofs.SequencePaths
import StateIdentification.Suffixes.Family

/-!
# The words that separate companions

A state that an adaptive sequence leaves together with companions gets further words. Whether they
come from a matrix or from the marks in a splitting tree, they are the separators of the nodes that
split the state from one of its companions.

## Main definitions

- `AdaptiveSequence.companions`: the states that an adaptive sequence leaves together with a state.
- `AdaptiveSequence.entries`, `AdaptiveSequence.treeWords`: the words that a state gets from a
  matrix, and from a tree.

## Main results

- `AdaptiveSequence.Describes.mem_entries_iff`: the words from the matrix of a tree.
- `AdaptiveSequence.mem_treeWords_iff`: the words from a tree.
-/

namespace StateIdentification

variable {M : Machine} {a : AdaptiveSequence} {t : SplittingTree} {s u : State} {w : Word}

namespace AdaptiveSequence

/-- The states that the experiment does not tell from a state, that state included. -/
def companions (a : AdaptiveSequence) (s : State) : List State :=
  match a.leafOf? s with
  | some leaf => a.initials leaf
  | none => []

/-- The words of a separating matrix that a state gets because of its companions. -/
def entries (a : AdaptiveSequence) (m : SeparatingMatrix) (s : State) : List Word :=
  (((a.companions s).filter (· ≠ s)).map (m.wordOf s)).filter (· ≠ [])

/-- The separators on the way down to a state of a second tree, at the nodes that hold it together
with companions. -/
def treeWords (a : AdaptiveSequence) (t : SplittingTree) (s : State) : List Word :=
  let companions := a.companions s
  if companions.length < 2 then []
  else
    let marks := t.mark ∅ (companions.contains ·)
    ((t.trail s).filter fun id => !t.isLeaf id && 1 < marks.get id).map t.separator

theorem Describes.stateCount_eq (h : a.Describes M) : a.stateCount = M.stateCount := by
  rw [stateCount, h.candidates_root, List.length_map, Machine.states, Handle.length_range]

theorem companions_of_leafOf {leaf : Nat} (h : a.leafOf? s = some leaf) :
    a.companions s = a.initials leaf := by
  rw [companions, h]

/-- The companions of a state are states, and the state is one of them. -/
theorem Describes.companions_spec (h : a.Describes M) (hs : s ∈ M.states) :
    s ∈ a.companions s ∧ ∀ u ∈ a.companions s, u ∈ M.states := by
  obtain ⟨leaf, hleaf, hof, hin⟩ := h.exists_leafOf hs
  rw [companions_of_leafOf hof]
  refine ⟨hin, fun u hu => ?_⟩
  obtain ⟨y, hy, rfl⟩ := List.mem_map.mp hu
  exact (h.mem_states (Arena.mem_leaves.mp hleaf).1 hy).2

theorem mem_entries {m : SeparatingMatrix} :
    w ∈ a.entries m s ↔ ∃ u ∈ a.companions s, u ≠ s ∧ m.wordOf s u = w ∧ w ≠ [] := by
  simp only [entries, List.mem_filter, List.mem_map, decide_eq_true_eq]
  grind

/-- From the matrix of a tree a state gets the separators of the nodes that split it from one of its
companions. -/
theorem Describes.mem_entries_iff (h : a.Describes M) (ht : t.Divides M) (hs : s ∈ M.states) :
    w ∈ a.entries (.ofTree t) s ↔
      ∃ u ∈ a.companions s, ∃ id, t.Splits id s u ∧ t.separator id = w := by
  rw [mem_entries]
  refine exists_congr fun u => and_congr_right fun hu => ?_
  have husm := (h.companions_spec hs).2 u hu
  constructor
  · rintro ⟨-, rfl, hne⟩
    rcases ht.together_or_split hs husm with ⟨leaf, hleaf, hsl, hul⟩ | ⟨id, hid⟩
    · exact absurd (ht.wordOf_of_leaf hleaf hsl hul) hne
    · exact ⟨id, hid, (ht.wordOf_of_splits husm hid).symm⟩
  · rintro ⟨id, hid, rfl⟩
    exact ⟨(ht.ne_of_splits hid).symm, ht.wordOf_of_splits husm hid,
      ht.separator_ne_nil hid.not_isLeaf⟩

/-- A list with two states that a node splits is not shorter than two. -/
theorem two_le_length_of_splits (ht : t.Divides M) {states : List State} {id : Nat}
    (hs : s ∈ states) (hu : u ∈ states) (hsplit : t.Splits id s u) : 2 ≤ states.length := by
  have hpair : [s, u].Nodup := by simpa using ht.ne_of_splits hsplit
  have hsub : [s, u] ⊆ states := by simp [hs, hu]
  exact (hpair.subperm hsub).length_le

/-- From a tree a state gets the separators of the nodes that split it from one of its
companions. -/
theorem mem_treeWords_iff (ht : t.Divides M) (hs : s ∈ M.states) (hself : s ∈ a.companions s) :
    w ∈ a.treeWords t s ↔
      ∃ u ∈ a.companions s, ∃ id, t.Splits id s u ∧ t.separator id = w := by
  have hmark {id : Nat} (hl : ¬ t.isLeaf id) (hsid : s ∈ t.states id) :
      1 < (t.mark ∅ ((a.companions s).contains ·)).get id ↔
        ∃ u ∈ a.companions s, t.Splits id s u := by
    refine (ht.one_lt_mark_iff ∅ hl hsid (List.contains_iff_mem.mpr hself)).trans ?_
    simp only [List.contains_iff_mem]
  rw [treeWords]
  constructor
  · intro hw
    split at hw
    · simp at hw
    · obtain ⟨id, hid, rfl⟩ := List.mem_map.mp hw
      obtain ⟨htrail, hid⟩ := List.mem_filter.mp hid
      rw [Bool.and_eq_true, decide_eq_true_eq] at hid
      have hl : ¬ t.isLeaf id := by simpa using hid.1
      obtain ⟨u, hu, hsplit⟩ := (hmark hl ((ht.mem_trail hs).mp htrail).2).mp hid.2
      exact ⟨u, hu, id, hsplit, rfl⟩
  · rintro ⟨u, hu, id, hsplit, rfl⟩
    have hlong : ¬ (a.companions s).length < 2 :=
      Nat.not_lt.mpr (two_le_length_of_splits ht hself hu hsplit)
    have hl := hsplit.not_isLeaf
    have hsid := ht.mem_of_splits hsplit
    rw [if_neg hlong]
    refine List.mem_map.mpr ⟨id, List.mem_filter.mpr ⟨?_, ?_⟩, rfl⟩
    · exact (ht.mem_trail hs).mpr ⟨Arena.lt_size_of_not_isLeaf hl, hsid⟩
    · rw [Bool.and_eq_true, decide_eq_true_eq]
      exact ⟨by simpa using hl, (hmark hl hsid).mpr ⟨u, hu, hsplit⟩⟩

end AdaptiveSequence

end StateIdentification
