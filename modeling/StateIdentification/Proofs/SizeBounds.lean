import StateIdentification.Proofs.MatrixEntries
import StateIdentification.Proofs.RobustDerivation
import StateIdentification.Proofs.SequenceSoundness
import StateIdentification.Proofs.StateEquivalence
import StateIdentification.Proofs.TurnByTurn

/-!
# How large trees, sequences and words become

A splitting tree has at most one leaf for each state, and every inner node has several children, so
there are fewer inner nodes than states. A separator is an input, or an input followed by a
separator that is already there. So every separator is at most as long as there were inner nodes
when its node was split, counting that node. On the way down in a tree or in a sequence there are
fewer and fewer states or candidates, which bounds the depth of a tree and the number of words that
a sequence applies.

## Main results

- `SplittingTree.Grown.length_separator_le`: the length of separators.
- `SplittingTree.Divides.depth_lt`: the depth of a tree.
- `AdaptiveSequence.Narrowing.countP_inner_lt`: the inner nodes on a path.
- `AdaptiveSequence.Narrowing.length_pathWord_le`: the word that is applied on a path.
- `SplittingTree.ofMachine_sizes`: all bounds for the tree of a machine.
-/

namespace StateIdentification

variable {M : Machine} {options : SplittingOptions}

namespace SplittingTree

variable {t : SplittingTree} {id c : Nat} {w : Word} {parts : List (List State)}

theorem innerCount_split (hid : id ∈ t.leaves) (w : Word) (hp : parts ≠ []) :
    (t.split id w parts).innerCount = t.innerCount + 1 :=
  Arena.innerCount_grow hid (by simpa using hp)

/-- No separator is longer than there are inner nodes, as it goes on with an earlier separator. -/
theorem Grown.length_separator_le (h : t.Grown M options) (id : Nat) :
    (t.separator id).length ≤ t.innerCount := by
  induction h generalizing id with
  | single =>
    rw [(divides_ofSize M).separator_leaf (Arena.isLeaf_iff.mpr (Arena.children_single _ _))]
    exact Nat.zero_le _
  | @split t leaf inputs w before divides isLeaf perm found ih =>
    obtain ⟨hsize, -⟩ := Arena.mem_leaves.mp isLeaf
    obtain ⟨s, hs⟩ := divides.exists_mem hsize
    have hword : w.length ≤ t.innerCount + 1 ∧ 2 ≤ M.classCount (t.states leaf) w := by
      rcases divides.findSplit_eq_some (fun s => divides.mem_states hsize) (List.ne_nil_of_mem hs)
        found with ⟨i, -, rfl, hcount, -⟩ | ⟨i, -, oracle, rfl, -, -, hcount, -⟩
      · exact ⟨Nat.le_add_left 1 _, hcount⟩
      · exact ⟨Nat.succ_le_succ (ih oracle), hcount⟩
    have hparts : classes (t.states leaf) (M.lastOutput · w) ≠ [] := by
      refine List.length_pos_iff.mp ?_
      rw [length_classes]
      exact Nat.lt_of_lt_of_le Nat.zero_lt_two hword.2
    rw [innerCount_split isLeaf w hparts, separator_split hsize]
    split
    · exact hword.1
    · exact (ih id).trans (Nat.le_succ _)

namespace Divides

theorem simple (h : t.Divides M) : t.Simple := ⟨h.rooted, h.nodup_children⟩

theorem innerCount_lt (h : t.Divides M) : t.innerCount < M.stateCount :=
  (h.simple.innerCount_lt fun _ => h.branching).trans_le h.leafCount_le

theorem size_lt (h : t.Divides M) : t.size < 2 * M.stateCount :=
  (h.simple.size_lt fun _ => h.branching).trans_le (Nat.mul_le_mul_left 2 h.leafCount_le)

/-- A child has fewer states than its parent. -/
theorem length_child_lt (h : t.Divides M) (hc : c ∈ t.children id) :
    (t.states c).length < (t.states id).length := by
  have hl := Arena.not_isLeaf_of_mem hc
  calc (t.states c).length < total (fun c => (t.states c).length) (t.children id) := by
        refine lt_total_of_mem (f := fun c => (t.states c).length) (h.branching hl)
          (fun d hd => ?_) hc
        obtain ⟨s, hs⟩ := h.exists_mem (Arena.lt_size_of_mem_children hd)
        exact List.length_pos_of_mem hs
    _ = total List.length ((t.children id).map t.states) := (total_map _ _ _).symm
    _ = (t.states id).length := by rw [h.divided hl, total_length_classes]

/-- Every level of the tree takes a state. -/
theorem depth_lt (h : t.Divides M) (hid : id < t.size) : t.depth id < M.stateCount := by
  have hdepth := Arena.depth_add_le (f := fun id => (t.states id).length) h.rooted h.depth_root
    h.depth_child h.length_child_lt hid
  obtain ⟨s, hs⟩ := h.exists_mem hid
  have hpos := List.length_pos_of_mem hs
  rw [← h.stateCount_eq, stateCount]
  omega

end Divides

end SplittingTree

namespace AdaptiveSequence

namespace Narrowing

variable {t : SplittingTree} {size : Nat} {a : AdaptiveSequence} {id : Nat}

/-- If there is a state, every node has a candidate. -/
theorem length_pos (h : Narrowing t size a) (hsize : 0 < size) (hid : id < a.size) :
    0 < (a.candidates id).length := by
  induction id, hid using h.rooted.induction with
  | atRoot => simpa [h.candidates_root] using hsize
  | child p c _ hc _ =>
    obtain ⟨hdivided, hmem⟩ := h.candidates_child hc
    exact List.length_pos_iff.mpr (hdivided.occupied _ hmem)

/-- Every word that is applied on a path takes a candidate. -/
theorem countP_inner_lt (h : Narrowing t size a) (hsize : 0 < size) {l : List Nat}
    (hl : a.IsPath (Arena.root :: l)) :
    (Arena.root :: l).countP (!a.isLeaf ·) < size := by
  have hcount := Arena.countP_inner_lt (f := fun id => (a.candidates id).length)
    h.length_child_lt (fun _ => h.length_pos hsize) a.root_lt_size hl
  simpa [h.candidates_root] using hcount

/-- The words on a path are no longer than the separators of the tree allow. -/
theorem length_flatMap_le (h : Narrowing t size a) {k : Nat}
    (hsep : ∀ oracle, ¬ t.isLeaf oracle → (t.separator oracle).length ≤ k) (l : List Nat) :
    (l.flatMap a.word).length ≤ k * l.countP (!a.isLeaf ·) := by
  induction l with
  | nil => exact Nat.zero_le _
  | cons id l ih =>
    rw [List.flatMap_cons, List.length_append, List.countP_cons]
    by_cases hl : a.isLeaf id
    · simpa [hl, h.word_leaf hl] using ih
    · obtain ⟨oracle, hinner, hword⟩ := (h.divided hl).1
      have hlen := hsep oracle hinner
      simp only [hl, hword, Nat.mul_add]
      simpa [Nat.add_comm] using Nat.add_le_add ih hlen

theorem length_pathWord_le (h : Narrowing t size a) (hsize : 0 < size) {k : Nat}
    (hsep : ∀ oracle, ¬ t.isLeaf oracle → (t.separator oracle).length ≤ k) {s : State} {w : Word}
    (hw : a.pathWord? s = some w) : w.length ≤ k * (size - 1) := by
  obtain ⟨l, hl, rfl⟩ := Option.map_eq_some_iff.mp hw
  rw [trail?, Arena.trailFromRoot?] at hl
  split at hl
  case isFalse => cases hl
  case isTrue =>
    obtain ⟨rest, rfl, hpath, -⟩ := Arena.isPath_of_trail? hl
    have hcount := h.countP_inner_lt hsize hpath
    exact (h.length_flatMap_le hsep _).trans (Nat.mul_le_mul_left k (by omega))

end Narrowing

end AdaptiveSequence

/-- The tree of a machine with `n` states has at most `n` leaves and `2 * n - 1` nodes, none of them
deeper than `n - 1`. Its separators are at most as long as it has inner nodes, of which there are at
most `n - 1`, and so are the words of its matrix. If a sequence is derived from it, words are
applied in at most `n - 1` nodes of every path from the root, and together they have at most
`(n - 1) ^ 2` inputs. -/
theorem SplittingTree.ofMachine_sizes [RandomSource] (M : Machine) (options : SplittingOptions)
    (seed : UInt64) :
    ∃ r, ofMachine M options seed = .ok r ∧
      r.tree.leafCount ≤ M.stateCount ∧ r.tree.size ≤ 2 * M.stateCount - 1 ∧
      (∀ id < r.tree.size, r.tree.depth id ≤ M.stateCount - 1) ∧
      (∀ id < r.tree.size, (r.tree.separator id).length ≤ r.tree.innerCount) ∧
      r.tree.innerCount ≤ M.stateCount - 1 ∧
      (∀ w ∈ (SeparatingMatrix.ofTree r.tree).words, w.length ≤ M.stateCount - 1) ∧
      ∀ a, AdaptiveSequence.ofTree r = .ok a →
        (∀ l, a.IsPath (Arena.root :: l) →
          (Arena.root :: l).countP (!a.isLeaf ·) ≤ M.stateCount - 1) ∧
        ∀ s ∈ M.states, ∃ w, a.pathWord? s = some w ∧
          w.length ≤ (M.stateCount - 1) * (M.stateCount - 1) := by
  obtain ⟨r, hr, hof⟩ := ofMachine_final M options seed
  have hinner := hr.divides.innerCount_lt
  have hseparator (id : Nat) : (r.tree.separator id).length ≤ M.stateCount - 1 :=
    (hr.grown.length_separator_le id).trans (Nat.le_sub_one_of_lt hinner)
  refine ⟨r, hof options.checkFineness, hr.divides.leafCount_le,
    Nat.le_sub_one_of_lt hr.divides.size_lt,
    fun id hid => Nat.le_sub_one_of_lt (hr.divides.depth_lt hid),
    fun id _ => hr.grown.length_separator_le id, Nat.le_sub_one_of_lt hinner, fun w hw => ?_,
    fun a ha => ⟨fun l hl => ?_, fun s hs => ?_⟩⟩
  · rcases eq_nil_or_separator_of_mem_words hw with rfl | ⟨id, -, rfl⟩
    · exact Nat.zero_le _
    · exact hseparator id
  all_goals
    obtain ⟨id, hpasses, -⟩ := AdaptiveSequence.passes_of_ofTree hr.divides.orderly ha
    obtain ⟨hnarrowing, -⟩ := hpasses.narrowing hr.divides.orderly
  · exact Nat.le_sub_one_of_lt (hnarrowing.countP_inner_lt M.stateCount_pos hl)
  · obtain ⟨hdescribes, -⟩ := AdaptiveSequence.describes_of_ofTree hr ha
    obtain ⟨leaf, -, -, hw, -⟩ := hdescribes.exists_ending hs
    exact ⟨_, hw, hnarrowing.length_pathWord_le M.stateCount_pos (fun id _ => hseparator id) hw⟩

/-- The bounds for the tree are reached, with a separator of four inputs. -/
example : ∃ r, SplittingTree.ofMachine laggard .leeYannakakis 0 = .ok r ∧
    (r.tree.leafCount, r.tree.size, r.tree.innerCount) = (5, 9, 4) ∧
    r.tree.inner.map (fun id => (r.tree.separator id).length) = [1, 2, 4, 3] :=
  SplittingTree.exists_of_runFor 12 (by decide +kernel)

end StateIdentification
