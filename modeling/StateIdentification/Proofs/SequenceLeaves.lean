import StateIdentification.Proofs.SequenceSoundness
import StateIdentification.Proofs.TreeTraversal
import StateIdentification.Suffixes.Family

/-!
# The leaves of an adaptive sequence

A descent with a stack comes to every leaf of an adaptive sequence once, with the word that has been
applied on the way there. Every initial state is in one leaf only, so it meets this one word, which
is its path word.

## Main results

- `AdaptiveSequence.Describes.leavesWithWord_perm`: what the descent gives.
- `AdaptiveSequence.Describes.leafOf?_of_mem`: the only leaf of an initial state.
-/

namespace StateIdentification.AdaptiveSequence

variable {M : Machine} {a : AdaptiveSequence} {id c d leaf : Nat} {s : State} {w : Word}

/-- The leaves below the nodes of a list, each with the word that is applied before it. -/
def leavesBelow (a : AdaptiveSequence) (ids : List Nat) : List (Nat × Word) :=
  ((ids.flatMap a.preorder).filter a.isLeaf).map fun leaf => (leaf, a.wordAbove leaf)

theorem leavesBelow_cons (a : AdaptiveSequence) (id : Nat) (ids : List Nat) :
    a.leavesBelow (id :: ids) =
      (if a.isLeaf id then [(id, a.wordAbove id)] else []) ++ a.leavesBelow (a.children id) ++
        a.leavesBelow ids := by
  simp only [leavesBelow, List.flatMap_cons, Arena.preorder_eq a id, List.cons_append,
    List.filter_cons, List.filter_append, List.append_assoc]
  split <;> simp

theorem leavesBelow_append (a : AdaptiveSequence) (ids others : List Nat) :
    a.leavesBelow (ids ++ others) = a.leavesBelow ids ++ a.leavesBelow others := by
  simp [leavesBelow]

theorem leavesBelow_perm {ids others : List Nat} (h : ids.Perm others) :
    (a.leavesBelow ids).Perm (a.leavesBelow others) :=
  ((h.flatMap_right _).filter _).map _

namespace Describes

/-- The children of a node are different: every candidate goes to one of them only. -/
theorem nodup_children (h : a.Describes M) (id : Nat) : (a.children id).Nodup := by
  by_cases hl : a.isLeaf id
  · rw [Arena.isLeaf_iff.mp hl]
    exact List.nodup_nil
  · have ho := h.outcomes hl
    refine (List.pairwise_map.mp ho.told).imp_of_mem fun {c d} hc _ htold heq => ?_
    subst heq
    obtain ⟨x, hx⟩ := List.exists_mem_of_ne_nil _ (ho.occupied _ (List.mem_map_of_mem hc))
    obtain ⟨y, hy, rfl⟩ := ho.moved _ (List.mem_map_of_mem hc) x hx
    exact htold y hy y hy hx hx rfl

/-- The descent gives the leaves that it had and those below the nodes of its stack. -/
theorem leavesFrom_perm (h : a.Describes M) (leaves stack : List (Nat × Word))
    (hwords : ∀ node ∈ stack, node.2 = a.wordAbove node.1) :
    (a.leavesFrom leaves stack).Perm (leaves ++ a.leavesBelow (stack.map (·.1))) := by
  fun_induction leavesFrom a leaves stack with
  | case1 => simp [leavesBelow]
  | case2 leaves id w stack hl ih =>
    obtain ⟨hw, hrest⟩ := List.forall_mem_cons.mp hwords
    obtain rfl : w = a.wordAbove id := hw
    have hnone : a.leavesBelow (a.children id) = [] := by
      rw [Arena.isLeaf_iff.mp hl]
      rfl
    rw [List.map_cons, leavesBelow_cons, if_pos hl, hnone, List.append_nil, ← List.append_assoc]
    exact ih hrest
  | case3 leaves id w stack hl ih =>
    obtain ⟨hw, hrest⟩ := List.forall_mem_cons.mp hwords
    obtain rfl : w = a.wordAbove id := hw
    have hchildren : (((a.children id).map (·, a.wordAbove id ++ a.word id)).reverse ++
        stack).map (·.1) = (a.children id).reverse ++ stack.map (·.1) := by
      simp [Function.comp_def]
    refine (ih fun node hnode => ?_).trans (List.Perm.append_left leaves ?_)
    · rcases List.mem_append.mp hnode with hnode | hnode
      · obtain ⟨c, hc, rfl⟩ := List.mem_map.mp (List.mem_reverse.mp hnode)
        exact (h.wordAbove_child hc).symm
      · exact hrest node hnode
    · rw [hchildren, List.map_cons, leavesBelow_cons, if_neg hl, List.nil_append,
        leavesBelow_append]
      exact (leavesBelow_perm (List.reverse_perm _)).append_right _

/-- The descent comes to every leaf once, with the word that is applied on the way there. -/
theorem leavesWithWord_perm (h : a.Describes M) :
    a.leavesWithWord.Perm (a.leaves.map fun leaf => (leaf, a.wordAbove leaf)) := by
  have hperm := h.leavesFrom_perm [] [(Arena.root, [])] (by simp)
  rw [List.nil_append, List.map_singleton] at hperm
  refine hperm.trans (List.Perm.map _ ?_)
  rw [List.flatMap_singleton]
  exact (h.rooted.preorder_root_perm h.nodup_children).filter _

theorem mem_leavesWithWord (h : a.Describes M) :
    (leaf, w) ∈ a.leavesWithWord ↔ leaf ∈ a.leaves ∧ w = a.wordAbove leaf := by
  rw [h.leavesWithWord_perm.mem_iff, List.mem_map]
  constructor
  · rintro ⟨l, hl, heq⟩
    obtain ⟨rfl, rfl⟩ := Prod.mk.inj heq
    exact ⟨hl, rfl⟩
  · rintro ⟨hl, rfl⟩
    exact ⟨leaf, hl, rfl⟩

/-- From the root, the experiment passes the nodes above a node that has the initial state, and goes
on as it does from there. -/
theorem trailFrom?_root (h : a.Describes M) (hid : id < a.size) (hs : s ∈ a.initials id) :
    a.trailFrom? s Arena.root = (a.trailFrom? s id).map (a.ancestors id ++ ·) := by
  induction id, hid using h.rooted.induction with
  | atRoot => simp
  | child p c hp hc ih =>
    obtain ⟨x, hx, rfl⟩ := List.mem_map.mp hs
    obtain ⟨y, hy, rfl⟩ := h.moved hc hx
    obtain ⟨d, hd, hyd, htrail⟩ := h.trailFrom?_of_inner (Arena.not_isLeaf_of_mem hc) hy
    obtain rfl : c = d := (h.told hc hd hy hy hx hyd).mp rfl
    have hin : y.initial ∈ a.initials p := List.mem_map_of_mem hy
    have hroot : a.trailFrom? (y.after M (a.word p)).initial Arena.root =
        (a.trailFrom? y.initial p).map (a.ancestors p ++ ·) := ih hin
    rw [hroot, htrail, h.rooted.ancestors_child hc, Option.map_map]
    simp [Function.comp_def, Candidate.after]

/-- A leaf that has an initial state is the one in which the experiment ends for it. -/
theorem leafOf?_of_mem (h : a.Describes M) (hleaf : leaf ∈ a.leaves) (hs : s ∈ a.initials leaf) :
    a.leafOf? s = some leaf := by
  obtain ⟨hlt, hl⟩ := Arena.mem_leaves.mp hleaf
  obtain ⟨y, hy, rfl⟩ := List.mem_map.mp hs
  have hroot : y.initial ∈ (a.label Arena.root).candidates.map (·.initial) := by
    refine List.mem_map.mpr ⟨⟨y.initial, y.initial⟩, ?_, rfl⟩
    have : ⟨y.initial, y.initial⟩ ∈ a.candidates Arena.root := by
      rw [h.candidates_root]
      exact List.mem_map_of_mem (h.mem_states hlt hy).2
    exact this
  have htrail : a.trail? y.initial = a.trailFrom? y.initial Arena.root := by
    rw [trail?, Arena.trailFromRoot?, if_pos (decide_eq_true hroot), trailFrom?]
  have hend : a.trailFrom? y.initial leaf = some [leaf] := Arena.trail?_of_isLeaf hl
  rw [leafOf?, htrail, h.trailFrom?_root hlt hs, hend]
  simp

end Describes

end StateIdentification.AdaptiveSequence
