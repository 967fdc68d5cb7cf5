import StateIdentification.Proofs.TreeShape
import StateIdentification.SplittingTree.CommonAncestor

/-!
# The lowest node that holds states together

The marks of a splitting tree tell in which subtrees the states of a set are. Going down along the
marks ends in a node that holds all of these states, and either it is a leaf or at least two of its
children hold some of them.

## Main results

- `SplittingTree.get_mark`: what is marked, told for all nodes at once.
- `SplittingTree.get_mark_of_leaf`, `SplittingTree.get_mark_of_inner`,
  `SplittingTree.get_mark_of_size_le`: the marks of leaves and of inner nodes, and no others.
- `SplittingTree.Divides.marked_iff`: a node is marked if it holds a state of the set.
- `SplittingTree.Divides.one_lt_mark_iff`: it is marked more than once if it splits the set.
- `SplittingTree.Divides.lowestCommonAncestor_spec`: where the descent ends.
- `SplittingTree.Divides.countP_marked`: as many children are marked as there are last outputs.
-/

namespace StateIdentification.SplittingTree

/-- The descent stays in the tree, whatever the marks are. -/
theorem descend_lt_size (t : SplittingTree) (m : Marks) {id : Nat} (hid : id < t.size) :
    t.descend m id < t.size := by
  induction id using t.inductionOnChildren with
  | node id ih =>
    rw [descend]
    split
    · exact hid
    · split
      case h_1 => exact hid
      case h_2 c hfound =>
        have hc : c ∈ t.children id := List.mem_of_find?_eq_some hfound
        exact ih c hc (Arena.lt_size_of_mem_children hc)

/-- Marks that agree on the children of a node give it the same mark. -/
theorem markOf_congr {t : SplittingTree} {p : State → Bool} {m m' : Marks} {id : Nat}
    (h : ∀ c ∈ t.children id, m.get c = m'.get c) : t.markOf p m id = t.markOf p m' id := by
  unfold markOf
  split
  · rfl
  · exact List.countP_congr fun c hc => by simp [h c hc]

/-- Changing marks keeps their number. -/
theorem size_foldr_set (f : Nat → Marks → Nat) (ids : List Nat) (m : Marks) :
    (ids.foldr (fun id m => m.set id (f id m)) m).values.size = m.values.size := by
  induction ids with
  | nil => rfl
  | cons id ids ih => rw [List.foldr_cons, Marks.set, Array.size_setIfInBounds, ih]

/-- In the end, every node has the mark that follows from the marks of its children. -/
theorem get_mark (t : SplittingTree) (scratch : Marks) (p : State → Bool) {id : Nat}
    (h : id < t.size) :
    (t.mark scratch p).get id = t.markOf p (t.mark scratch p) id := by
  -- the marks after the nodes from `k` on were visited
  have from_node (n k : Nat) (hk : k + n = t.size) :
      let m := (List.range' k n).foldr (fun id m => m.set id (t.markOf p m id))
        (scratch.reset t.size)
      ∀ id, k ≤ id → id < t.size → m.get id = t.markOf p m id := by
    induction n generalizing k with
    | zero =>
      intro m id hle hlt
      omega
    | succ n ih =>
      rw [List.range'_succ, List.foldr_cons]
      have hget := ih (k + 1) (by omega)
      have hsize := size_foldr_set (fun id m => t.markOf p m id) (List.range' (k + 1) n)
        (scratch.reset t.size)
      rw [Marks.size_reset] at hsize
      generalize (List.range' (k + 1) n).foldr _ _ = m at hget hsize ⊢
      intro m' id hle hlt
      have children_same : ∀ c ∈ t.children id, m.get c = m'.get c := by
        intro c hc
        have := Arena.lt_of_mem_children hc
        exact (Marks.get_set_ne (by omega) _).symm
      rcases Nat.eq_or_lt_of_le hle with rfl | hlt'
      · rw [Marks.get_set_self (by omega)]
        exact markOf_congr children_same
      · rw [Marks.get_set_ne (by omega), hget id hlt' hlt]
        exact markOf_congr children_same
  have := from_node t.size 0 (by omega)
  rw [← List.range_eq_range'] at this
  exact this id (Nat.zero_le _) h

/-- A leaf is marked with the number of its states in the set. -/
theorem get_mark_of_leaf {t : SplittingTree} {id : Nat} (hid : id ∈ t.leaves) (scratch : Marks)
    (p : State → Bool) : (t.mark scratch p).get id = (t.states id).countP p := by
  obtain ⟨hlt, hl⟩ := Arena.mem_leaves.mp hid
  rw [t.get_mark scratch p hlt, markOf, if_pos hl]

/-- An inner node is marked with the number of its marked children. -/
theorem get_mark_of_inner {t : SplittingTree} {id : Nat} (hl : ¬ t.isLeaf id) (scratch : Marks)
    (p : State → Bool) :
    (t.mark scratch p).get id = (t.children id).countP (0 < (t.mark scratch p).get ·) := by
  rw [t.get_mark scratch p (Arena.lt_size_of_not_isLeaf hl), markOf, if_neg hl]

/-- There are no marks behind the last node, whatever marks there were before. -/
theorem get_mark_of_size_le {t : SplittingTree} {id : Nat} (h : t.size ≤ id) (scratch : Marks)
    (p : State → Bool) : (t.mark scratch p).get id = 0 := by
  have hsize : (t.mark scratch p).values.size = t.size := by
    rw [mark, size_foldr_set (fun id m => t.markOf p m id), Marks.size_reset]
  rw [Marks.get, Array.getD_eq_getD_getElem?, Array.getElem?_eq_none (by omega), Option.getD_none]

namespace Divides

variable {M : Machine} {t : SplittingTree} {id : Nat} {p : State → Bool}

/-- A node is marked if it holds a state of the set. -/
theorem marked_iff (h : t.Divides M) (scratch : Marks) (hid : id < t.size) :
    0 < (t.mark scratch p).get id ↔ ∃ s ∈ t.states id, p s := by
  induction id using t.inductionOnChildren with
  | node id ih =>
    by_cases hl : t.isLeaf id
    · rw [get_mark_of_leaf (Arena.mem_leaves.mpr ⟨hid, hl⟩), List.countP_pos_iff]
    · rw [get_mark_of_inner hl, List.countP_pos_iff]
      have below {c : Nat} (hc : c ∈ t.children id) :
          0 < (t.mark scratch p).get c ↔ ∃ s ∈ t.states c, p s :=
        ih c hc (Arena.lt_size_of_mem_children hc)
      constructor
      · rintro ⟨c, hc, hm⟩
        obtain ⟨s, hs, hps⟩ := (below hc).mp (of_decide_eq_true hm)
        exact ⟨s, h.mem_of_mem_child hc hs, hps⟩
      · rintro ⟨s, hs, hps⟩
        obtain ⟨c, hc, hsc⟩ := h.exists_child hl hs
        exact ⟨c, hc, decide_eq_true ((below hc).mpr ⟨s, hsc, hps⟩)⟩

/-- A node that has a state of the set is marked more than once if and only if it splits that state
from another one of the set. -/
theorem one_lt_mark_iff (h : t.Divides M) (scratch : Marks) (hl : ¬ t.isLeaf id) {s : State}
    (hs : s ∈ t.states id) (hps : p s) :
    1 < (t.mark scratch p).get id ↔ ∃ u, p u ∧ t.Splits id s u := by
  rw [get_mark_of_inner hl]
  have marked {c : Nat} (hc : c ∈ t.children id) :
      decide (0 < (t.mark scratch p).get c) ↔ ∃ u ∈ t.states c, p u := by
    rw [decide_eq_true_iff]
    exact h.marked_iff scratch (Arena.lt_size_of_mem_children hc)
  refine (two_le_countP_iff (h.nodup_children id)).trans ⟨?_, ?_⟩
  · rintro ⟨c, hc, d, hd, hmc, hmd, hne⟩
    obtain ⟨e, he, hse⟩ := h.exists_child hl hs
    -- one of the two marked children does not have `s`
    by_cases hec : e = c
    · obtain ⟨u, hu, hpu⟩ := (marked hd).mp hmd
      exact ⟨u, hpu, e, he, d, hd, hec ▸ hne, hse, hu⟩
    · obtain ⟨u, hu, hpu⟩ := (marked hc).mp hmc
      exact ⟨u, hpu, e, he, c, hc, hec, hse, hu⟩
  · rintro ⟨u, hpu, c, hc, d, hd, hne, hsc, hud⟩
    exact ⟨c, hc, d, hd, (marked hc).mpr ⟨s, hsc, hps⟩, (marked hd).mpr ⟨u, hud, hpu⟩, hne⟩

/-- Where the descent from a node ends that holds all states of the set: still in such a node, which
is a leaf or has several marked children, unless the set is empty. -/
theorem descend_spec (h : t.Divides M) (scratch : Marks) (hid : id < t.size)
    (hall : ∀ s ∈ M.states, p s → s ∈ t.states id) (hsome : ∃ s ∈ M.states, p s) :
    let m := t.mark scratch p
    let node := t.descend m id
    node < t.size ∧ (∀ s ∈ M.states, p s → s ∈ t.states node) ∧
      (¬ t.isLeaf node → 2 ≤ (t.children node).countP (0 < m.get ·)) := by
  induction id using t.inductionOnChildren with
  | node id ih =>
    intro m
    rw [descend]
    have hmark (hl : ¬ t.isLeaf id) : m.get id = (t.children id).countP (0 < m.get ·) :=
      get_mark_of_inner hl scratch p
    by_cases htwo : 1 < m.get id
    · simp only [htwo, if_true]
      exact ⟨hid, hall, fun hl => hmark hl ▸ htwo⟩
    · rw [if_neg htwo]
      obtain ⟨s, hs, hps⟩ := hsome
      split
      case h_1 hnone =>
        refine ⟨hid, hall, fun hl => ?_⟩
        obtain ⟨c, hc, hsc⟩ := h.exists_child hl (hall s hs hps)
        have := (h.marked_iff scratch (Arena.lt_size_of_mem_children hc)).mpr ⟨s, hsc, hps⟩
        exact absurd (decide_eq_true this) (List.find?_eq_none.mp hnone c hc)
      case h_2 c hfound =>
        have hc : c ∈ t.children id := List.mem_of_find?_eq_some hfound
        refine ih c hc (Arena.lt_size_of_mem_children hc) fun u hu hpu => ?_
        -- as at most one child is marked, all states of the set are in that child
        obtain ⟨d, hd, hud⟩ := h.exists_child (Arena.not_isLeaf_of_mem hc) (hall u hu hpu)
        have hdm := (h.marked_iff scratch (Arena.lt_size_of_mem_children hd)).mpr ⟨u, hud, hpu⟩
        have hcm : 0 < m.get c := of_decide_eq_true (List.find?_some (p := (0 < m.get ·)) hfound)
        have hdc : d = c := by
          by_contra hne
          have := (two_le_countP_iff (p := (0 < m.get ·)) (h.nodup_children id)).mpr
            ⟨d, hd, c, hc, decide_eq_true hdm, decide_eq_true hcm, hne⟩
          rw [← hmark (Arena.not_isLeaf_of_mem hc)] at this
          exact htwo this
        exact hdc ▸ hud

/-- The lowest common ancestor of a set with several states in different leaves divides that set. -/
theorem lowestCommonAncestor_spec (h : t.Divides M) (scratch : Marks)
    (hsome : ∃ s ∈ M.states, p s) :
    let query := t.lowestCommonAncestor scratch p
    query.1 < t.size ∧ (∀ s ∈ M.states, p s → s ∈ t.states query.1) ∧
      (¬ t.isLeaf query.1 → 2 ≤ (t.children query.1).countP (0 < query.2.get ·)) :=
  h.descend_spec scratch t.root_lt_size (fun _ hs _ => h.states_root ▸ hs) hsome

/-- As many children of a node are marked as the states of the set have last outputs. -/
theorem countP_marked (h : t.Divides M) (scratch : Marks) {ks : List State}
    (hl : ¬ t.isLeaf id) (hks : ∀ s ∈ ks, s ∈ t.states id) :
    (t.children id).countP (0 < (t.mark scratch (ks.contains ·)).get ·) =
      distinctCount (ks.map (M.lastOutput · (t.separator id))) := by
  rw [← countP_classes hks, ← h.divided hl, List.countP_map]
  refine List.countP_congr fun c hc => ?_
  have := h.marked_iff (p := (ks.contains ·)) scratch (Arena.lt_size_of_mem_children hc)
  simpa using this

end Divides

end StateIdentification.SplittingTree
