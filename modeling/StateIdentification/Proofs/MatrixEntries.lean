import StateIdentification.Proofs.TreeShape
import StateIdentification.Suffixes.Matrix

/-!
# The entries of a separating matrix

Two states of different leaves are split by exactly one node of a splitting tree, so the word of
the pair is written for this node only, for both orders of the pair. Two states of one leaf get no
word.

## Main results

- `SeparatingMatrix.get_eq`: a pair of states in range has a word.
- `SplittingTree.Divides.wordOf_of_splits`, `SplittingTree.Divides.wordOf_of_leaf`: it is the
  separator of the node that splits the states, and empty if they are in one leaf.
-/

namespace StateIdentification

section OrderedPairs

variable {α : Type u} {r : α → α → Prop} {x y : α} {xs : List α}

theorem mem_of_mem_orderedPairs (h : (x, y) ∈ orderedPairs xs) : x ∈ xs ∧ y ∈ xs := by
  induction xs with
  | nil => simp [orderedPairs] at h
  | cons z xs ih =>
    simp only [orderedPairs, List.mem_append, List.mem_map, Prod.mk.injEq] at h
    rcases h with ⟨_, hy, rfl, rfl⟩ | h
    · exact ⟨List.mem_cons_self, List.mem_cons_of_mem _ hy⟩
    · exact ⟨List.mem_cons_of_mem _ (ih h).1, List.mem_cons_of_mem _ (ih h).2⟩

/-- A relation from earlier to later members of a list relates the two of a pair. -/
theorem rel_of_mem_orderedPairs (hr : xs.Pairwise r) (h : (x, y) ∈ orderedPairs xs) : r x y := by
  induction xs with
  | nil => simp [orderedPairs] at h
  | cons z xs ih =>
    obtain ⟨hz, hr⟩ := List.pairwise_cons.mp hr
    simp only [orderedPairs, List.mem_append, List.mem_map, Prod.mk.injEq] at h
    rcases h with ⟨_, hy, rfl, rfl⟩ | h
    · exact hz _ hy
    · exact ih hr h

theorem ne_of_mem_orderedPairs (hn : xs.Nodup) (h : (x, y) ∈ orderedPairs xs) : x ≠ y :=
  rel_of_mem_orderedPairs hn h

/-- Two different members of a list are a pair in one of the two orders. -/
theorem mem_orderedPairs_or (hx : x ∈ xs) (hy : y ∈ xs) (hne : x ≠ y) :
    (x, y) ∈ orderedPairs xs ∨ (y, x) ∈ orderedPairs xs := by
  induction xs with
  | nil => simp at hx
  | cons z xs ih =>
    simp only [orderedPairs, List.mem_append, List.mem_map, Prod.mk.injEq]
    rcases List.mem_cons.mp hx with rfl | hxs <;> rcases List.mem_cons.mp hy with rfl | hys
    · exact absurd rfl hne
    · exact .inl (.inl ⟨y, hys, rfl, rfl⟩)
    · exact .inr (.inl ⟨x, hxs, rfl, rfl⟩)
    · exact (ih hxs hys).imp .inr .inr

end OrderedPairs

namespace SeparatingMatrix

variable {m : SeparatingMatrix} {s u : State}

/-- Every pair of states in range has a word. -/
theorem get_eq (hs : s.index < m.size) (hu : u.index < m.size) :
    m.get s u = .ok (m.wordOf s u) := by
  have hlt := place_lt hs hu
  simp [get, wordOf, hlt]

/-- An entry is for the pair of two states, in one of the two orders. -/
def IsFor (e : State × State × Word) (s u : State) : Prop :=
  (s = e.1 ∧ u = e.2.1) ∨ (s = e.2.1 ∧ u = e.1)

theorem mem_words_put {p q : State} {v w : Word} (h : v ∈ (m.put p q w).words) :
    v = w ∨ v ∈ m.words := by
  rcases Array.mem_or_eq_of_mem_setIfInBounds h with h | rfl
  · exact (Array.mem_or_eq_of_mem_setIfInBounds h).symm
  · exact .inl rfl

/-- There are no words but those that were there and those that are written. -/
theorem mem_words_foldl_put {es : List (State × State × Word)} {v : Word}
    (h : v ∈ (es.foldl (fun m (p, q, w) => m.put p q w) m).words) :
    v ∈ m.words ∨ ∃ e ∈ es, v = e.2.2 := by
  induction es generalizing m with
  | nil => exact .inl h
  | cons e es ih =>
    obtain h | ⟨e', he', hv⟩ := ih h
    · exact (mem_words_put h).elim (fun hv => .inr ⟨e, List.mem_cons_self, hv⟩) .inl
    · exact .inr ⟨e', List.mem_cons_of_mem _ he', hv⟩

theorem size_foldl_put (es : List (State × State × Word)) :
    (es.foldl (fun m (p, q, w) => m.put p q w) m).size = m.size := by
  induction es generalizing m with
  | nil => rfl
  | cons e es ih => exact ih

/-- If all entries for a pair have the same word, it is written, or else it stays. -/
theorem wordOf_foldl_put {es : List (State × State × Word)}
    (hes : ∀ e ∈ es, e.1.index < m.size ∧ e.2.1.index < m.size) (hu : u.index < m.size) {w : Word}
    (hall : ∀ e ∈ es, IsFor e s u → e.2.2 = w)
    (hsome : m.wordOf s u = w ∨ ∃ e ∈ es, IsFor e s u) :
    (es.foldl (fun m (p, q, w) => m.put p q w) m).wordOf s u = w := by
  induction es generalizing m with
  | nil => exact hsome.resolve_right (by simp)
  | cons e es ih =>
    obtain ⟨he, hes⟩ := List.forall_mem_cons.mp hes
    obtain ⟨hw, hall⟩ := List.forall_mem_cons.mp hall
    have hput := wordOf_put he.1 he.2 hu e.2.2 (s := s)
    refine ih (m := m.put e.1 e.2.1 e.2.2) hes hu hall ?_
    by_cases hfor : IsFor e s u
    · exact .inl (hput.trans ((if_pos hfor).trans (hw hfor)))
    · rcases hsome with hold | ⟨e', he', hfor'⟩
      · exact .inl (hput.trans ((if_neg hfor).trans hold))
      · rcases List.mem_cons.mp he' with rfl | he'
        · exact absurd hfor' hfor
        · exact .inr ⟨e', he', hfor'⟩

end SeparatingMatrix

namespace SplittingTree

variable {M : Machine} {t : SplittingTree} {p q s u : State} {w : Word} {id c d : Nat}

theorem mem_splitPairs : (p, q, w) ∈ t.splitPairs ↔ ∃ id < t.size, ∃ c d,
    (c, d) ∈ orderedPairs (t.children id) ∧ p ∈ t.states c ∧ q ∈ t.states d ∧
      w = t.separator id := by
  simp only [splitPairs, List.mem_flatMap, List.mem_map, Prod.mk.injEq, Arena.ids, List.mem_range,
    Prod.exists]
  grind

/-- Every word of the matrix of a tree is empty or a separator of the tree. -/
theorem eq_nil_or_separator_of_mem_words (h : w ∈ (SeparatingMatrix.ofTree t).words) :
    w = [] ∨ ∃ id < t.size, w = t.separator id := by
  obtain hblank | ⟨⟨p, q, v⟩, he, rfl⟩ := SeparatingMatrix.mem_words_foldl_put h
  · exact .inl (Array.mem_replicate.mp hblank).2
  · obtain ⟨id, hid, -, -, -, -, -, heq⟩ := mem_splitPairs.mp he
    exact .inr ⟨id, hid, heq⟩

theorem Divides.size_ofTree (h : t.Divides M) : (SeparatingMatrix.ofTree t).size = M.stateCount :=
  (SeparatingMatrix.size_foldl_put _).trans h.stateCount_eq

/-- The word of two states is that of the nodes that split them, if there are any. -/
theorem Divides.wordOf_ofTree_eq (h : t.Divides M) (hu : u ∈ M.states)
    (hall : ∀ id, t.Splits id s u → t.separator id = w)
    (hsome : w = [] ∨ ∃ id, t.Splits id s u) : (SeparatingMatrix.ofTree t).wordOf s u = w := by
  have inRange {x : State} (hx : x ∈ M.states) :
      x.index < (SeparatingMatrix.blank t.stateCount).size := by
    rw [SeparatingMatrix.blank, h.stateCount_eq]
    exact Machine.mem_states.mp hx
  refine SeparatingMatrix.wordOf_foldl_put ?_ (inRange hu) ?_ ?_
  · rintro ⟨p, q, w⟩ he
    obtain ⟨id, -, c, d, hpair, hp, hq, -⟩ := mem_splitPairs.mp he
    obtain ⟨hc, hd⟩ := mem_of_mem_orderedPairs hpair
    exact ⟨inRange (h.mem_states (Arena.lt_size_of_mem_children hc) hp),
      inRange (h.mem_states (Arena.lt_size_of_mem_children hd) hq)⟩
  · rintro ⟨p, q, w⟩ he hfor
    obtain ⟨id, -, c, d, hpair, hp, hq, rfl⟩ := mem_splitPairs.mp he
    obtain ⟨hc, hd⟩ := mem_of_mem_orderedPairs hpair
    have hsplit : t.Splits id p q :=
      ⟨c, hc, d, hd, ne_of_mem_orderedPairs (h.nodup_children id) hpair, hp, hq⟩
    rcases hfor with ⟨rfl, rfl⟩ | ⟨rfl, rfl⟩
    · exact hall id hsplit
    · exact hall id hsplit.symm
  · rcases hsome with rfl | ⟨id, hsplit⟩
    · exact .inl (SeparatingMatrix.wordOf_blank _ _ _)
    · have hsep := hall id hsplit
      have hid := Arena.lt_size_of_not_isLeaf hsplit.not_isLeaf
      obtain ⟨c, hc, d, hd, hne, hs, hu⟩ := hsplit
      rcases mem_orderedPairs_or hc hd hne with hpair | hpair
      · exact .inr ⟨_, mem_splitPairs.mpr ⟨id, hid, c, d, hpair, hs, hu, hsep.symm⟩,
          .inl ⟨rfl, rfl⟩⟩
      · exact .inr ⟨_, mem_splitPairs.mpr ⟨id, hid, d, c, hpair, hu, hs, hsep.symm⟩,
          .inr ⟨rfl, rfl⟩⟩

/-- The word of two states is the separator of the node that splits them. -/
theorem Divides.wordOf_of_splits (h : t.Divides M) (hu : u ∈ M.states) (hid : t.Splits id s u) :
    (SeparatingMatrix.ofTree t).wordOf s u = t.separator id :=
  h.wordOf_ofTree_eq hu (fun _ hother => h.splits_unique hother hid ▸ rfl) (.inr ⟨id, hid⟩)

/-- Two states of one leaf have no word. -/
theorem Divides.wordOf_of_leaf (h : t.Divides M) {leaf : Nat} (hleaf : leaf ∈ t.leaves)
    (hs : s ∈ t.states leaf) (hu : u ∈ t.states leaf) :
    (SeparatingMatrix.ofTree t).wordOf s u = [] :=
  h.wordOf_ofTree_eq (h.mem_states (Arena.mem_leaves.mp hleaf).1 hu)
    (fun _ hsplit => absurd hsplit (h.not_splits_of_leaf hleaf hs hu)) (.inl rfl)

end SplittingTree

end StateIdentification
