import Mathlib.Data.List.Nodup
import Mathlib.Data.List.ProdSigma
import StateIdentification.Proofs.LowestCommonAncestor
import StateIdentification.Proofs.MatrixEntries
import StateIdentification.Proofs.SeparatorMeaning
import StateIdentification.Proofs.StateEquivalence
import StateIdentification.Proofs.TreeTraversal

/-!
# What a separating matrix tells

A separating matrix is filled while the tree is traversed by levels: every node writes its separator
for all states in different children, in both orders. As two states are split by one node at most,
no entry is written twice, and the order of the nodes does not matter.

## Main definitions

- `SeparatingMatrix.write`: writes one entry.
- `SplittingTree.separatedPairs`: the pairs of states in different children of a node.
- `SplittingTree.writes`: all entries in the order in which they are written.

## Main results

- `SplittingTree.Divides.nodup_writes`: no entry is written twice.
- `SplittingTree.Divides.ofTree_eq`: the matrix is what these entries leave.
- `SplittingTree.Divides.exists_isLowest`: a word is the separator of the lowest node that holds
  both states.
- `SeparatingMatrix.ofTree_words`: what the matrix tells of a machine.
-/

namespace StateIdentification

section OrderedPairs

variable {α : Type u} {r : α → α → Prop} {x y : α} {xs : List α}

/-- The pairs of an ascending list ascend by their first members, and then by their second ones. -/
theorem pairwise_orderedPairs (hr : xs.Pairwise r) :
    (orderedPairs xs).Pairwise (Prod.Lex r r) := by
  induction xs with
  | nil => exact .nil
  | cons z xs ih =>
    obtain ⟨hz, hr⟩ := List.pairwise_cons.mp hr
    refine List.pairwise_append.mpr ⟨?_, ih hr, ?_⟩
    · exact List.pairwise_map.mpr (hr.imp fun hlt => .right z hlt)
    · rintro _ hleft ⟨a, b⟩ hright
      obtain ⟨y, hy, rfl⟩ := List.mem_map.mp hleft
      exact .left _ _ (hz a (mem_of_mem_orderedPairs hright).1)

theorem nodup_orderedPairs (hn : xs.Nodup) : (orderedPairs xs).Nodup :=
  (pairwise_orderedPairs hn).imp fun {a b} hlex heq => by
    subst heq
    cases hlex <;> contradiction

theorem swap_notMem_orderedPairs (hn : xs.Nodup) (h : (x, y) ∈ orderedPairs xs) :
    (y, x) ∉ orderedPairs xs := by
  induction xs with
  | nil => simp [orderedPairs]
  | cons z xs ih =>
    obtain ⟨hz, hn⟩ := List.nodup_cons.mp hn
    simp only [orderedPairs, List.mem_append, List.mem_map, Prod.mk.injEq] at h ⊢
    rcases h with ⟨_, -, rfl, rfl⟩ | h
    · rintro (⟨_, hzs, -, rfl⟩ | hswap)
      · exact hz hzs
      · exact hz (mem_of_mem_orderedPairs hswap).2
    · rintro (⟨_, -, rfl, rfl⟩ | hswap)
      · exact hz (mem_of_mem_orderedPairs h).2
      · exact ih hn h hswap

/-- In an ascending list the earlier one of two members is the smaller one. -/
theorem mem_orderedPairs_range {kind : Kind} {count : Nat} {a b : Handle kind} :
    (a, b) ∈ orderedPairs (Handle.range count) ↔ a < b ∧ b.index < count := by
  constructor
  · intro h
    exact ⟨rel_of_mem_orderedPairs (Handle.pairwise_range count) h,
      Handle.mem_range.mp (mem_of_mem_orderedPairs h).2⟩
  · rintro ⟨hlt, hb⟩
    have ha : a.index < count := Nat.lt_trans hlt hb
    have hne : a ≠ b := fun heq => Nat.ne_of_lt hlt (congrArg Handle.index heq)
    apply (mem_orderedPairs_or (Handle.mem_range.mpr ha) (Handle.mem_range.mpr hb)
      hne).resolve_right
    intro hswap
    have hgt : b < a := rel_of_mem_orderedPairs (Handle.pairwise_range count) hswap
    exact Nat.lt_asymm hlt hgt

/-- Different pairs stay different in both orders, if none of them is another one turned round. -/
theorem nodup_bothOrders {ps : List (α × α)} (hn : ps.Nodup) (hswap : ∀ p ∈ ps, p.swap ∉ ps) :
    (ps.flatMap fun p => [p, p.swap]).Nodup := by
  refine List.nodup_flatMap.mpr ⟨fun p hp => ?_, hn.imp_of_mem fun {p q} hp hq hne => ?_⟩
  · have hne : p ≠ p.swap := fun heq => hswap p hp (heq ▸ hp)
    simp [hne]
  · have hpq : p ≠ q.swap := fun heq => hswap q hq (heq ▸ hp)
    have hqp : q ≠ p.swap := fun heq => hswap p hp (heq ▸ hq)
    simp [List.disjoint_left, Function.onFun, Prod.swap_inj, hne, hpq, hqp.symm]

end OrderedPairs

namespace SeparatingMatrix

variable {m : SeparatingMatrix} {s u : State} {es es' : List (State × State × Word)}

/-- Writes one entry. -/
def write (m : SeparatingMatrix) (s u : State) (w : Word) : SeparatingMatrix where
  size := m.size
  words := m.words.setIfInBounds (m.place s u) w
  size_words := by simp [m.size_words]

/-- Writes entries one after the other. -/
def writeAll (m : SeparatingMatrix) (es : List (State × State × Word)) : SeparatingMatrix :=
  es.foldl (fun m (s, u, w) => m.write s u w) m

/-- The order in which entries are written does not matter if all are for different pairs. -/
theorem writeAll_perm (h : es.Perm es') (hn : (es.map fun e => (e.1, e.2.1)).Nodup)
    (hin : ∀ e ∈ es, e.2.1.index < m.size) : m.writeAll es = m.writeAll es' := by
  induction h generalizing m with
  | nil => rfl
  | cons e _ ih =>
    exact ih (List.nodup_cons.mp hn).2 (List.forall_mem_cons.mp hin).2
  | swap e f es =>
    have hne : m.place f.1 f.2.1 ≠ m.place e.1 e.2.1 := by
      rw [Ne, place_inj (hin f (by simp)) (hin e (by simp))]
      grind
    have hcomm : (m.write f.1 f.2.1 f.2.2).write e.1 e.2.1 e.2.2 =
        (m.write e.1 e.2.1 e.2.2).write f.1 f.2.1 f.2.2 := by
      simp only [write, place, mk.injEq, true_and]
      exact Array.setIfInBounds_comm _ _ hne
    exact congrArg (writeAll · es) hcomm
  | trans hperm _ ih ih' =>
    rw [ih hn hin]
    exact ih' ((hperm.map _).nodup_iff.mp hn) fun e he => hin e (hperm.mem_iff.mpr he)

theorem foldl_put_eq (m : SeparatingMatrix) (es : List (State × State × Word)) :
    es.foldl (fun m (p, q, w) => m.put p q w) m =
      m.writeAll (es.flatMap fun (p, q, w) => [(p, q, w), (q, p, w)]) := by
  induction es generalizing m with
  | nil => rfl
  | cons e es ih => exact ih (m.put e.1 e.2.1 e.2.2)

/-- The list of pairs has every pair of states in range once, the smaller state first. -/
theorem mem_pairs {w : Word} :
    (s, u, w) ∈ m.pairs ↔ s < u ∧ u.index < m.size ∧ m.get s u = .ok w := by
  have word (hs : s.index < m.size) (hu : u.index < m.size) :
      m.wordOf s u = w ↔ m.get s u = .ok w := by
    rw [get_eq hs hu, Except.ok.injEq]
  simp only [pairs, List.mem_map, Prod.mk.injEq, Prod.exists]
  constructor
  · rintro ⟨s, u, hpair, rfl, rfl, hw⟩
    obtain ⟨hlt, hu⟩ := mem_orderedPairs_range.mp hpair
    exact ⟨hlt, hu, (word (Nat.lt_trans hlt hu) hu).mp hw⟩
  · rintro ⟨hlt, hu, hget⟩
    exact ⟨s, u, mem_orderedPairs_range.mpr ⟨hlt, hu⟩, rfl, rfl,
      (word (Nat.lt_trans hlt hu) hu).mpr hget⟩

theorem pairwise_pairs (m : SeparatingMatrix) :
    (m.pairs.map fun e => (e.1, e.2.1)).Pairwise (Prod.Lex (· < ·) (· < ·)) := by
  rw [pairs, List.map_map]
  exact List.pairwise_map.mpr (pairwise_orderedPairs (Handle.pairwise_range m.size))

end SeparatingMatrix

namespace SplittingTree

/-- The pairs of states in different children of a node, in the order of the children. -/
def separatedPairs (t : SplittingTree) (id : Nat) : List (State × State) :=
  (orderedPairs (t.children id)).flatMap fun (left, right) => t.states left ×ˢ t.states right

/-- All entries of the matrix in the order in which a traversal by levels writes them: every node
writes its separator for the states in different children, in both orders. -/
def writes (t : SplittingTree) : List (State × State × Word) :=
  t.breadthFirst.flatMap fun id => (t.separatedPairs id).flatMap fun (s, u) =>
    [(s, u, t.separator id), (u, s, t.separator id)]

variable {M : Machine} {t : SplittingTree} {id : Nat} {s u : State}

theorem mem_separatedPairs : (s, u) ∈ t.separatedPairs id ↔
    ∃ c d, (c, d) ∈ orderedPairs (t.children id) ∧ s ∈ t.states c ∧ u ∈ t.states d := by
  simp only [separatedPairs, List.mem_flatMap, List.mem_product, Prod.exists]

theorem map_writes (t : SplittingTree) :
    t.writes.map (fun e => (e.1, e.2.1)) =
      t.breadthFirst.flatMap fun id => (t.separatedPairs id).flatMap fun p => [p, p.swap] := by
  simp only [writes, List.map_flatMap, List.map_cons, List.map_nil]
  rfl

/-- Where the nodes are taken in order of creation, the entries are the same in another order. -/
theorem flatMap_splitPairs (t : SplittingTree) :
    (t.splitPairs.flatMap fun (p, q, w) => [(p, q, w), (q, p, w)]) =
      t.ids.flatMap fun id => (t.separatedPairs id).flatMap fun (s, u) =>
        [(s, u, t.separator id), (u, s, t.separator id)] := by
  simp only [splitPairs, separatedPairs, SProd.sprod, List.product, List.flatMap_assoc,
    List.flatMap_map]

theorem pair_subset_stateSet : {s, u} ⊆ t.stateSet id ↔ s ∈ t.states id ∧ u ∈ t.states id := by
  simp only [Finset.insert_subset_iff, Finset.singleton_subset_iff, mem_stateSet]

namespace Divides

theorem splits_of_mem_separatedPairs (h : t.Divides M) (hp : (s, u) ∈ t.separatedPairs id) :
    t.Splits id s u := by
  obtain ⟨c, d, hpair, hs, hu⟩ := mem_separatedPairs.mp hp
  obtain ⟨hc, hd⟩ := mem_of_mem_orderedPairs hpair
  exact ⟨c, hc, d, hd, ne_of_mem_orderedPairs (h.nodup_children id) hpair, hs, hu⟩

theorem nodup_separatedPairs (h : t.Divides M) (id : Nat) : (t.separatedPairs id).Nodup := by
  refine List.nodup_flatMap.mpr ⟨?_, ?_⟩
  · rintro ⟨c, d⟩ hpair
    obtain ⟨hc, hd⟩ := mem_of_mem_orderedPairs hpair
    exact (h.nodup (Arena.lt_size_of_mem_children hc)).product
      (h.nodup (Arena.lt_size_of_mem_children hd))
  · refine (nodup_orderedPairs (h.nodup_children id)).imp_of_mem ?_
    rintro ⟨c, d⟩ ⟨c', d'⟩ hpair hpair' hne ⟨s, u⟩ hmem hmem'
    obtain ⟨hc, hd⟩ := mem_of_mem_orderedPairs hpair
    obtain ⟨hc', hd'⟩ := mem_of_mem_orderedPairs hpair'
    obtain ⟨hs, hu⟩ := List.mem_product.mp hmem
    obtain ⟨hs', hu'⟩ := List.mem_product.mp hmem'
    obtain rfl := h.child_unique hc hc' hs hs'
    obtain rfl := h.child_unique hd hd' hu hu'
    exact hne rfl

theorem swap_notMem_separatedPairs (h : t.Divides M) (hp : (s, u) ∈ t.separatedPairs id) :
    (u, s) ∉ t.separatedPairs id := by
  intro hswap
  obtain ⟨c, d, hpair, hs, hu⟩ := mem_separatedPairs.mp hp
  obtain ⟨d', c', hpair', hu', hs'⟩ := mem_separatedPairs.mp hswap
  obtain ⟨hc, hd⟩ := mem_of_mem_orderedPairs hpair
  obtain ⟨hd', hc'⟩ := mem_of_mem_orderedPairs hpair'
  obtain rfl := h.child_unique hc hc' hs hs'
  obtain rfl := h.child_unique hd hd' hu hu'
  exact swap_notMem_orderedPairs (h.nodup_children id) hpair hpair'

/-- No two of the entries are for the same pair of states: at most one node splits it. -/
theorem nodup_writes (h : t.Divides M) : (t.writes.map fun e => (e.1, e.2.1)).Nodup := by
  rw [map_writes]
  have splits {id : Nat} {p : State × State}
      (hp : p ∈ (t.separatedPairs id).flatMap fun p => [p, p.swap]) : t.Splits id p.1 p.2 := by
    obtain ⟨q, hq, hpq⟩ := List.mem_flatMap.mp hp
    have hsplit := h.splits_of_mem_separatedPairs hq
    rcases List.mem_pair.mp hpq with rfl | rfl
    · exact hsplit
    · exact hsplit.symm
  refine List.nodup_flatMap.mpr ⟨?_, ?_⟩
  · intro id _
    exact nodup_bothOrders (h.nodup_separatedPairs id) fun p hp => h.swap_notMem_separatedPairs hp
  · have hvisit := h.rooted.breadthFirst_perm h.nodup_children
    refine (hvisit.nodup_iff.mpr List.nodup_range).imp fun hne p hp hp' => ?_
    exact hne (h.splits_unique (splits hp) (splits hp'))

/-- An entry is for two states that a node splits, and it has the separator of that node. -/
theorem splits_of_mem_writes (h : t.Divides M) {e : State × State × Word} (he : e ∈ t.writes) :
    ∃ id, t.Splits id e.1 e.2.1 ∧ e.2.2 = t.separator id := by
  obtain ⟨id, -, he⟩ := List.mem_flatMap.mp he
  obtain ⟨p, hp, he⟩ := List.mem_flatMap.mp he
  have hsplit := h.splits_of_mem_separatedPairs hp
  rcases List.mem_pair.mp he with rfl | rfl
  · exact ⟨id, hsplit, rfl⟩
  · exact ⟨id, hsplit.symm, rfl⟩

/-- The matrix is what the entries leave, in the order of a traversal by levels. -/
theorem ofTree_eq (h : t.Divides M) :
    SeparatingMatrix.ofTree t = (SeparatingMatrix.blank M.stateCount).writeAll t.writes := by
  have hperm : t.writes.Perm
      (t.splitPairs.flatMap fun (p, q, w) => [(p, q, w), (q, p, w)]) := by
    rw [flatMap_splitPairs]
    exact (h.rooted.breadthFirst_perm h.nodup_children).flatMap_right _
  rw [SeparatingMatrix.ofTree, SeparatingMatrix.foldl_put_eq, h.stateCount_eq]
  refine (SeparatingMatrix.writeAll_perm hperm h.nodup_writes fun e he => ?_).symm
  obtain ⟨id, hsplit, -⟩ := h.splits_of_mem_writes he
  have hid := Arena.lt_size_of_not_isLeaf hsplit.not_isLeaf
  exact Machine.mem_states.mp (h.mem_states hid (h.mem_of_splits hsplit.symm))

/-- The node that splits two states is the lowest one that holds both. -/
theorem isLowest_pair_of_splits (h : t.Divides M) (hsplit : t.Splits id s u) :
    t.IsLowest {s, u} id := by
  apply h.isLowest_of_splits hsplit (by simp) (by simp)
  exact pair_subset_stateSet.mpr ⟨h.mem_of_splits hsplit, h.mem_of_splits hsplit.symm⟩

/-- The word of two states is the separator of the lowest node that holds both. -/
theorem exists_isLowest (h : t.Divides M) (hs : s ∈ M.states) (hu : u ∈ M.states) :
    ∃ id, t.IsLowest {s, u} id ∧ (SeparatingMatrix.ofTree t).wordOf s u = t.separator id := by
  rcases h.together_or_split hs hu with ⟨leaf, hleaf, hsl, hul⟩ | ⟨id, hsplit⟩
  · have hsub : {s, u} ⊆ t.stateSet leaf := pair_subset_stateSet.mpr ⟨hsl, hul⟩
    refine ⟨leaf, h.isLowest_of_leaf hleaf (Finset.mem_insert_self s _) hsub, ?_⟩
    rw [h.wordOf_of_leaf hleaf hsl hul, h.separator_leaf (Arena.mem_leaves.mp hleaf).2]
  · exact ⟨id, h.isLowest_pair_of_splits hsplit, h.wordOf_of_splits hu hsplit⟩

/-- A state has no word with itself. -/
theorem wordOf_self (h : t.Divides M) (hs : s ∈ M.states) :
    (SeparatingMatrix.ofTree t).wordOf s s = [] := by
  obtain ⟨leaf, hleaf, hsl⟩ := h.exists_leaf hs
  exact h.wordOf_of_leaf hleaf hsl hsl

theorem isLeaf_iff_together (h : t.Divides M) (hid : t.IsLowest {s, u} id) :
    t.isLeaf id ↔ ∃ leaf ∈ t.leaves, s ∈ t.states leaf ∧ u ∈ t.states leaf := by
  simp only [h.isLeaf_iff_of_isLowest (Finset.insert_nonempty s {u}) hid, pair_subset_stateSet]

/-- The lowest node that holds two states splits them, unless it is a leaf. -/
theorem splits_of_isLowest (h : t.Divides M) (hid : t.IsLowest {s, u} id) (hl : ¬ t.isLeaf id) :
    t.Splits id s u := by
  obtain ⟨hs, hu⟩ := pair_subset_stateSet.mp hid.subset
  rcases h.together_or_split (h.mem_states hid.lt_size hs) (h.mem_states hid.lt_size hu) with
    hleaf | ⟨other, hsplit⟩
  · exact absurd ((h.isLeaf_iff_together hid).mpr hleaf) hl
  · obtain rfl := hid.unique (h.isLowest_pair_of_splits hsplit)
    exact hsplit

/-- The separator of the lowest node is empty if the states are together in a leaf. -/
theorem separator_eq_nil_iff (h : t.Divides M) (hid : t.IsLowest {s, u} id) :
    t.separator id = [] ↔ ∃ leaf ∈ t.leaves, s ∈ t.states leaf ∧ u ∈ t.states leaf := by
  rw [← h.isLeaf_iff_together hid]
  constructor
  · intro hnil
    by_contra hl
    exact h.separator_ne_nil hl hnil
  · exact h.separator_leaf

/-- The descent for two states ends in the lowest node that holds both. -/
theorem lowestCommonAncestor_pair (h : t.Divides M) (hs : s ∈ M.states) (hu : u ∈ M.states)
    (hid : t.IsLowest {s, u} id) (scratch : Marks) :
    (t.lowestCommonAncestor scratch fun x => x == s || x == u).1 = id := by
  have hsel : t.selected (fun x => x == s || x == u) = {s, u} := by
    ext x
    simp only [h.mem_selected, Bool.or_eq_true, beq_iff_eq, Finset.mem_insert,
      Finset.mem_singleton]
    grind
  have hlow := h.isLowest_lowestCommonAncestor scratch (hsel ▸ Finset.insert_nonempty s {u})
  exact (hsel ▸ hlow).unique hid

end Divides

end SplittingTree

variable {M : Machine} {s u : State} {w : Word}

/-- Outputs that agree up to the last one, which differs, differ at the last position only. -/
theorem Machine.getElem?_outputs_ne_iff (hne : w ≠ [])
    (hagree : (M.outputs s w).dropLast = (M.outputs u w).dropLast)
    (hlast : M.lastOutput s w ≠ M.lastOutput u w) (k : Nat) :
    (M.outputs s w)[k]? ≠ (M.outputs u w)[k]? ↔ k + 1 = w.length := by
  rcases Nat.lt_trichotomy (k + 1) w.length with hlt | heq | hgt
  · have hk : (M.outputs s w)[k]? = (M.outputs u w)[k]? := by
      have hpositions := congrArg (·[k]?) hagree
      simp only [List.getElem?_dropLast, length_outputs] at hpositions
      rwa [if_pos (by omega), if_pos (by omega)] at hpositions
    simp [hk, hlt.ne]
  · obtain rfl : k = w.length - 1 := by omega
    have last (x : State) : (M.outputs x w)[w.length - 1]? = some (M.lastOutput x w) := by
      rw [← M.getLast?_outputs hne, List.getLast?_eq_getElem?, length_outputs]
    simp [last, hlast, heq]
  · have hs : (M.outputs s w)[k]? = none := List.getElem?_eq_none (by simp; omega)
    have hu : (M.outputs u w)[k]? = none := List.getElem?_eq_none (by simp; omega)
    simp [hs, hu, hgt.ne']

/-- The outputs of two states on the separator of the lowest node that holds both differ at the
last position only. -/
theorem SplittingResult.Final.getElem?_outputs_ne_iff {options : SplittingOptions}
    {r : SplittingResult} (h : r.Final M options) {id : Nat} (hid : r.tree.IsLowest {s, u} id)
    (k : Nat) :
    (M.outputs s (r.tree.separator id))[k]? ≠ (M.outputs u (r.tree.separator id))[k]? ↔
      k + 1 = (r.tree.separator id).length := by
  by_cases hl : r.tree.isLeaf id
  · simp [h.divides.separator_leaf hl]
  · have hsplit := h.divides.splits_of_isLowest hid hl
    have hsep := h.separates hl
    exact Machine.getElem?_outputs_ne_iff hsep.ne_nil
      (hsep.agree s (h.divides.mem_of_splits hsplit) u (h.divides.mem_of_splits hsplit.symm))
      (h.divides.lastOutput_ne_of_splits hsplit) k

/-- A separating matrix is filled by a traversal of the tree by levels that writes no entry twice
and none for a state with itself. The word of two different states, in both orders, is the separator
of their lowest common ancestor, and empty if they share a leaf. Their outputs on it differ at the
last position and nowhere else. If every split is admitted, only equivalent states have no word. The
list of pairs has each pair once, in ascending order, with its word. -/
theorem SeparatingMatrix.ofTree_words [RandomSource] (M : Machine) (options : SplittingOptions)
    (seed : UInt64) :
    ∃ r, SplittingTree.ofMachine M options seed = .ok r ∧
      let t := r.tree
      let m := ofTree t
      (m = (blank M.stateCount).writeAll t.writes ∧
        (t.writes.map fun e => (e.1, e.2.1)).Nodup ∧ ∀ e ∈ t.writes, e.1 ≠ e.2.1) ∧
      (∀ s ∈ M.states, m.get s s = .ok []) ∧
      (∀ s ∈ M.states, ∀ u ∈ M.states, s ≠ u → ∃ id, t.IsLowest {s, u} id ∧
        (∀ scratch, (t.lowestCommonAncestor scratch fun x => x == s || x == u).1 = id) ∧
        let w := t.separator id
        m.get s u = .ok w ∧ m.get u s = .ok w ∧
        (w = [] ↔ ∃ leaf ∈ t.leaves, s ∈ t.states leaf ∧ u ∈ t.states leaf) ∧
        (∀ k, (M.outputs s w)[k]? ≠ (M.outputs u w)[k]? ↔ k + 1 = w.length) ∧
        (options.checkValidity = false → (w = [] ↔ M.Equivalent s u))) ∧
      (m.pairs.map fun e => (e.1, e.2.1)).Pairwise (Prod.Lex (· < ·) (· < ·)) ∧
      ∀ s u w, (s, u, w) ∈ m.pairs ↔ s < u ∧ u ∈ M.states ∧ m.get s u = .ok w := by
  obtain ⟨r, hr, hof⟩ := SplittingTree.ofMachine_final M options seed
  have hdiv := hr.divides
  have hsize := hdiv.size_ofTree
  have get {s u : State} (hs : s ∈ M.states) (hu : u ∈ M.states) :
      (ofTree r.tree).get s u = .ok ((ofTree r.tree).wordOf s u) :=
    get_eq (hsize ▸ Machine.mem_states.mp hs) (hsize ▸ Machine.mem_states.mp hu)
  refine ⟨r, hof options.checkFineness, ⟨hdiv.ofTree_eq, hdiv.nodup_writes, ?_⟩, ?_, ?_,
    pairwise_pairs _, ?_⟩
  · intro e he
    obtain ⟨id, hsplit, -⟩ := hdiv.splits_of_mem_writes he
    exact hdiv.ne_of_splits hsplit
  · intro s hs
    rw [get hs hs, hdiv.wordOf_self hs]
  · intro s hs u hu _
    obtain ⟨id, hid, hword⟩ := hdiv.exists_isLowest hs hu
    obtain ⟨other, hother, hword'⟩ := hdiv.exists_isLowest hu hs
    obtain rfl := hid.unique (Finset.pair_comm u s ▸ hother)
    refine ⟨id, hid, hdiv.lowestCommonAncestor_pair hs hu hid, ?_, ?_,
      hdiv.separator_eq_nil_iff hid, hr.getElem?_outputs_ne_iff hid, fun hv => ?_⟩
    · rw [get hs hu, hword]
    · rw [get hu hs, hword']
    · exact (hdiv.separator_eq_nil_iff hid).trans (hr.together_iff hv hs hu)
  · intro s u w
    rw [mem_pairs, hsize, Machine.mem_states]

end StateIdentification
