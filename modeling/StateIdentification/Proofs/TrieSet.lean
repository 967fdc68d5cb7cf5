import Mathlib.Algebra.BigOperators.Group.Finset.Basic
import StateIdentification.Proofs.MaximalWords

/-!
# Tries as finite sets of words

A trie to which words are added changes together with the set of these words: its words are the
members, and its counters are right. So every word of it is found, an empty trie is an empty set,
and leaving out the words that another one extends leaves the maximal words of the set.

## Main definitions

- `Trie.Holds`: a tidy trie has the words of a set.
- `Trie.Reduces`: a list has the words of a set that no other one extends.

## Main results

- `Branches.Tidy.contains_iff`, `Trie.contains_iff`: looking a word up in a tidy trie.
- `Trie.Holds.insert`: a word is added to the trie and to the set.
- `Trie.Holds.reduces`: the maximal words of a trie.
-/

namespace StateIdentification

variable {α : Type u} [Ord α]

/-- A word that starts with a symbol of the subtrees or with a smaller one is not beside them. -/
theorem Branches.Above.notMem_words [Std.TransOrd α] [Std.LawfulEqOrd α] {ts : Branches α}
    {a b : α} {w : List α} (h : ts.Above a) (hab : compare b a ≠ .gt) : b :: w ∉ ts.words := by
  intro hw
  obtain ⟨c, v, heq, hac⟩ := h.exists_cons hw
  obtain ⟨rfl, rfl⟩ := List.cons.inj heq
  exact hab (Std.OrientedCmp.gt_of_lt hac)

omit [Ord α] in
theorem Branches.cons_mem_words_branch {a b : α} {stop : Bool} {below beside : Branches α}
    {w : List α} : b :: w ∈ (branch a stop below beside).words ↔
      (b = a ∧ (stop ∧ w = [] ∨ w ∈ below.words)) ∨ b :: w ∈ beside.words := by
  rw [mem_words_branch]
  grind

/-- Every word of tidy subtrees is found. -/
theorem Branches.Tidy.contains_iff [Std.TransOrd α] [Std.LawfulEqOrd α] {ts : Branches α}
    (h : ts.Tidy) {w : List α} : ts.contains w ↔ w ∈ ts.words := by
  refine ⟨mem_words_of_contains, fun hw => ?_⟩
  -- the search passes by nothing: symbols ascend, so at most one subtree has words that start alike
  fun_induction Branches.contains ts w with
  | case1 => simp [words] at hw
  | case2 => exact absurd rfl (ne_nil_of_mem_words hw)
  | case3 a stop below beside b w hc =>
    rcases cons_mem_words_branch.mp hw with ⟨rfl, -⟩ | hw
    · simp at hc
    · exact absurd hw (h.2.1.notMem_words (by simp [hc]))
  | case4 a stop below beside b w hc hnil =>
    rcases cons_mem_words_branch.mp hw with ⟨-, ⟨hstop, -⟩ | hw⟩ | hw
    · exact hstop
    · exact absurd (by simpa using hnil) (ne_nil_of_mem_words hw)
    · exact absurd hw (h.2.1.notMem_words (by simp [hc]))
  | case5 a stop below beside b w hc hne ih =>
    rcases cons_mem_words_branch.mp hw with ⟨-, ⟨-, rfl⟩ | hw⟩ | hw
    · exact absurd rfl hne
    · exact ih h.2.2.1 hw
    · exact absurd hw (h.2.1.notMem_words (by simp [hc]))
  | case6 a stop below beside b w hc ih =>
    rcases cons_mem_words_branch.mp hw with ⟨rfl, -⟩ | hw
    · simp at hc
    · exact ih h.2.2.2 hw

namespace Trie

/-- Every word of a tidy trie is found. -/
theorem contains_iff [Std.TransOrd α] [Std.LawfulEqOrd α] {t : Trie α} (h : t.branches.Tidy)
    {w : List α} : t.contains w ↔ w ∈ t.words := by
  cases w with
  | nil =>
    have : [] ∉ t.branches.words := fun hw => Branches.ne_nil_of_mem_words hw rfl
    simp [contains, words, this]
  | cons a w => simp [contains, words, h.contains_iff]

/-- A list has exactly the words of a set that are no proper beginning of another one, in strictly
ascending order. So it has no words but those of the set and none that begins another one, and
nothing is lost: every word of the set begins one of the list. -/
structure Reduces (ws : List (List α)) (S : Finset (List α)) : Prop where
  ascending : ws.Pairwise (compare · · = .lt)
  mem_iff : ∀ v, v ∈ ws ↔ v ∈ S ∧ ∀ w ∈ S, v <+: w → v = w
  subset : ∀ v ∈ ws, v ∈ S
  prefixFree : ∀ v ∈ ws, ∀ w ∈ ws, v <+: w → v = w
  covers : ∀ w ∈ S, ∃ v ∈ ws, w <+: v

/-- There is only one such list. -/
theorem Reduces.unique [Std.OrientedOrd α] {ws ws' : List (List α)} {S : Finset (List α)}
    (h : Reduces ws S) (h' : Reduces ws' S) : ws = ws' :=
  eq_of_ascending h.ascending h'.ascending fun v => (h.mem_iff v).trans (h'.mem_iff v).symm

/-- Tidy trie `t` has the words of `S`, and its counters are right. -/
structure Holds (t : Trie α) (S : Finset (List α)) : Prop where
  tidy : t.branches.Tidy
  mem_words_iff : ∀ w, w ∈ t.words ↔ w ∈ S
  size_eq : t.size = S.card
  symbols_eq : t.symbols = ∑ w ∈ S, w.length

namespace Holds

variable {t : Trie α} {S : Finset (List α)} {w : List α}

theorem empty : (∅ : Trie α).Holds ∅ where
  tidy := trivial
  mem_words_iff w := iff_of_false List.not_mem_nil (Finset.notMem_empty w)
  size_eq := rfl
  symbols_eq := rfl

/-- A trie without words is the empty set. -/
theorem isEmpty_iff (h : t.Holds S) : t.isEmpty ↔ S = ∅ := by
  rw [isEmpty, beq_iff_eq, h.size_eq, Finset.card_eq_zero]

/-- An empty set has no words. -/
theorem words_eq_nil (h : t.Holds S) (hempty : t.isEmpty) : t.words = [] := by
  rw [List.eq_nil_iff_forall_not_mem]
  intro w hw
  rw [h.mem_words_iff, h.isEmpty_iff.mp hempty] at hw
  exact Finset.notMem_empty w hw

/-- In a set with words, one ends in the root if there is nothing below. -/
theorem stop_of_childless (h : t.Holds S) (hsome : ¬ t.isEmpty) (hnil : t.branches = .nil) :
    t.stop = true := by
  have hS : S.Nonempty := Finset.nonempty_iff_ne_empty.mpr (mt h.isEmpty_iff.mpr hsome)
  obtain ⟨w, hw⟩ := hS
  have hwords := (h.mem_words_iff w).mpr hw
  cases hstop : t.stop with
  | true => rfl
  | false => simp [words, hstop, hnil, Branches.words] at hwords

variable [Std.TransOrd α] [Std.LawfulEqOrd α]

theorem contains_iff (h : t.Holds S) : t.contains w ↔ w ∈ S :=
  (Trie.contains_iff h.tidy).trans (h.mem_words_iff w)

omit [Std.TransOrd α] in
/-- The maximal words of a trie are those of its set. -/
theorem reduces (h : t.Holds S) : Reduces t.maximalWords S := by
  have hmem (v : List α) : v ∈ t.maximalWords ↔ v ∈ S ∧ ∀ w ∈ S, v <+: w → v = w := by
    rw [mem_maximalWords_iff h.tidy]
    simp only [h.mem_words_iff]
  refine ⟨maximalWords_ascending h.tidy, hmem, fun v hv => ((hmem v).mp hv).1, ?_, ?_⟩
  · intro v hv w hw hp
    exact ((hmem v).mp hv).2 w ((hmem w).mp hw).1 hp
  · intro w hw
    exact exists_maximalWord ((h.mem_words_iff w).mpr hw)

omit [Std.TransOrd α] in
/-- An empty set has no maximal words. -/
theorem maximalWords_eq_nil (h : t.Holds S) (hempty : t.isEmpty) : t.maximalWords = [] := by
  rw [List.eq_nil_iff_forall_not_mem]
  intro w hw
  have := h.reduces.subset w hw
  rw [h.isEmpty_iff.mp hempty] at this
  exact Finset.notMem_empty w this

variable [DecidableEq α]

/-- A word that is there already changes neither the trie nor the set. -/
theorem insert (h : t.Holds S) (w : List α) : (t.insert w).Holds (Insert.insert w S) := by
  by_cases hw : w ∈ S
  · rwa [Finset.insert_eq_self.mpr hw, Trie.insert, if_pos (h.contains_iff.mpr hw)]
  · have hnew := mt h.contains_iff.mp hw
    refine ⟨tidy_insert h.tidy w, fun v => ?_, ?_, ?_⟩
    · rw [mem_words_insert, h.mem_words_iff, Finset.mem_insert]
    · rw [Trie.insert, if_neg hnew, Finset.card_insert_of_notMem hw, h.size_eq]
    · rw [Trie.insert, if_neg hnew, h.symbols_eq, Finset.sum_insert hw, Nat.add_comm w.length]

end Holds

end Trie

end StateIdentification
