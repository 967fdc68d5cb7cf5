import StateIdentification.Proofs.TrieOrder
import StateIdentification.Suffixes.Family

/-!
# Leaving out prefixes loses nothing

Reading a word shows the outputs on all its beginnings, so of a set of words only those are needed
that no other word extends. A trie lists just these words, in strictly ascending order, so the list
depends on the set of words only.

## Main results

- `Branches.exists_maximalWord`, `Trie.exists_maximalWord`: every word begins a maximal one.
- `Trie.mem_maximalWords_iff`, `Trie.maximalWords_ascending`: which words are listed, in which
  order.
- `exists_mem_maximalWords`, `mem_maximalWords_iff`, `maximalWords_ascending`: the same for a list
  of words.
- `maximalWords_congr`: the maximal ones of two lists with the same words.
-/

namespace StateIdentification

namespace Branches

variable {α : Type u} {ts below beside : Branches α} {a : α} {stop : Bool} {v w : List α}

theorem maximalWords_ne_nil (h : ts ≠ nil) : ts.maximalWords ≠ [] := by
  induction ts with
  | nil => exact absurd rfl h
  | branch a stop below beside ihBelow =>
    cases below with
    | nil => simp [maximalWords]
    | branch b stop' below' beside' => simp [maximalWords, ihBelow]

theorem mem_maximalWords_branch : w ∈ (branch a stop below beside).maximalWords ↔
    (below = nil ∧ w = [a]) ∨ (∃ v ∈ below.maximalWords, a :: v = w) ∨
      w ∈ beside.maximalWords := by
  cases below with
  | nil => simp [maximalWords]
  | branch b stop' below' beside' => simp [maximalWords]

/-- Every word below a node begins a maximal one. -/
theorem exists_maximalWord (h : w ∈ ts.words) : ∃ v ∈ ts.maximalWords, w <+: v := by
  induction ts generalizing w with
  | nil => simp [words] at h
  | branch a stop below beside ihBelow ihBeside =>
    simp only [mem_maximalWords_branch]
    rcases mem_words_branch.mp h with ⟨-, rfl⟩ | ⟨w, hw, rfl⟩ | hw
    · by_cases hnil : below = nil
      · exact ⟨[a], .inl ⟨hnil, rfl⟩, List.prefix_refl _⟩
      · obtain ⟨v, hv⟩ := List.exists_mem_of_ne_nil _ (maximalWords_ne_nil hnil)
        exact ⟨a :: v, .inr (.inl ⟨v, hv, rfl⟩), by simp⟩
    · obtain ⟨v, hv, hwv⟩ := ihBelow hw
      exact ⟨a :: v, .inr (.inl ⟨v, hv, rfl⟩), List.cons_prefix_cons.mpr ⟨rfl, hwv⟩⟩
    · obtain ⟨v, hv, hwv⟩ := ihBeside hw
      exact ⟨v, .inr (.inr hv), hwv⟩

variable [Ord α]

/-- The maximal words are words, in the same order. -/
theorem Tidy.maximalWords_sublist (h : ts.Tidy) : ts.maximalWords.Sublist ts.words := by
  induction ts with
  | nil => exact .refl _
  | branch a stop below beside ihBelow ihBeside =>
    obtain ⟨hstop, -, hbelow, hbeside⟩ := h
    cases below with
    | nil =>
      rw [maximalWords, words, if_pos (hstop rfl)]
      exact .cons_cons _ (ihBeside hbeside)
    | branch b stop' below' beside' =>
      exact (((ihBelow hbelow).map (a :: ·)).trans (List.sublist_append_right _ _)).append
        (ihBeside hbeside)

theorem Above.exists_cons_ne [Std.ReflOrd α] (h : ts.Above a) (hw : w ∈ ts.words) :
    ∃ b v, w = b :: v ∧ b ≠ a := by
  obtain ⟨b, v, rfl, hlt⟩ := h.exists_cons hw
  refine ⟨b, v, rfl, ?_⟩
  rintro rfl
  cases hlt.symm.trans Std.ReflCmp.compare_self

/-- No word extends a maximal one. -/
theorem Tidy.eq_of_prefix [Std.ReflOrd α] (h : ts.Tidy) (hv : v ∈ ts.maximalWords)
    (hw : w ∈ ts.words) (hp : v <+: w) : v = w := by
  induction ts generalizing v w with
  | nil => simp [words] at hw
  | branch a stop below beside ihBelow ihBeside =>
    obtain ⟨-, habove, hbelow, hbeside⟩ := h
    rcases mem_maximalWords_branch.mp hv with ⟨rfl, rfl⟩ | ⟨v, hvb, rfl⟩ | hvb
    · rcases mem_words_branch.mp hw with ⟨-, rfl⟩ | ⟨w, hwb, rfl⟩ | hwb
      · rfl
      · simp [words] at hwb
      · obtain ⟨b, w, rfl, hne⟩ := habove.exists_cons_ne hwb
        exact absurd (List.cons_prefix_cons.mp hp).1.symm hne
    · rcases mem_words_branch.mp hw with ⟨-, rfl⟩ | ⟨w, hwb, rfl⟩ | hwb
      · have hnil := List.prefix_nil.mp (List.cons_prefix_cons.mp hp).2
        exact absurd hnil (ne_nil_of_mem_words (hbelow.maximalWords_sublist.subset hvb))
      · rw [ihBelow hbelow hvb hwb (List.cons_prefix_cons.mp hp).2]
      · obtain ⟨b, w, rfl, hne⟩ := habove.exists_cons_ne hwb
        exact absurd (List.cons_prefix_cons.mp hp).1.symm hne
    · obtain ⟨b, v, rfl, hne⟩ := habove.exists_cons_ne (hbeside.maximalWords_sublist.subset hvb)
      rcases mem_words_branch.mp hw with ⟨-, rfl⟩ | ⟨w, hwb, rfl⟩ | hwb
      · exact absurd (List.cons_prefix_cons.mp hp).1 hne
      · exact absurd (List.cons_prefix_cons.mp hp).1 hne
      · exact ihBeside hbeside hvb hwb hp

end Branches

namespace Trie

variable {α : Type u} {t : Trie α} {v w : List α}

theorem maximalWords_of_ne_nil (h : t.branches ≠ .nil) :
    t.maximalWords = t.branches.maximalWords := by
  rw [maximalWords]
  split
  · contradiction
  · rfl

theorem maximalWords_of_nil (h : t.branches = .nil) : t.maximalWords = t.words := by
  rw [maximalWords, words, h]
  simp [Branches.words]

/-- Every word of a trie begins a maximal one. -/
theorem exists_maximalWord (h : w ∈ t.words) : ∃ v ∈ t.maximalWords, w <+: v := by
  by_cases hnil : t.branches = .nil
  · exact ⟨w, maximalWords_of_nil hnil ▸ h, List.prefix_refl _⟩
  · rw [maximalWords_of_ne_nil hnil]
    rcases List.mem_append.mp h with hempty | hw
    · simp only [List.mem_ite_nil_right, List.mem_singleton] at hempty
      obtain ⟨-, rfl⟩ := hempty
      obtain ⟨v, hv⟩ := List.exists_mem_of_ne_nil _ (Branches.maximalWords_ne_nil hnil)
      exact ⟨v, hv, List.nil_prefix⟩
    · exact Branches.exists_maximalWord hw

variable [Ord α]

/-- The maximal words are words, in the same order. -/
theorem maximalWords_sublist (h : t.branches.Tidy) : t.maximalWords.Sublist t.words := by
  by_cases hnil : t.branches = .nil
  · rw [maximalWords_of_nil hnil]
  · rw [maximalWords_of_ne_nil hnil]
    exact h.maximalWords_sublist.trans (List.sublist_append_right _ _)

/-- The maximal words are in strictly ascending order. -/
theorem maximalWords_ascending [Std.ReflOrd α] (h : t.branches.Tidy) :
    t.maximalWords.Pairwise (compare · · = .lt) :=
  (words_ascending h).sublist (maximalWords_sublist h)

/-- The maximal words are those that no other word extends. -/
theorem mem_maximalWords_iff [Std.ReflOrd α] (h : t.branches.Tidy) :
    v ∈ t.maximalWords ↔ v ∈ t.words ∧ ∀ w ∈ t.words, v <+: w → v = w := by
  constructor
  · intro hv
    refine ⟨(maximalWords_sublist h).subset hv, fun w hw hp => ?_⟩
    by_cases hnil : t.branches = .nil
    · have only_nil {u : List α} (hu : u ∈ t.words) : u = [] := by
        rw [words, hnil, Branches.words, List.append_nil] at hu
        exact List.mem_singleton.mp (List.mem_ite_nil_right.mp hu).2
      have hv : v ∈ t.words := maximalWords_of_nil hnil ▸ hv
      exact (only_nil hv).trans (only_nil hw).symm
    · rw [maximalWords_of_ne_nil hnil] at hv
      rcases List.mem_append.mp hw with hempty | hw
      · simp only [List.mem_ite_nil_right, List.mem_singleton] at hempty
        obtain ⟨-, rfl⟩ := hempty
        exact List.prefix_nil.mp hp
      · exact h.eq_of_prefix hv hw hp
  · rintro ⟨hv, hall⟩
    obtain ⟨w, hw, hp⟩ := exists_maximalWord hv
    exact hall w ((maximalWords_sublist h).subset hw) hp ▸ hw

end Trie

section Words

/-- The words that are no proper beginning of another one, in lexicographic order. Reading a word
shows the outputs on all its beginnings, so nothing is lost. -/
def maximalWords (ws : List Word) : List Word := (Trie.ofList ws).maximalWords

variable {ws ws' : List Word} {u v w : Word}

/-- What begins one of the words begins a maximal one of them. -/
theorem exists_mem_maximalWords (hw : w ∈ ws) (hu : u <+: w) : ∃ v ∈ maximalWords ws, u <+: v := by
  obtain ⟨v, hv, hwv⟩ := (Trie.ofList ws).exists_maximalWord (Trie.mem_words_ofList.mpr hw)
  exact ⟨v, hv, hu.trans hwv⟩

theorem maximalWords_ne_nil (hw : w ∈ ws) : maximalWords ws ≠ [] := by
  obtain ⟨v, hv, -⟩ := exists_mem_maximalWords hw (List.prefix_refl w)
  exact List.ne_nil_of_mem hv

/-- The maximal ones of some words are in strictly ascending order. -/
theorem maximalWords_ascending (ws : List Word) :
    (maximalWords ws).Pairwise (compare · · = .lt) :=
  Trie.maximalWords_ascending (Trie.tidy_ofList ws)

/-- The maximal ones of some words are those that no other one extends. -/
theorem mem_maximalWords_iff :
    v ∈ maximalWords ws ↔ v ∈ ws ∧ ∀ w ∈ ws, v <+: w → v = w := by
  rw [maximalWords, Trie.mem_maximalWords_iff (Trie.tidy_ofList ws)]
  simp only [Trie.mem_words_ofList]

/-- A maximal one of some words begins a maximal one of more words. -/
theorem exists_prefix_maximalWords (h : ws ⊆ ws') (hv : v ∈ maximalWords ws) :
    ∃ w ∈ maximalWords ws', v <+: w :=
  exists_mem_maximalWords (h (mem_maximalWords_iff.mp hv).1) (List.prefix_refl v)

/-- Lists with the same words have the same maximal ones. -/
theorem maximalWords_congr (h : ∀ w, w ∈ ws ↔ w ∈ ws') : maximalWords ws = maximalWords ws' := by
  refine eq_of_ascending (maximalWords_ascending ws) (maximalWords_ascending ws') fun v => ?_
  simp only [mem_maximalWords_iff, h]

end Words

end StateIdentification
