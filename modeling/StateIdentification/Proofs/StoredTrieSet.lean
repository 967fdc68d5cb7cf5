import StateIdentification.Proofs.StoredTrieWalk

/-!
# Stored tries as finite sets of words

Whatever is asked of a stored trie, it answers like the set of the words that were added since it
was last emptied or built anew: which words are members, which are new, how many there are and how
many symbols they have together. Its list of words is the set in strictly ascending order. Hence
neither the order in which the words were added nor repetitions can be told from the answers.

## Main definitions

- `StoredTrie.Request`: what changes a trie, and `StoredTrie.run`: a sequence of such changes from
  the empty trie.
- `StoredTrie.contents`: the set of words that the sequence leaves.
- `StoredTrie.Represents`: all answers of a trie are those of a set.

## Main results

- `StoredTrie.Holds.perform`, `StoredTrie.holds_run`: the table and the set change together.
- `StoredTrie.run_represents`: the answers after any sequence of changes.
- `StoredTrie.run_maximalWords`: what is left after any sequence of changes if all words are left
  out that another one extends.
-/

namespace StateIdentification.StoredTrie

variable {α : Type u} [Ord α]

/-- Trie `t` answers every question as the set `S` of words does. -/
structure Represents (t : StoredTrie α) (S : Finset (List α)) : Prop where
  /-- Exactly the members are found: a beginning of a member only if it is a member too. -/
  contains_iff : ∀ w, t.contains w ↔ w ∈ S
  /-- Adding a word reports it as new when it was no member. -/
  insert_iff : ∀ w, (t.insert w).1 ↔ w ∉ S
  size_eq : t.size = S.card
  isEmpty_iff : t.isEmpty ↔ S = ∅
  totalSize_eq : t.totalSize = (S.card, ∑ w ∈ S, w.length)
  mem_words_iff : ∀ w, w ∈ t.words ↔ w ∈ S
  words_nodup : t.words.Nodup
  /-- The words are listed in lexicographic order. -/
  words_ascending : t.words.Pairwise (compare · · = .lt)

/-- A change to a trie. -/
inductive Request (α : Type u) where
  | insert (word : List α)
  | extend (words : List (List α))
  | collect (words : List (List α))
  | clear

/-- The trie after a change. -/
def perform (t : StoredTrie α) : Request α → StoredTrie α
  | .insert w => (t.insert w).2
  | .extend ws => t.insertAll ws
  | .collect ws => ofList ws
  | .clear => ∅

/-- The trie after a sequence of changes to the empty one. -/
def run (requests : List (Request α)) : StoredTrie α := requests.foldl perform ∅

section Contents

omit [Ord α]

variable [DecidableEq α]

/-- The set of words after a change. -/
def Request.apply (S : Finset (List α)) : Request α → Finset (List α)
  | insert w => Insert.insert w S
  | extend ws => S ∪ ws.toFinset
  | collect ws => ws.toFinset
  | clear => ∅

/-- The words added since the trie was last emptied or built anew. -/
def contents (requests : List (Request α)) : Finset (List α) := requests.foldl Request.apply ∅

end Contents

/-- The table stores a trie that has the words of `S`. -/
def Holds (t : StoredTrie α) (S : Finset (List α)) : Prop := ∃ u, t.Stores u ∧ u.Holds S

namespace Holds

variable {t t' : StoredTrie α} {S : Finset (List α)}

theorem empty : (∅ : StoredTrie α).Holds ∅ := ⟨∅, .empty, .empty⟩

theorem totalSize_eq (h : t.Holds S) : t.totalSize = (S.card, ∑ w ∈ S, w.length) := by
  obtain ⟨u, hstores, hu⟩ := h
  rw [totalSize, hstores.size_eq, hstores.symbols_eq, hu.size_eq, hu.symbols_eq]

/-- To go through the stored words is to go through their list. -/
theorem fold_eq (h : t.Holds S) {β : Type v} (f : β → List α → β) (init : β) :
    t.fold f init = t.words.foldl f init := by
  obtain ⟨u, hstores, hu⟩ := h
  rw [hstores.fold_eq hu, hstores.words_eq hu]

variable [Std.LawfulEqOrd α]

/-- Its words are those of a trie with the members of the set. -/
theorem words_spec (h : t.Holds S) :
    (∀ w, w ∈ t.words ↔ w ∈ S) ∧ t.words.Pairwise (compare · · = .lt) := by
  obtain ⟨u, hstores, hu⟩ := h
  rw [hstores.words_eq hu]
  exact ⟨hu.mem_words_iff, Trie.words_ascending hu.tidy⟩

/-- Its maximal words are those of the set. -/
theorem reduces (h : t.Holds S) : Trie.Reduces t.maximalWords S := by
  obtain ⟨u, hstores, hu⟩ := h
  rw [hstores.maximalWords_eq hu]
  exact hu.reduces

variable [Std.TransOrd α]

theorem contains_iff (h : t.Holds S) (w : List α) : t.contains w ↔ w ∈ S := by
  obtain ⟨u, hstores, hu⟩ := h
  rw [hstores.contains_eq hu.tidy, hu.contains_iff]

theorem insert_iff (h : t.Holds S) (w : List α) : (t.insert w).1 ↔ w ∉ S := by
  obtain ⟨u, hstores, hu⟩ := h
  rw [(hstores.insert hu.tidy w).1, ← hu.contains_iff]
  simp

/-- The answers depend on the set alone. -/
theorem represents (h : t.Holds S) : t.Represents S := by
  have hsize : t.size = S.card := congrArg Prod.fst h.totalSize_eq
  obtain ⟨hmem, hasc⟩ := h.words_spec
  refine ⟨h.contains_iff, h.insert_iff, hsize, ?_, h.totalSize_eq, hmem, ?_, hasc⟩
  · rw [isEmpty, beq_iff_eq, hsize, Finset.card_eq_zero]
  · exact hasc.imp fun hlt heq => by simp [heq] at hlt

/-- The words of two tables with the same members come in the same order. -/
theorem words_eq (h : t.Holds S) (h' : t'.Holds S) : t.words = t'.words :=
  eq_of_ascending h.words_spec.2 h'.words_spec.2 fun w =>
    (h.words_spec.1 w).trans (h'.words_spec.1 w).symm

variable [DecidableEq α]

/-- A word that is there already changes neither the trie nor the set. -/
theorem insert (h : t.Holds S) (w : List α) : (t.insert w).2.Holds (Insert.insert w S) := by
  obtain ⟨u, hstores, hu⟩ := h
  exact ⟨u.insert w, (hstores.insert hu.tidy w).2, hu.insert w⟩

theorem insertAll (h : t.Holds S) (ws : List (List α)) :
    (t.insertAll ws).Holds (S ∪ ws.toFinset) := by
  induction ws generalizing t S with
  | nil => simpa [StoredTrie.insertAll] using h
  | cons w ws ih =>
    rw [List.toFinset_cons, Finset.union_insert, ← Finset.insert_union]
    exact ih (h.insert w)

/-- A change does the same to the table and to the set. -/
theorem perform (h : t.Holds S) (r : Request α) : (t.perform r).Holds (r.apply S) := by
  cases r with
  | insert w => exact h.insert w
  | extend ws => exact h.insertAll ws
  | collect ws =>
    have := (empty (α := α)).insertAll ws
    rwa [Finset.empty_union] at this
  | clear => exact empty

end Holds

variable [Std.TransOrd α] [Std.LawfulEqOrd α] [DecidableEq α]

theorem holds_run (requests : List (Request α)) : (run requests).Holds (contents requests) := by
  suffices ∀ {t : StoredTrie α} {S}, t.Holds S →
      (requests.foldl perform t).Holds (requests.foldl Request.apply S) from this .empty
  induction requests with
  | nil => exact id
  | cons r requests ih => exact fun h => ih (h.perform r)

/-- After any sequence of changes a stored trie answers like the set of the words added since it was
last emptied or built anew, and so after each of the changes, since a part of the sequence is one
too. Sequences that leave the same set lead to the same answers, whatever the order of the words in
them and however often each of them is added. -/
theorem run_represents (requests : List (Request α)) :
    (run requests).Represents (contents requests) ∧
      ∀ others, contents others = contents requests →
        (run others).words = (run requests).words ∧
        (run others).totalSize = (run requests).totalSize ∧
        ∀ w, (run others).contains w = (run requests).contains w ∧
          ((run others).insert w).1 = ((run requests).insert w).1 := by
  have h := holds_run requests
  refine ⟨h.represents, fun others heq => ?_⟩
  have h' : (run others).Holds (contents requests) := heq ▸ holds_run others
  refine ⟨h'.words_eq h, h'.totalSize_eq.trans h.totalSize_eq.symm, fun w => ⟨?_, ?_⟩⟩
  · exact Bool.eq_iff_iff.mpr ((h'.contains_iff w).trans (h.contains_iff w).symm)
  · exact Bool.eq_iff_iff.mpr ((h'.insert_iff w).trans (h.insert_iff w).symm)

/-- The words `123`, again `123`, and `12`, added one by one or at once in the other order. -/
theorem run_represents_prefixes :
    (run [.insert [1, 2, 3], .insert [1, 2, 3], .insert [1, 2]] : StoredTrie Nat).Represents
        {[1, 2], [1, 2, 3]} ∧
      (run [.insert [1, 2, 3], .insert [1, 2, 3], .insert [1, 2]] : StoredTrie Nat).words =
        (run [.collect [[1, 2], [1, 2, 3]]]).words := by
  have heq : contents [.insert [1, 2, 3], .insert [1, 2, 3], .insert [1, 2]] =
      ({[1, 2], [1, 2, 3]} : Finset (List Nat)) := by decide
  refine ⟨heq ▸ (run_represents _).1, ((run_represents _).2 _ ?_).1⟩
  rw [heq]
  decide

/-- After any sequence of changes, leaving out the words that another one extends loses nothing of
the words that were added since the trie was last emptied or built anew. If these are the empty word
only, it is left, and if there are none, nothing is left. -/
theorem run_maximalWords (requests : List (Request α)) :
    Trie.Reduces (run requests).maximalWords (contents requests) ∧
      (contents requests = {[]} → (run requests).maximalWords = [[]]) ∧
      (contents requests = ∅ → (run requests).maximalWords = []) := by
  have h := (holds_run requests).reduces
  refine ⟨h, fun hempty => ?_, fun hnone => ?_⟩
  · have honly : Trie.Reduces [[]] (contents requests) := by
      rw [hempty]
      constructor <;> simp
    exact h.unique honly
  · have hnothing : Trie.Reduces [] (contents requests) := by
      rw [hnone]
      constructor <;> simp
    exact h.unique hnothing

/-- Of the words `2`, `15`, `1`, `099` and `10` only `1` is left out. -/
theorem run_maximalWords_prefixes :
    Trie.Reduces (run [.insert [3], .clear, .extend [[2], [1, 5], [1]], .insert [0, 9, 9],
        .insert [1, 0]] : StoredTrie Nat).maximalWords {[2], [1, 5], [1], [0, 9, 9], [1, 0]} ∧
      (run [.insert [3], .clear, .extend [[2], [1, 5], [1]], .insert [0, 9, 9],
        .insert [1, 0]] : StoredTrie Nat).maximalWords = [[0, 9, 9], [1, 0], [1, 5], [2]] := by
  have heq : contents [.insert [3], .clear, .extend [[2], [1, 5], [1]], .insert [0, 9, 9],
      .insert [1, 0]] = ({[2], [1, 5], [1], [0, 9, 9], [1, 0]} : Finset (List Nat)) := by decide
  exact ⟨heq ▸ (run_maximalWords _).1, by decide +kernel⟩

end StateIdentification.StoredTrie
