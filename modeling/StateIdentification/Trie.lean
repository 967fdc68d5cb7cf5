/-!
# Tries

A trie is a finite set of words over an ordered alphabet, stored by common beginnings. It lists its
words in lexicographic order, and can leave out those that another word extends.

## Main definitions

- `Branches`: the subtrees below a node, by ascending symbol.
- `Trie`: a set of words with the number of words and of symbols in them.
- `Trie.insert`, `Trie.contains`: adding a word and looking one up.
- `Trie.words`: all words in lexicographic order.
- `Trie.maximalWords`: the words that no other word extends.
-/

namespace StateIdentification

/-- The subtrees below a node. `branch a stop below beside` is the subtree of the symbol `a`,
followed by the subtrees of greater symbols: `stop` tells whether a word ends behind `a`, and
`below` holds what follows it. -/
inductive Branches (α : Type u) where
  | nil
  | branch (symbol : α) (stop : Bool) (below beside : Branches α)
deriving DecidableEq, Repr

namespace Branches

variable {α : Type u}

/-- The subtrees that hold one word only. -/
def ofWord : List α → Branches α
  | [] => nil
  | a :: w => branch a w.isEmpty (ofWord w) nil

/-- The words below a node in lexicographic order, a word before its extensions. -/
def words : Branches α → List (List α)
  | nil => []
  | branch a stop below beside =>
    (if stop then [[a]] else []) ++ below.words.map (a :: ·) ++ beside.words

/-- The words that lead from the node to those without subtrees. -/
def maximalWords : Branches α → List (List α)
  | nil => []
  | branch a _ nil beside => [a] :: beside.maximalWords
  | branch a _ below beside => below.maximalWords.map (a :: ·) ++ beside.maximalWords

theorem words_ofWord {w : List α} (h : w ≠ []) : (ofWord w).words = [w] := by
  induction w with
  | nil => exact absurd rfl h
  | cons a w ih =>
    cases w with
    | nil => rfl
    | cons b w => simp_all [ofWord, words]

variable [Ord α]

/-- Whether a non-empty word is below the node. -/
def contains : Branches α → List α → Bool
  | nil, _ | _, [] => false
  | branch a stop below beside, b :: w =>
    match compare b a with
    | .lt => false
    | .eq => if w.isEmpty then stop else below.contains w
    | .gt => beside.contains (b :: w)

/-- Adds a non-empty word. -/
def insert : Branches α → List α → Branches α
  | ts, [] => ts
  | nil, w => ofWord w
  | branch a stop below beside, b :: w =>
    match compare b a with
    | .lt => branch b w.isEmpty (ofWord w) (branch a stop below beside)
    | .eq => branch a (stop || w.isEmpty) (below.insert w) beside
    | .gt => branch a stop below (beside.insert (b :: w))

theorem insert_nil (w : List α) : nil.insert w = ofWord w := by
  cases w <;> rfl

variable [Std.LawfulEqOrd α]

theorem mem_words_of_contains {ts : Branches α} {w : List α} (h : ts.contains w) :
    w ∈ ts.words := by
  fun_induction contains ts w with
  | case1 | case2 | case3 => simp at h
  | case4 a stop below beside b w hc hw =>
    have := Std.LawfulEqCmp.eq_of_compare hc
    simp_all [words]
  | case5 a stop below beside b w hc hw ih =>
    have := Std.LawfulEqCmp.eq_of_compare hc
    simp_all [words]
  | case6 a stop below beside b w hc ih => simp [words, ih h]

theorem mem_words_insert {ts : Branches α} {v w : List α} (h : w ≠ []) :
    v ∈ (ts.insert w).words ↔ v = w ∨ v ∈ ts.words := by
  fun_induction insert ts w generalizing v with
  | case1 => exact absurd rfl h
  | case2 w _ => simp [words_ofWord h, words]
  | case3 a stop below beside b w hc =>
    have := words_ofWord h
    simp only [ofWord, words, List.append_nil] at this
    simp only [words, List.mem_append]
    grind
  | case4 a stop below beside b w hc ih =>
    obtain rfl := Std.LawfulEqCmp.eq_of_compare hc
    cases w with
    | nil => cases below <;> simp [words, insert] <;> grind
    | cons c w =>
      simp only [words, List.mem_append, List.mem_map, ih (List.cons_ne_nil c w)]
      grind
  | case5 a stop below beside b w hc ih =>
    simp only [words, List.mem_append, ih h]
    grind

end Branches

/-- A finite set of words. `stop` tells whether the empty word is a member, `size` counts the
members and `symbols` adds up their lengths. -/
structure Trie (α : Type u) where
  stop : Bool
  branches : Branches α
  size : Nat
  symbols : Nat
deriving DecidableEq, Repr

namespace Trie

variable {α : Type u}

/-- The trie without words. -/
def empty : Trie α := ⟨false, .nil, 0, 0⟩

instance : EmptyCollection (Trie α) := ⟨empty⟩

/-- Whether the trie has no words. -/
def isEmpty (t : Trie α) : Bool := t.size == 0

/-- All words in lexicographic order. -/
def words (t : Trie α) : List (List α) :=
  (if t.stop then [[]] else []) ++ t.branches.words

/-- The words that are no proper beginning of another word, in lexicographic order. -/
def maximalWords (t : Trie α) : List (List α) :=
  match t.branches with
  | .nil => if t.stop then [[]] else []
  | ts => ts.maximalWords

variable [Ord α]

/-- Whether exactly this word is a member; a beginning of a member need not be one. -/
def contains (t : Trie α) : List α → Bool
  | [] => t.stop
  | w => t.branches.contains w

/-- Adds a word, unless it is a member already. -/
def insert (t : Trie α) (w : List α) : Trie α :=
  if t.contains w then t
  else
    { stop := t.stop || w.isEmpty
      branches := t.branches.insert w
      size := t.size + 1
      symbols := t.symbols + w.length }

/-- Adds several words one after the other. -/
def insertAll (t : Trie α) (ws : List (List α)) : Trie α := ws.foldl insert t

/-- The trie of the given words. -/
def ofList (ws : List (List α)) : Trie α := empty.insertAll ws

variable [Std.LawfulEqOrd α]

theorem mem_words_of_contains {t : Trie α} {w : List α} (h : t.contains w) : w ∈ t.words := by
  cases w with
  | nil => simp_all [contains, words]
  | cons a w => simp [words, Branches.mem_words_of_contains h]

/-- Adding a word makes it a member and keeps all others as they are. -/
theorem mem_words_insert {t : Trie α} {v w : List α} :
    v ∈ (t.insert w).words ↔ v = w ∨ v ∈ t.words := by
  unfold insert
  split
  case isTrue h => grind [mem_words_of_contains h]
  case isFalse h =>
    cases w with
    | nil =>
      cases hs : t.branches <;> simp_all [contains, words, Branches.insert]
    | cons a w =>
      simp only [words, List.mem_append, List.isEmpty_cons, Bool.or_false,
        Branches.mem_words_insert (List.cons_ne_nil a w)]
      grind

theorem mem_words_insertAll {t : Trie α} {ws : List (List α)} {v : List α} :
    v ∈ (t.insertAll ws).words ↔ v ∈ ws ∨ v ∈ t.words := by
  induction ws generalizing t with
  | nil => simp [insertAll]
  | cons w ws ih =>
    have := @ih (t.insert w)
    simp only [insertAll, List.foldl_cons, mem_words_insert] at this ⊢
    grind

@[simp]
theorem mem_words_ofList {ws : List (List α)} {v : List α} : v ∈ (ofList ws).words ↔ v ∈ ws := by
  have none_empty : v ∉ (empty : Trie α).words := by simp [empty, words, Branches.words]
  simp only [ofList, mem_words_insertAll, none_empty, or_false]

end Trie

end StateIdentification
