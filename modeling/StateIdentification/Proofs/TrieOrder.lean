import Mathlib.Data.List.Sort
import Mathlib.Order.RelClasses
import StateIdentification.Trie

/-!
# The order of the words of a trie

The symbols below a node ascend, so the words of a trie come in strictly ascending lexicographic
order, a word before its extensions. A strictly ascending list is given by its members. Hence the
words of a trie do not depend on the order in which they were added, nor on how often.

## Main definitions

- `Branches.Above`: all symbols are greater than a given one.
- `Branches.Tidy`: symbols ascend, and none of them is there without a word.

## Main results

- `eq_of_ascending`: strictly ascending lists with the same members are equal.
- `Branches.Tidy.insert`, `Trie.tidy_ofList`: adding words keeps a trie tidy.
- `Branches.Tidy.words_ascending`, `Trie.words_ascending`: the order of the words.
-/

namespace StateIdentification

variable {α : Type u} [Ord α] {a b : α} {v w : List α} {ts : Branches α}

/-- Strictly ascending lists with the same members are equal. -/
theorem eq_of_ascending {β : Type v} [Ord β] [Std.OrientedOrd β] {xs ys : List β}
    (hx : xs.Pairwise (compare · · = .lt)) (hy : ys.Pairwise (compare · · = .lt))
    (h : ∀ x, x ∈ xs ↔ x ∈ ys) : xs = ys := by
  have : Std.Asymm fun x y : β => compare x y = .lt := ⟨fun _ _ => Std.OrientedCmp.not_lt_of_lt⟩
  exact hx.eq_of_mem_iff hy h

theorem compare_cons_self [Std.ReflOrd α] (a : α) (v w : List α) :
    compare (a :: v) (a :: w) = compare v w := by
  rw [List.compare_cons_cons, (Std.ReflCmp.compare_self : compare a a = .eq)]
  rfl

namespace Branches

/-- All symbols of the subtrees are greater than `a`. -/
def Above (a : α) : Branches α → Prop
  | nil => True
  | branch b _ _ beside => compare a b = .lt ∧ beside.Above a

/-- The symbols of the subtrees ascend, and a word ends behind every symbol without subtrees. -/
def Tidy : Branches α → Prop
  | nil => True
  | branch a stop below beside =>
    (below = nil → stop) ∧ beside.Above a ∧ below.Tidy ∧ beside.Tidy

omit [Ord α] in
theorem mem_words_branch {stop : Bool} {below beside : Branches α} :
    w ∈ (branch a stop below beside).words ↔
      (stop ∧ w = [a]) ∨ (∃ v ∈ below.words, a :: v = w) ∨ w ∈ beside.words := by
  simp only [words, List.mem_append, List.mem_ite_nil_right, List.mem_singleton, List.mem_map,
    or_assoc]

omit [Ord α] in
theorem ne_nil_of_mem_words (h : w ∈ ts.words) : w ≠ [] := by
  induction ts with
  | nil => simp [words] at h
  | branch a stop below beside _ ihBeside =>
    rcases mem_words_branch.mp h with ⟨-, rfl⟩ | ⟨v, -, rfl⟩ | hw
    · exact List.cons_ne_nil a []
    · exact List.cons_ne_nil a v
    · exact ihBeside hw

omit [Ord α] in
theorem ofWord_ne_nil (h : w ≠ []) : ofWord w ≠ nil := by
  cases w with
  | nil => exact absurd rfl h
  | cons a w => simp [ofWord]

theorem insert_ne_nil (h : w ≠ []) : ts.insert w ≠ nil := by
  fun_cases insert ts w with
  | case1 => exact absurd rfl h
  | case2 => exact ofWord_ne_nil h
  | case3 | case4 | case5 => simp

theorem tidy_ofWord (w : List α) : (ofWord w).Tidy := by
  induction w with
  | nil => trivial
  | cons a w ih =>
    refine ⟨fun hnil => ?_, trivial, ih, trivial⟩
    by_contra hw
    exact ofWord_ne_nil (by simpa using hw) hnil

namespace Above

/-- The words of the subtrees start with these symbols. -/
theorem exists_cons (h : ts.Above a) (hw : w ∈ ts.words) :
    ∃ b v, w = b :: v ∧ compare a b = .lt := by
  induction ts with
  | nil => simp [words] at hw
  | branch b stop below beside _ ihBeside =>
    rcases mem_words_branch.mp hw with ⟨-, rfl⟩ | ⟨v, -, rfl⟩ | hw
    · exact ⟨b, [], rfl, h.1⟩
    · exact ⟨b, v, rfl, h.1⟩
    · exact ihBeside h.2 hw

theorem trans [Std.TransOrd α] (hab : compare a b = .lt) (h : ts.Above b) : ts.Above a := by
  induction ts with
  | nil => trivial
  | branch c stop below beside _ ihBeside => exact ⟨Std.TransCmp.lt_trans hab h.1, ihBeside h.2⟩

theorem insert (h : ts.Above a) (hab : compare a b = .lt) (w : List α) :
    (ts.insert (b :: w)).Above a := by
  induction ts with
  | nil => exact ⟨hab, trivial⟩
  | branch c stop below beside _ ihBeside =>
    rw [Branches.insert]
    split
    · exact ⟨hab, h⟩
    · exact h
    · exact ⟨h.1, ihBeside h.2⟩

end Above

/-- Adding a word keeps the subtrees tidy. -/
theorem Tidy.insert [Std.TransOrd α] (h : ts.Tidy) (w : List α) : (ts.insert w).Tidy := by
  fun_induction Branches.insert ts w with
  | case1 => exact h
  | case2 w _ => exact tidy_ofWord w
  | case3 a stop below beside b w hc =>
    obtain ⟨hstop, -, hbelow, -⟩ := tidy_ofWord (b :: w)
    exact ⟨hstop, ⟨hc, h.2.1.trans hc⟩, hbelow, h⟩
  | case4 a stop below beside b w hc ih =>
    obtain ⟨hstop, habove, hbelow, hbeside⟩ := h
    refine ⟨fun hnil => ?_, habove, ih hbelow, hbeside⟩
    cases w with
    | nil => simp
    | cons c w => exact absurd hnil (insert_ne_nil (List.cons_ne_nil c w))
  | case5 a stop below beside b w hc ih =>
    obtain ⟨hstop, habove, hbelow, hbeside⟩ := h
    exact ⟨hstop, habove.insert (Std.OrientedCmp.lt_of_gt hc) w, hbelow, ih hbeside⟩

/-- The words below a node are in strictly ascending order. -/
theorem Tidy.words_ascending [Std.ReflOrd α] (h : ts.Tidy) :
    ts.words.Pairwise (compare · · = .lt) := by
  induction ts with
  | nil => exact .nil
  | branch a stop below beside ihBelow ihBeside =>
    obtain ⟨-, habove, hbelow, hbeside⟩ := h
    have extended : (below.words.map (a :: ·)).Pairwise (compare · · = .lt) :=
      List.pairwise_map.mpr <| (ihBelow hbelow).imp fun hlt => by
        rwa [compare_cons_self]
    -- what starts with `a` comes before the words beside
    have before (v : List α) {w : List α} (hw : w ∈ beside.words) : compare (a :: v) w = .lt := by
      obtain ⟨b, w, rfl, hab⟩ := habove.exists_cons hw
      rw [List.compare_cons_cons, hab]
      rfl
    rw [words, List.pairwise_append, List.pairwise_append]
    refine ⟨⟨by split <;> simp, extended, fun v hv w hw => ?_⟩, ihBeside hbeside,
      fun v hv w hw => ?_⟩
    · simp only [List.mem_ite_nil_right, List.mem_singleton, List.mem_map] at hv hw
      obtain ⟨-, rfl⟩ := hv
      obtain ⟨w, hw, rfl⟩ := hw
      obtain ⟨b, w, rfl⟩ := List.exists_cons_of_ne_nil (ne_nil_of_mem_words hw)
      rw [compare_cons_self]
      rfl
    · simp only [List.mem_append, List.mem_ite_nil_right, List.mem_singleton, List.mem_map] at hv
      rcases hv with ⟨-, rfl⟩ | ⟨v, -, rfl⟩
      · exact before [] hw
      · exact before v hw

end Branches

namespace Trie

theorem tidy_insert [Std.TransOrd α] {t : Trie α} (h : t.branches.Tidy) (w : List α) :
    (t.insert w).branches.Tidy := by
  rw [insert]
  split
  · exact h
  · exact h.insert w

theorem tidy_insertAll [Std.TransOrd α] {t : Trie α} (h : t.branches.Tidy) (ws : List (List α)) :
    (t.insertAll ws).branches.Tidy := by
  induction ws generalizing t with
  | nil => exact h
  | cons w ws ih => exact ih (t := t.insert w) (tidy_insert h w)

theorem tidy_ofList [Std.TransOrd α] (ws : List (List α)) : (ofList ws).branches.Tidy :=
  tidy_insertAll (t := empty) trivial ws

/-- The words of a trie are in strictly ascending order. -/
theorem words_ascending [Std.ReflOrd α] {t : Trie α} (h : t.branches.Tidy) :
    t.words.Pairwise (compare · · = .lt) := by
  rw [words, List.pairwise_append]
  refine ⟨by split <;> simp, h.words_ascending, fun v hv w hw => ?_⟩
  simp only [List.mem_ite_nil_right, List.mem_singleton] at hv
  obtain ⟨-, rfl⟩ := hv
  obtain ⟨b, w, rfl⟩ := List.exists_cons_of_ne_nil (Branches.ne_nil_of_mem_words hw)
  rfl

end Trie

end StateIdentification
