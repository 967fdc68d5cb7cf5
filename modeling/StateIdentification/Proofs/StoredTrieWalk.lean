import StateIdentification.Proofs.StoredTrie
import StateIdentification.Proofs.TrieSet

/-!
# Walks through a stored trie

Below a node, a walk visits what the recursion over the subtrees visits, in the same order, and
comes back with the stack and the word that it had before. It takes two steps for every node and one
to go back, so it is done when its steps run out.

## Main definitions

- `Branches.visitAll`: visits all nodes of subtrees, each one before its children.

## Main results

- `StoredTrie.walkFor_subtrees`: a walk does below a node what the recursion does.
- `StoredTrie.Stores.fold_eq`, `StoredTrie.Stores.foldMaximal_eq`: a walk through a stored set goes
  through its words, or through those that no other one extends.
- `StoredTrie.Stores.words_eq`, `StoredTrie.Stores.maximalWords_eq`: the words that it lists.
-/

namespace StateIdentification

variable {α : Type u} {β : Type v} {visit : β → List α → Bool → Bool → β} {f : β → List α → β}

namespace Branches

/-- Whether there are no subtrees. -/
def isNil : Branches α → Bool
  | nil => true
  | branch .. => false

/-- Visits all nodes of the subtrees below a node that the word `w` leads to. -/
def visitAll (visit : β → List α → Bool → Bool → β) : Branches α → List α → β → β
  | nil, _, b => b
  | branch a stop below beside, w, b =>
    beside.visitAll visit w
      (below.visitAll visit (w ++ [a]) (visit b (w ++ [a]) stop below.isNil))

/-- To visit the nodes in which a word ends is to go through the words. -/
theorem visitAll_stop (f : β → List α → β) (ts : Branches α) (w : List α) (b : β) :
    ts.visitAll (fun b w stop _ => if stop then f b w else b) w b =
      (ts.words.map (w ++ ·)).foldl f b := by
  induction ts generalizing w b with
  | nil => rfl
  | branch a stop below beside ihBelow ihBeside =>
    rw [visitAll, words, ihBelow, ihBeside]
    cases stop <;> simp [List.foldl_map]

/-- To visit the childless nodes is to go through the maximal words. -/
theorem visitAll_childless (f : β → List α → β) (ts : Branches α) (w : List α) (b : β) :
    ts.visitAll (fun b w _ childless => if childless then f b w else b) w b =
      (ts.maximalWords.map (w ++ ·)).foldl f b := by
  induction ts generalizing w b with
  | nil => rfl
  | branch a stop below beside ihBelow ihBeside =>
    rw [visitAll, ihBelow, ihBeside]
    cases below <;> simp [maximalWords, isNil, List.foldl_map]

end Branches

namespace StoredTrie

variable {t : StoredTrie α} {children : List (α × Nat)} {ts : Branches α} {ids : List Nat}

theorem Subtrees.isEmpty_children {nodes : Array (TrieNode α)}
    (h : Subtrees nodes children ts ids) : children.isEmpty = ts.isNil := by
  cases h <;> rfl

theorem walkFor_add (m n : Nat) (walk : Walk α β) :
    t.walkFor visit (m + n) walk = t.walkFor visit n (t.walkFor visit m walk) := by
  induction m generalizing walk with
  | zero => rw [Nat.zero_add, walkFor]
  | succ m ih =>
    rw [Nat.succ_add, walkFor, walkFor]
    cases hstep : t.step? visit walk with
    | none =>
      cases n with
      | zero => rfl
      | succ n => rw [walkFor, hstep]
    | some next => exact ih next

/-- A walk that is about to visit the subtrees below a node visits all of them and goes back, in two
steps for each of their nodes and a last one. -/
theorem walkFor_subtrees (h : Subtrees t.nodes children ts ids) {id next : Nat}
    (hchildren : t.nodes[id]!.children.drop next = children) (w : List α) (stack : List (Nat × Nat))
    (b : β) :
    t.walkFor visit (2 * ids.length + 1) ⟨w, (id, next) :: stack, b⟩ =
      ⟨w.dropLast, stack, ts.visitAll visit w b⟩ := by
  induction h generalizing id next w stack b with
  | nil =>
    have hnone : t.nodes[id]!.children[next]? = none :=
      List.getElem?_eq_none (List.drop_eq_nil_iff.mp hchildren)
    simp [walkFor, step?, hnone, Branches.visitAll]
  | @branch a child node rest below beside ids others hnode hbelow _ ihBelow ihBeside =>
    have hsome : t.nodes[id]!.children[next]? = some (a, child) := by
      rw [← List.head?_drop, hchildren]
      rfl
    have hrest : t.nodes[id]!.children.drop (next + 1) = rest := by
      rw [← List.tail_drop, hchildren]
      rfl
    have hfirst : t.nodes[child]!.children.drop 0 = node.children := by
      rw [getElem!_eq hnode, List.drop_zero]
    have hstep : t.step? visit ⟨w, (id, next) :: stack, b⟩ =
        some ⟨w ++ [a], (child, 0) :: (id, next + 1) :: stack,
          visit b (w ++ [a]) node.stop below.isNil⟩ := by
      simp [step?, hsome, getElem!_eq hnode, hbelow.isEmpty_children]
    have hsteps : 2 * (child :: ids ++ others).length + 1 =
        (2 * ids.length + 1) + (2 * others.length + 1) + 1 := by
      simp only [List.length_append, List.length_cons]
      omega
    rw [hsteps, walkFor, hstep]
    simp only
    rw [walkFor_add, ihBelow hfirst, List.dropLast_concat, ihBeside hrest]
    rfl

/-- A walk visits the root and then all subtrees. -/
theorem walk_eq {u : Trie α} (h : t.Stores u) (visit : β → List α → Bool → Bool → β) (init : β) :
    t.walk visit init =
      if u.isEmpty then init
      else u.branches.visitAll visit [] (visit init [] u.stop u.branches.isNil) := by
  obtain ⟨root, ids, hroot, hstop, hsub, hnodup⟩ := h.tree
  have hempty : t.isEmpty = u.isEmpty := by rw [isEmpty, Trie.isEmpty, h.size_eq]
  -- the root and the nodes below it are different nodes of the table, so the steps do not run out
  have hsteps : 2 * ids.length + 1 ≤ 2 * t.nodes.size := by
    have hsubset : 0 :: ids ⊆ List.range t.nodes.size := by
      intro n hn
      rcases List.mem_cons.mp hn with rfl | hn
      · exact List.mem_range.mpr (Array.getElem?_eq_some_iff.mp hroot).1
      · exact List.mem_range.mpr (hsub.lt_size n hn)
    have := (hnodup.subperm hsubset).length_le
    simp only [List.length_cons, List.length_range] at this
    omega
  obtain ⟨more, hmore⟩ := Nat.exists_eq_add_of_le hsteps
  have hdone (walk : Walk α β) (hw : walk.stack = []) : t.walkFor visit more walk = walk := by
    cases more with
    | zero => rfl
    | succ more => simp [walkFor, step?, hw]
  rw [walk, hempty, start, hmore, walkFor_add, getElem!_eq hroot, hsub.isEmpty_children, hstop,
    walkFor_subtrees hsub (by rw [getElem!_eq hroot, List.drop_zero]), hdone _ rfl]

/-- To append the members of a list one by one is to have the list. -/
theorem foldl_concat (ws : List (List α)) : ws.foldl (fun vs w => vs ++ [w]) [] = ws := by
  rw [List.foldl_append_eq_append, List.nil_append, ← List.flatMap_def, List.flatMap_singleton']

namespace Stores

variable [Ord α] {u : Trie α} {S : Finset (List α)}

/-- To go through a stored set is to go through its words. -/
theorem fold_eq (h : t.Stores u) (hS : u.Holds S) (f : β → List α → β) (init : β) :
    t.fold f init = u.words.foldl f init := by
  rw [fold, walk_eq h, Branches.visitAll_stop]
  simp only [List.nil_append, List.map_id']
  split
  next hempty =>
    rw [hS.words_eq_nil hempty]
    rfl
  next =>
    rw [Trie.words]
    cases u.stop <;> rfl

/-- The words of the table are those of the trie. -/
theorem words_eq (h : t.Stores u) (hS : u.Holds S) : t.words = u.words := by
  rw [words, h.fold_eq hS, foldl_concat]

variable [Std.LawfulEqOrd α]

/-- To go through the childless nodes of a stored set is to go through its maximal words. If the
root has no children and the set is not empty, the empty word is a member. -/
theorem foldMaximal_eq (h : t.Stores u) (hS : u.Holds S) (f : β → List α → β) (init : β) :
    t.foldMaximal f init = u.maximalWords.foldl f init := by
  rw [foldMaximal, walk_eq h, Branches.visitAll_childless]
  simp only [List.nil_append, List.map_id']
  split
  next hempty =>
    rw [hS.maximalWords_eq_nil hempty]
    rfl
  next hsome =>
    rw [Trie.maximalWords]
    cases hts : u.branches with
    | nil => rw [hS.stop_of_childless hsome hts]; rfl
    | branch => rfl

/-- Its maximal words are those of the trie. -/
theorem maximalWords_eq (h : t.Stores u) (hS : u.Holds S) : t.maximalWords = u.maximalWords := by
  rw [maximalWords, h.foldMaximal_eq hS, foldl_concat]

end Stores

end StoredTrie

end StateIdentification
