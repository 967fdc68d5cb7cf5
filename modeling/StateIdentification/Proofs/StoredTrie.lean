import StateIdentification.Proofs.TrieOrder
import StateIdentification.Trie.Stored

/-!
# What a table of nodes stores

The nodes of a stored trie form a tree: every node is the child of one other node, the root apart.
So a word that is added changes the subtrees on its way and no others, and the table goes on storing
the trie to which the word is added.

## Main definitions

- `StoredTrie.Subtrees`: the subtrees that a table holds below a node, with the nodes they take.
- `StoredTrie.Stores`: a table stores a trie.
- `StoredTrie.Replaces`: a table has other subtrees below a node and is otherwise the same.

## Main results

- `TrieNode.search_spec`: the search among ascending symbols.
- `StoredTrie.Subtrees.focus`, `StoredTrie.Subtrees.gap`: the subtrees at a symbol that is there,
  and at one that is not.
- `StoredTrie.replaces_descend`: a word that is added below a node.
- `StoredTrie.Stores.insert`, `StoredTrie.Stores.contains_eq`: adding a word and looking one up.
-/

namespace StateIdentification

variable {α : Type u} [Ord α] {a b : α} {w : List α} {children : List (α × Nat)}

/-- The symbols of the children are in strictly ascending order. -/
def TrieNode.Ascending (children : List (α × Nat)) : Prop :=
  children.Pairwise fun x y => compare x.1 y.1 = .lt

namespace TrieNode

/-- The symbols before `k` are smaller than `a`, and those from `k` on are greater. -/
def IsGap (children : List (α × Nat)) (a : α) (k : Nat) : Prop :=
  k ≤ children.length ∧
    ∀ (j : Nat) (h : j < children.length),
      compare children[j].1 a = if j < k then .lt else .gt

theorem Ascending.lt (h : Ascending children) {i j : Nat} (hij : i < j) (hj : j < children.length) :
    compare children[i].1 children[j].1 = .lt :=
  List.pairwise_iff_getElem.mp h i j _ hj hij

theorem searchBetween_spec [Std.TransOrd α] [Std.LawfulEqOrd α] (hasc : Ascending children)
    {low high : Nat} (h : high ≤ children.length) (hle : low ≤ high)
    (hlow : ∀ (j : Nat) (hj : j < children.length), j < low → compare children[j].1 a = .lt)
    (hhigh : ∀ (j : Nat) (hj : j < children.length), high ≤ j → compare children[j].1 a = .gt) :
    match searchBetween children a low high h with
    | .found k => ∃ c, children[k]? = some (a, c)
    | .missing k => IsGap children a k := by
  -- symbols ascend, so one comparison settles all places on one side
  fun_induction searchBetween children a low high h with
  | case1 low high h hlt middle hmiddle hc ih =>
    refine ih (by omega) (fun j _ hj => ?_) hhigh
    rcases Nat.lt_or_eq_of_le (Nat.lt_succ_iff.mp hj) with hjm | rfl
    · exact Std.TransCmp.lt_trans (hasc.lt hjm hmiddle) hc
    · exact hc
  | case2 low high h hlt middle hmiddle hc =>
    have heq : children[middle].1 = a := Std.LawfulEqCmp.eq_of_compare hc
    exact ⟨children[middle].2, by rw [List.getElem?_eq_getElem hmiddle, ← heq]⟩
  | case3 low high h hlt middle hmiddle hc ih =>
    refine ih (by omega) hlow fun j hj hmj => ?_
    rcases Nat.lt_or_eq_of_le hmj with hjm | rfl
    · exact Std.TransCmp.gt_trans (Std.OrientedCmp.gt_of_lt (hasc.lt hjm hj)) hc
    · exact hc
  | case4 low high h hlt =>
    refine ⟨by omega, fun j hj => ?_⟩
    split
    next hjl => exact hlow j hj hjl
    next hjl => exact hhigh j hj (by omega)

/-- A symbol that is found is there, and one that is missing would stand between smaller and greater
symbols. -/
theorem search_spec [Std.TransOrd α] [Std.LawfulEqOrd α] {node : TrieNode α}
    (hasc : Ascending node.children) (a : α) :
    match node.search a with
    | .found k => ∃ c, node.children[k]? = some (a, c)
    | .missing k => IsGap node.children a k :=
  searchBetween_spec hasc _ (Nat.zero_le _) (fun _ _ hj => absurd hj (Nat.not_lt_zero _))
    fun _ hj hle => absurd hj (Nat.not_lt.mpr hle)

end TrieNode

namespace StoredTrie

omit [Ord α] in
/-- In a table, the children of a node hold the subtrees `ts`, which take the nodes `ids`. -/
inductive Subtrees (nodes : Array (TrieNode α)) : List (α × Nat) → Branches α → List Nat → Prop
  | nil : Subtrees nodes [] .nil []
  | branch {a : α} {child : Nat} {node : TrieNode α} {children : List (α × Nat)}
      {below beside : Branches α} {ids others : List Nat} :
      nodes[child]? = some node → Subtrees nodes node.children below ids →
      Subtrees nodes children beside others →
      Subtrees nodes ((a, child) :: children) (.branch a node.stop below beside)
        (child :: ids ++ others)

/-- A table stores a trie. No node is the child of two nodes. -/
structure Stores (t : StoredTrie α) (u : Trie α) : Prop where
  tree : ∃ root ids, t.nodes[0]? = some root ∧ root.stop = u.stop ∧
    Subtrees t.nodes root.children u.branches ids ∧ (0 :: ids).Nodup
  size_eq : t.size = u.size
  symbols_eq : t.symbols = u.symbols

variable {nodes nodes' : Array (TrieNode α)} {ts : Branches α} {ids ids' : List Nat}
  {node : TrieNode α} {id k : Nat}

namespace Subtrees

omit [Ord α] in
/-- Only the nodes of the subtrees matter. -/
theorem congr (h : Subtrees nodes children ts ids)
    (heq : ∀ n ∈ ids, nodes'[n]? = nodes[n]?) : Subtrees nodes' children ts ids := by
  induction h with
  | nil => exact .nil
  | branch hnode _ _ ihBelow ihBeside =>
    refine .branch ((heq _ (by simp)).trans hnode) (ihBelow fun n hn => heq n ?_)
      (ihBeside fun n hn => heq n ?_)
    · simp [hn]
    · simp [hn]

omit [Ord α] in
theorem lt_size (h : Subtrees nodes children ts ids) : ∀ n ∈ ids, n < nodes.size := by
  induction h with
  | nil => simp
  | branch hnode _ _ ihBelow ihBeside =>
    have := (Array.getElem?_eq_some_iff.mp hnode).1
    simp only [List.cons_append, List.mem_cons, List.mem_append]
    rintro n (rfl | hn | hn)
    · exact this
    · exact ihBelow n hn
    · exact ihBeside n hn

omit [Ord α] in
/-- A node and those of its subtrees are in the table. -/
theorem lt_size_cons (h : Subtrees nodes node.children ts ids) (hnode : nodes[id]? = some node) :
    ∀ n ∈ id :: ids, n < nodes.size :=
  List.forall_mem_cons.mpr ⟨(Array.getElem?_eq_some_iff.mp hnode).1, h.lt_size⟩

theorem lt_of_above (h : Subtrees nodes children ts ids) (habove : ts.Above a) :
    ∀ x ∈ children, compare a x.1 = .lt := by
  induction h with
  | nil => simp
  | branch _ _ _ _ ihBeside =>
    rintro x hx
    rcases List.mem_cons.mp hx with rfl | hx
    · exact habove.1
    · exact ihBeside habove.2 x hx

/-- The children stand in the order of the subtrees. -/
theorem ascending (h : Subtrees nodes children ts ids) (htidy : ts.Tidy) :
    TrieNode.Ascending children := by
  induction h with
  | nil => exact .nil
  | branch _ _ hbeside _ ihBeside =>
    obtain ⟨-, habove, -, htidy⟩ := htidy
    exact .cons (hbeside.lt_of_above habove) (ihBeside htidy)

/-- The subtree at a symbol that is there: a word that starts with the symbol is looked up in it,
and to add such a word is to replace this subtree. -/
theorem focus [Std.OrientedOrd α] [Std.ReflOrd α] (h : Subtrees nodes children ts ids)
    (htidy : ts.Tidy) {child : Nat} (hk : children[k]? = some (a, child)) :
    ∃ node below before inside behind,
      nodes[child]? = some node ∧ Subtrees nodes node.children below inside ∧ below.Tidy ∧
      ids = before ++ (child :: inside) ++ behind ∧
      (∀ w, ts.contains (a :: w) = if w.isEmpty then node.stop else below.contains w) ∧
      ∀ (nodes' : Array (TrieNode α)) (node' : TrieNode α) (inside' : List Nat) (w : List α),
        (∀ n ∈ before ++ behind, nodes'[n]? = nodes[n]?) → nodes'[child]? = some node' →
        node'.stop = (node.stop || w.isEmpty) →
        Subtrees nodes' node'.children (below.insert w) inside' →
        Subtrees nodes' children (ts.insert (a :: w)) (before ++ (child :: inside') ++ behind) := by
  induction h generalizing k with
  | nil => simp at hk
  | @branch b first node children below beside inside others hnode hbelow hbeside _ ihBeside =>
    obtain ⟨-, habove, htidyBelow, htidyBeside⟩ := htidy
    cases k with
    | zero =>
      obtain ⟨rfl, rfl⟩ : b = a ∧ first = child := by simpa using hk
      refine ⟨node, below, [], inside, others, hnode, hbelow, htidyBelow, rfl, fun w => ?_, ?_⟩
      · simp [Branches.contains]
      · intro nodes' node' inside' w heq hnode' hstop hbelow'
        rw [Branches.insert, (Std.ReflCmp.compare_self : compare b b = .eq), ← hstop]
        exact .branch hnode' hbelow' (hbeside.congr (by simpa using heq))
    | succ k =>
      have hk' : children[k]? = some (a, child) := by simpa using hk
      have hgt : compare a b = .gt :=
        Std.OrientedCmp.gt_of_lt (hbeside.lt_of_above habove _ (List.mem_of_getElem? hk'))
      obtain ⟨node₂, below₂, before, inside₂, behind, hnode₂, hbelow₂, htidy₂, rfl, hfind, hput⟩ :=
        ihBeside htidyBeside hk'
      refine ⟨node₂, below₂, first :: inside ++ before, inside₂, behind, hnode₂, hbelow₂, htidy₂,
        by simp, fun w => ?_, ?_⟩
      · rw [Branches.contains, hgt, ← hfind]
      · intro nodes' node' inside' w heq hnode' hstop hbelow'
        have hrest := hput nodes' node' inside' w (fun n hn => heq n (by simp at hn ⊢; grind))
          hnode' hstop hbelow'
        have hold : Subtrees nodes' _ _ _ := hbelow.congr fun n hn => heq n (by simp [hn])
        rw [Branches.insert, hgt]
        simpa using Subtrees.branch (a := b) ((heq first (by simp)).trans hnode) hold hrest

/-- The subtrees at a symbol that is not there: no word starts with the symbol, and to add such a
word is to put a new subtree between the others. -/
theorem gap [Std.OrientedOrd α] (h : Subtrees nodes children ts ids)
    (hk : TrieNode.IsGap children a k) :
    ∃ before behind, ids = before ++ behind ∧ (∀ w, ts.contains (a :: w) = false) ∧
      ∀ (nodes' : Array (TrieNode α)) (child : Nat) (node' : TrieNode α) (inside : List Nat)
        (w : List α),
        (∀ n ∈ ids, nodes'[n]? = nodes[n]?) → nodes'[child]? = some node' →
        node'.stop = w.isEmpty → Subtrees nodes' node'.children (.ofWord w) inside →
        Subtrees nodes' (children.insertIdx k (a, child)) (ts.insert (a :: w))
          (before ++ (child :: inside) ++ behind) := by
  induction h generalizing k with
  | nil =>
    obtain rfl : k = 0 := by simpa [TrieNode.IsGap] using hk.1
    refine ⟨[], [], rfl, fun w => rfl, fun nodes' child node' inside w _ hnode' hstop hbelow' => ?_⟩
    rw [Branches.insert, Branches.ofWord, ← hstop]
    · exact .branch hnode' hbelow' .nil
    · exact List.cons_ne_nil a w
  | @branch b first node children below beside inside others hnode hbelow hbeside _ ihBeside =>
    have hfirst := hk.2 0 (by simp)
    cases k with
    | zero =>
      have hlt : compare a b = .lt := Std.OrientedCmp.lt_of_gt (by simpa using hfirst)
      refine ⟨[], first :: inside ++ others, rfl, fun w => ?_, ?_⟩
      · rw [Branches.contains, hlt]
      · intro nodes' child node' new w heq hnode' hstop hbelow'
        have hold := (Subtrees.branch (a := b) hnode hbelow hbeside).congr heq
        rw [Branches.insert, hlt, ← hstop]
        exact .branch hnode' hbelow' hold
    | succ k =>
      have hgt : compare a b = .gt := Std.OrientedCmp.gt_of_lt (by simpa using hfirst)
      have hk' : TrieNode.IsGap children a k := by
        refine ⟨by simpa using hk.1, fun j hj => ?_⟩
        simpa only [List.getElem_cons_succ, Nat.add_lt_add_iff_right] using
          hk.2 (j + 1) (Nat.succ_lt_succ hj)
      obtain ⟨before, behind, rfl, hfind, hput⟩ := ihBeside hk'
      refine ⟨first :: inside ++ before, behind, by simp, fun w => ?_, ?_⟩
      · rw [Branches.contains, hgt, ← hfind w]
      · intro nodes' child node' new w heq hnode' hstop hbelow'
        have hrest := hput nodes' child node' new w
          (fun n hn => heq n (List.mem_append_right _ hn)) hnode' hstop hbelow'
        have hold : Subtrees nodes' _ _ _ := hbelow.congr fun n hn => heq n (by simp [hn])
        rw [Branches.insert, hgt]
        simpa using Subtrees.branch (a := b) ((heq first (by simp)).trans hnode) hold hrest

end Subtrees

omit [Ord α] in
/-- Table `nodes'` has the subtrees `ts` below the node `id`, which has become `node`. They take
nodes that were there below it before and new ones. All other nodes are as they are in `nodes`. -/
structure Replaces (nodes' nodes : Array (TrieNode α)) (id : Nat) (ids : List Nat)
    (node : TrieNode α) (ts : Branches α) (ids' : List Nat) : Prop where
  getElem?_id : nodes'[id]? = some node
  subtrees : Subtrees nodes' node.children ts ids'
  nodup : (id :: ids').Nodup
  fresh : ∀ n ∈ ids', n ∈ ids ∨ nodes.size ≤ n
  getElem?_other : ∀ n < nodes.size, n ≠ id → n ∉ ids → nodes'[n]? = nodes[n]?

omit [Ord α] in
theorem getElem!_eq (h : nodes[id]? = some node) : nodes[id]! = node := by
  rw [getElem!_def, h]

omit [Ord α] in
theorem getElem?_endWord (nodes : Array (TrieNode α)) (id n : Nat) :
    (endWord nodes id)[n]? =
      if id = n then nodes[n]?.map ({ · with stop := true }) else nodes[n]? := by
  rw [endWord, Array.getElem?_modify]

omit [Ord α] in
/-- A list has no repetitions if a part of it has none and shares nothing with the rest, which has
none either. -/
theorem nodup_between_iff (before inside behind : List Nat) :
    (before ++ inside ++ behind).Nodup ↔
      inside.Nodup ∧ (before ++ behind).Nodup ∧ ∀ n ∈ inside, n ∉ before ++ behind := by
  have hperm : (before ++ inside ++ behind).Perm (inside ++ (before ++ behind)) := by
    rw [← List.append_assoc]
    exact List.perm_append_comm.append_right behind
  rw [hperm.nodup_iff, List.nodup_append', List.Disjoint]

/-- A word is added below a node by adding the rest of it below the child at its first symbol. -/
theorem replaces_found [Std.OrientedOrd α] [Std.ReflOrd α] (hnode : nodes[id]? = some node)
    (hsub : Subtrees nodes node.children ts ids) (hnodup : (id :: ids).Nodup) (htidy : ts.Tidy)
    {child : Nat} (hk : node.children[k]? = some (a, child)) :
    ∃ below ts' inside, nodes[child]? = some below ∧ Subtrees nodes below.children ts' inside ∧
      (child :: inside).Nodup ∧ ts'.Tidy ∧
      (∀ w, ts.contains (a :: w) = if w.isEmpty then below.stop else ts'.contains w) ∧
      ∀ (nodes' : Array (TrieNode α)) (below' : TrieNode α) (inside' : List Nat) (w : List α),
        below'.stop = (below.stop || w.isEmpty) →
        Replaces nodes' nodes child inside below' (ts'.insert w) inside' →
        ∃ ids', Replaces nodes' nodes id ids node (ts.insert (a :: w)) ids' := by
  obtain ⟨below, ts', before, inside, behind, hbelow, hsub', htidy', rfl, hfind, hput⟩ :=
    hsub.focus htidy hk
  obtain ⟨hin, houter, hapart⟩ :=
    (nodup_between_iff (id :: before) (child :: inside) behind).mp hnodup
  refine ⟨below, ts', inside, hbelow, hsub', hin, htidy', hfind, ?_⟩
  intro nodes' below' inside' w hstop h
  have hold (n : Nat) (hn : n ∈ id :: before ++ behind) : n < nodes.size :=
    hsub.lt_size_cons hnode n (by simp at hn ⊢; tauto)
  have hsame (n : Nat) (hn : n ∈ id :: before ++ behind) : nodes'[n]? = nodes[n]? :=
    h.getElem?_other n (hold n hn) (fun heq => hapart child (by simp) (heq ▸ hn))
      fun hinside => hapart n (by simp [hinside]) hn
  refine ⟨before ++ (child :: inside') ++ behind, (hsame id (by simp)).trans hnode, ?_, ?_, ?_, ?_⟩
  · exact hput nodes' below' inside' w (fun n hn => hsame n (List.mem_cons_of_mem _ hn))
      h.getElem?_id hstop h.subtrees
  · refine (nodup_between_iff (id :: before) _ _).mpr ⟨h.nodup, houter, fun n hn hout => ?_⟩
    rcases List.mem_cons.mp hn with rfl | hn
    · exact hapart n (by simp) hout
    · rcases h.fresh n hn with hinside | hnew
      · exact hapart n (by simp [hinside]) hout
      · exact absurd (hold n hout) (Nat.not_lt.mpr hnew)
  · intro n hn
    simp only [List.mem_append, List.mem_cons] at hn ⊢
    have := h.fresh n
    tauto
  · intro n hn hne hout
    simp only [List.mem_append, List.mem_cons, not_or] at hout
    exact h.getElem?_other n hn hout.1.2.1 hout.1.2.2

/-- A missing child is put at the end of the table, and its parent refers to it. -/
theorem enter_missing (hnode : nodes[id]? = some node) (hk : node.search a = .missing k) :
    ∃ nodes₁, enter nodes id a = (nodes₁, nodes.size) ∧ nodes₁.size = nodes.size + 1 ∧
      nodes₁[id]? = some { node with children := node.children.insertIdx k (a, nodes.size) } ∧
      nodes₁[nodes.size]? = some .blank ∧
      ∀ n < nodes.size, n ≠ id → nodes₁[n]? = nodes[n]? := by
  have hid := (Array.getElem?_eq_some_iff.mp hnode).1
  let nodes₁ := (nodes.push .blank).modify id fun node =>
    { node with children := node.children.insertIdx k (a, nodes.size) }
  have hold (n : Nat) (hn : n < nodes.size) (hne : n ≠ id) : nodes₁[n]? = nodes[n]? := by
    rw [Array.getElem?_modify, if_neg (Ne.symm hne), Array.getElem?_push, if_neg (Nat.ne_of_lt hn)]
  have hnew : nodes₁[nodes.size]? = some .blank := by
    rw [Array.getElem?_modify, if_neg (Nat.ne_of_lt hid), Array.getElem?_push, if_pos rfl]
  refine ⟨nodes₁, ?_, by simp [nodes₁], ?_, hnew, hold⟩
  · simp only [enter, getElem!_eq hnode, hk, nodes₁]
  · rw [Array.getElem?_modify, if_pos rfl, Array.getElem?_push, if_neg (Nat.ne_of_lt hid), hnode]
    rfl

/-- If there is no child at its first symbol, the rest of the word is added below a new one. -/
theorem replaces_missing [Std.OrientedOrd α] (hnode : nodes[id]? = some node)
    (hsub : Subtrees nodes node.children ts ids) (hnodup : (id :: ids).Nodup)
    (hk : node.search a = .missing k) (hgap : TrieNode.IsGap node.children a k) :
    ∃ nodes₁, enter nodes id a = (nodes₁, nodes.size) ∧ nodes₁[nodes.size]? = some .blank ∧
      (∀ w, ts.contains (a :: w) = false) ∧
      ∀ (nodes' : Array (TrieNode α)) (below : TrieNode α) (inside : List Nat) (w : List α),
        below.stop = w.isEmpty → Replaces nodes' nodes₁ nodes.size [] below (.ofWord w) inside →
        ∃ node' ids', node'.stop = node.stop ∧
          Replaces nodes' nodes id ids node' (ts.insert (a :: w)) ids' := by
  obtain ⟨before, behind, rfl, hfind, hput⟩ := hsub.gap hgap
  obtain ⟨nodes₁, hentered, hsize, hroot, hnew, hsame⟩ := enter_missing hnode hk
  refine ⟨nodes₁, hentered, hnew, hfind, ?_⟩
  intro nodes' below inside w hstop h
  have hkept (n : Nat) (hn : n < nodes.size) : nodes'[n]? = nodes₁[n]? :=
    h.getElem?_other n (by omega) (Nat.ne_of_lt hn) List.not_mem_nil
  have hold : ∀ n ∈ id :: before ++ behind, n < nodes.size := hsub.lt_size_cons hnode
  have hfresh : ∀ n ∈ nodes.size :: inside, nodes.size ≤ n := by
    intro n hn
    rcases List.mem_cons.mp hn with rfl | hn
    · exact Nat.le_refl _
    · have := (h.fresh n hn).resolve_left List.not_mem_nil
      omega
  refine ⟨{ node with children := node.children.insertIdx k (a, nodes.size) },
    before ++ (nodes.size :: inside) ++ behind, rfl,
    (hkept id (hold id List.mem_cons_self)).trans hroot, ?_, ?_, ?_, ?_⟩
  · refine hput nodes' nodes.size below inside w (fun n hn => ?_) h.getElem?_id hstop h.subtrees
    have hlt := hsub.lt_size n hn
    have hne : n ≠ id := fun heq => (List.nodup_cons.mp hnodup).1 (heq ▸ hn)
    rw [hkept n hlt, hsame n hlt hne]
  · refine (nodup_between_iff (id :: before) _ _).mpr ⟨h.nodup, hnodup, fun n hn hout => ?_⟩
    exact absurd (hold n hout) (Nat.not_lt.mpr (hfresh n hn))
  · intro n hn
    simp only [List.append_assoc, List.mem_append] at hn ⊢
    have := hfresh n
    tauto
  · intro n hn hne _
    rw [hkept n hn, hsame n hn hne]

/-- Below a node, the nodes along a word are there afterwards, and a word ends in the last of them
if the word is a member. To let it end there is to add the word. -/
theorem replaces_descend [Std.TransOrd α] [Std.LawfulEqOrd α] (hnode : nodes[id]? = some node)
    (hsub : Subtrees nodes node.children ts ids) (hnodup : (id :: ids).Nodup) (htidy : ts.Tidy)
    (w : List α) :
    ∃ last node' ids', (descend nodes id w).1[(descend nodes id w).2]? = some last ∧
      last.stop = (if w.isEmpty then node.stop else ts.contains w) ∧
      node'.stop = (node.stop || w.isEmpty) ∧
      Replaces (endWord (descend nodes id w).1 (descend nodes id w).2) nodes id ids node'
        (ts.insert w) ids' := by
  induction w generalizing nodes id node ts ids with
  | nil =>
    refine ⟨node, { node with stop := true }, ids, hnode, rfl, by simp, ?_, ?_, hnodup,
      fun n hn => .inl hn, fun n _ hne _ => ?_⟩
    · simp [descend, getElem?_endWord, hnode]
    · have hid : id ∉ ids := (List.nodup_cons.mp hnodup).1
      have hsub' : Subtrees (endWord nodes id) node.children ts ids := hsub.congr fun n hn => by
        rw [getElem?_endWord, if_neg (by rintro rfl; exact hid hn)]
      cases ts <;> simpa [descend, Branches.insert] using hsub'
    · rw [descend, getElem?_endWord, if_neg (Ne.symm hne)]
  | cons a w ih =>
    have hspec := TrieNode.search_spec (hsub.ascending htidy) a
    rw [descend]
    cases hsearch : node.search a with
    | found k =>
      rw [hsearch] at hspec
      obtain ⟨child, hk⟩ := hspec
      have hentered : enter nodes id a = (nodes, child) := by
        simp [enter, getElem!_eq hnode, hsearch, hk]
      obtain ⟨below, ts', inside, hbelow, hsub', hin, htidy', hfind, hput⟩ :=
        replaces_found hnode hsub hnodup htidy hk
      obtain ⟨last, below', inside', hlast, hstop, hstop', h⟩ := ih hbelow hsub' hin htidy'
      obtain ⟨ids', h'⟩ := hput _ below' inside' w hstop' h
      rw [hentered]
      exact ⟨last, node, ids', hlast, hstop.trans (hfind w).symm, by simp, h'⟩
    | missing k =>
      rw [hsearch] at hspec
      obtain ⟨nodes₁, hentered, hnew, hfind, hput⟩ :=
        replaces_missing hnode hsub hnodup hsearch hspec
      obtain ⟨last, below, inside, hlast, hstop, hstop', h⟩ :=
        ih hnew .nil (List.nodup_singleton _) trivial
      rw [Branches.insert_nil] at h
      obtain ⟨node', ids', hkept, h'⟩ :=
        hput _ below inside w (by simpa [TrieNode.blank] using hstop') h
      rw [hentered]
      refine ⟨last, node', ids', hlast, ?_, by simp [hkept], h'⟩
      rw [hstop]
      simp [hfind, Branches.contains, TrieNode.blank]

/-- A word that leads to a node is followed without a change to the table. -/
theorem descend_of_find? {last : Nat} (h : w.foldlM (child? nodes) id = some last) :
    descend nodes id w = (nodes, last) := by
  induction w generalizing id with
  | nil => rw [Option.some.inj h]; rfl
  | cons a w ih =>
    obtain ⟨child, hchild, hrest⟩ := Option.bind_eq_some_iff.mp h
    have hentered : enter nodes id a = (nodes, child) := by
      unfold child? at hchild
      rw [enter]
      split at hchild
      next => simp [hchild]
      next => cases hchild
    rw [descend, hentered]
    exact ih hrest

/-- Below a node, a word leads to a node in which a word ends if it is a member. -/
theorem any_find?_eq [Std.TransOrd α] [Std.LawfulEqOrd α] (hnode : nodes[id]? = some node)
    (hsub : Subtrees nodes node.children ts ids) (hnodup : (id :: ids).Nodup) (htidy : ts.Tidy)
    (w : List α) :
    (w.foldlM (child? nodes) id).any (fun n => nodes[n]!.stop) =
      if w.isEmpty then node.stop else ts.contains w := by
  induction w generalizing id node ts ids with
  | nil => simp [getElem!_eq hnode]
  | cons a w ih =>
    have hspec := TrieNode.search_spec (hsub.ascending htidy) a
    rw [List.foldlM_cons]
    cases hsearch : node.search a with
    | found k =>
      rw [hsearch] at hspec
      obtain ⟨child, hk⟩ := hspec
      have hchild : child? nodes id a = some child := by
        simp [child?, getElem!_eq hnode, hsearch, hk]
      obtain ⟨below, ts', inside, hbelow, hsub', hin, htidy', hfind, -⟩ :=
        replaces_found hnode hsub hnodup htidy hk
      rw [hchild, List.isEmpty_cons, hfind]
      exact ih hbelow hsub' hin htidy'
    | missing k =>
      rw [hsearch] at hspec
      obtain ⟨before, behind, rfl, hfind, -⟩ := hsub.gap hspec
      have hchild : child? nodes id a = none := by simp [child?, getElem!_eq hnode, hsearch]
      rw [hchild, List.isEmpty_cons, hfind]
      rfl

namespace Stores

variable {t : StoredTrie α} {u : Trie α}

omit [Ord α] in
theorem empty : (∅ : StoredTrie α).Stores ∅ where
  tree := ⟨.blank, [], rfl, rfl, .nil, List.nodup_singleton 0⟩
  size_eq := rfl
  symbols_eq := rfl

variable [Std.TransOrd α] [Std.LawfulEqOrd α]

/-- A word is found in the table if it is a member of the trie. -/
theorem contains_eq (h : t.Stores u) (htidy : u.branches.Tidy) (w : List α) :
    t.contains w = u.contains w := by
  obtain ⟨root, ids, hroot, hstop, hsub, hnodup⟩ := h.tree
  rw [contains, find?, any_find?_eq hroot hsub hnodup htidy]
  cases w with
  | nil => rw [Trie.contains, hstop]; rfl
  | cons a w => simp [Trie.contains]

/-- A word that is added to the table is added to the trie, and it is new if it is no member. -/
theorem insert (h : t.Stores u) (htidy : u.branches.Tidy) (w : List α) :
    (t.insert w).1 = !u.contains w ∧ (t.insert w).2.Stores (u.insert w) := by
  obtain ⟨root, ids, hroot, hstop, hsub, hnodup⟩ := h.tree
  obtain ⟨last, root', ids', hlast, hlast', hroot', hput⟩ :=
    replaces_descend hroot hsub hnodup htidy w
  have hmember : last.stop = u.contains w := by
    rw [hlast']
    cases w with
    | nil => rw [Trie.contains, hstop]; rfl
    | cons a w => simp [Trie.contains]
  have hends : (descend t.nodes 0 w).1[(descend t.nodes 0 w).2]!.stop = u.contains w := by
    rw [getElem!_eq hlast, hmember]
  cases hw : u.contains w with
  | true =>
    have hfind := (h.contains_eq htidy w).trans hw
    rw [contains] at hfind
    obtain ⟨found, hfound⟩ : ∃ found, t.find? w = some found := by
      cases hf : t.find? w with
      | none => rw [hf] at hfind; cases hfind
      | some found => exact ⟨found, rfl⟩
    have hsame : descend t.nodes 0 w = (t.nodes, found) := descend_of_find? hfound
    rw [hsame] at hends
    simp only [StoredTrie.insert, Trie.insert, hsame, hends, hw, if_true]
    exact ⟨rfl, h⟩
  | false =>
    simp only [StoredTrie.insert, Trie.insert, hends, hw, Bool.false_eq_true, if_false]
    refine ⟨rfl, ⟨root', ids', hput.getElem?_id, ?_, hput.subtrees, hput.nodup⟩, ?_, ?_⟩
    · rw [hroot', hstop]
    · simp [h.size_eq]
    · simp [h.symbols_eq]

end Stores

end StoredTrie

end StateIdentification
