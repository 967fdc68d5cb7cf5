import Mathlib.Data.List.Nodup
import StateIdentification.Counting
import StateIdentification.Proofs.ArenaShape

/-!
# Counting the nodes of a tree

Every node but the root is the child of one inner node. So a measure that never grows from an inner
node to its children together bounds what the leaves have together, and a tree in which all inner
nodes have several children has more leaves than inner nodes. A measure that gets smaller from a
node to each of its children bounds the depth of the nodes and the number of inner nodes on a path.

## Main definitions

- `Arena.inner`, `Arena.innerCount`: the nodes with children.
- `Arena.Simple`: no node is a child twice.
- `Arena.IsPath`: nodes each of which is a child of the one before.

## Main results

- `Arena.Simple.perm_children`: every node but the root is a child once.
- `Arena.Simple.total_leaves_le`: what the leaves have together.
- `Arena.Simple.innerCount_lt`, `Arena.Simple.size_lt`: there are more leaves than inner nodes.
- `Arena.depth_add_le`, `Arena.countP_inner_lt`: how far it is from the root to a leaf.
- `Arena.isPath_of_trail?`: a trail is a path to a leaf.
-/

namespace StateIdentification.Arena

variable {α : Type u} {t : Arena α} {f : Nat → Nat} {id c : Nat}

/-- The nodes with children in order of creation. -/
def inner (t : Arena α) : List Nat := t.ids.filter (!t.isLeaf ·)

/-- The number of nodes with children. -/
def innerCount (t : Arena α) : Nat := t.inner.length

theorem mem_inner : id ∈ t.inner ↔ ¬ t.isLeaf id := by
  have hsize (hl : ¬ t.isLeaf id) : id < t.size := lt_size_of_not_isLeaf hl
  simpa [inner, ids] using hsize

/-- A node is a leaf or an inner node. -/
theorem perm_leaves_inner (t : Arena α) : (t.leaves ++ t.inner).Perm t.ids :=
  List.filter_append_perm _ _

theorem leafCount_add_innerCount (t : Arena α) : t.leafCount + t.innerCount = t.size := by
  rw [leafCount, innerCount, ← List.length_append, t.perm_leaves_inner.length_eq, ids,
    List.length_range]

/-- A leaf that gets children becomes an inner node. -/
theorem innerCount_grow {relabel : α → α} {labels : List α} (hid : id ∈ t.leaves)
    (hne : labels ≠ []) : (t.grow id relabel labels).innerCount = t.innerCount + 1 := by
  have hnew : id ∉ t.inner := fun hmem => mem_inner.mp hmem (mem_leaves.mp hid).2
  have hnodup (t : Arena α) : t.inner.Nodup := List.nodup_range.filter _
  have hperm : (t.grow id relabel labels).inner.Perm (id :: t.inner) := by
    refine (List.perm_ext_iff_of_nodup (hnodup _) (List.nodup_cons.mpr ⟨hnew, hnodup t⟩)).mpr ?_
    intro c
    rw [mem_inner, isLeaf_grow hid hne, List.mem_cons, mem_inner]
    by_cases heq : c = id <;> simp [heq]
  rw [innerCount, hperm.length_eq, List.length_cons, innerCount]

/-- Every node but the root has one parent, which has it as a child once. -/
structure Simple (t : Arena α) : Prop where
  rooted : t.Rooted
  nodup_children : ∀ id, (t.children id).Nodup

namespace Simple

/-- Every node but the root is a child once. -/
theorem perm_children (h : t.Simple) : (root :: t.inner.flatMap t.children).Perm t.ids := by
  have hroot : root ∉ t.inner.flatMap t.children := by
    rw [List.mem_flatMap]
    rintro ⟨p, -, hp⟩
    exact Nat.not_lt_zero p (lt_of_mem_children hp)
  have hnodup : (root :: t.inner.flatMap t.children).Nodup := by
    refine List.nodup_cons.mpr ⟨hroot, List.nodup_flatMap.mpr ⟨fun id _ => h.nodup_children id, ?_⟩⟩
    refine (List.nodup_range.filter _).imp fun {p q} hne c hp hq => ?_
    exact hne (h.rooted.parent_unique hp hq)
  refine (List.perm_ext_iff_of_nodup hnodup List.nodup_range).mpr fun c => ?_
  rw [List.mem_cons, List.mem_flatMap, List.mem_range]
  constructor
  · rintro (rfl | ⟨p, -, hc⟩)
    · exact t.root_lt_size
    · exact lt_size_of_mem_children hc
  · intro hc
    refine (Nat.eq_zero_or_pos c).imp_right fun hpos => ?_
    obtain ⟨p, hp, -⟩ := h.rooted c hpos hc
    exact ⟨p, mem_inner.mpr (not_isLeaf_of_mem hp), hp⟩

/-- A measure of all nodes is that of the root and of all children. -/
theorem total_ids (h : t.Simple) (f : Nat → Nat) :
    total f t.ids = f root + total (fun id => total f (t.children id)) t.inner := by
  rw [← total_perm f h.perm_children, total, total_flatMap]

/-- If the children of an inner node never have more than the node itself, then the leaves together
have no more than the root. -/
theorem total_leaves_le (h : t.Simple)
    (hsum : ∀ id, ¬ t.isLeaf id → total f (t.children id) ≤ f id) :
    total f t.leaves ≤ f root := by
  have hall := h.total_ids f
  have hchildren : total (fun id => total f (t.children id)) t.inner ≤ total f t.inner :=
    total_le_total fun id hid => hsum id (mem_inner.mp hid)
  rw [← total_perm f t.perm_leaves_inner, total_append] at hall
  omega

/-- If all nodes have something, there are no more leaves than the root has. -/
theorem leafCount_le (h : t.Simple)
    (hsum : ∀ id, ¬ t.isLeaf id → total f (t.children id) ≤ f id)
    (hpos : ∀ id < t.size, 0 < f id) : t.leafCount ≤ f root := by
  calc t.leafCount = total (fun _ => 1) t.leaves := (total_one _).symm
    _ ≤ total f t.leaves := total_le_total fun id hid => hpos id (mem_leaves.mp hid).1
    _ ≤ f root := h.total_leaves_le hsum

/-- If all inner nodes have several children, there are more leaves than inner nodes. -/
theorem innerCount_lt (h : t.Simple) (hbranch : ∀ id, ¬ t.isLeaf id → 2 ≤ (t.children id).length) :
    t.innerCount < t.leafCount := by
  have hall := h.total_ids fun _ => 1
  have hsplit := t.leafCount_add_innerCount
  have hchildren : total (fun _ => 2 * 1) t.inner ≤
      total (fun id => total (fun _ => 1) (t.children id)) t.inner :=
    total_le_total fun id hid => by
      rw [total_one]
      exact hbranch id (mem_inner.mp hid)
  rw [total_mul 2, total_one] at hchildren
  rw [total_one, ids, List.length_range] at hall
  unfold innerCount at hsplit ⊢
  omega

theorem size_lt (h : t.Simple) (hbranch : ∀ id, ¬ t.isLeaf id → 2 ≤ (t.children id).length) :
    t.size < 2 * t.leafCount := by
  have hcount := t.leafCount_add_innerCount
  have hlt := h.innerCount_lt hbranch
  omega

end Simple

/-- A measure that gets smaller with every level bounds the depth. -/
theorem depth_add_le (h : t.Rooted) (hroot : t.depth root = 0)
    (hdepth : ∀ {id c : Nat}, c ∈ t.children id → t.depth c = t.depth id + 1)
    (hdec : ∀ {id c : Nat}, c ∈ t.children id → f c < f id) (hid : id < t.size) :
    t.depth id + f id ≤ f root := by
  induction id, hid using h.induction with
  | atRoot => rw [hroot, Nat.zero_add]
  | child p c hp hc ih =>
    have hlevel := hdepth hc
    have hlt := hdec hc
    omega

/-- Every node is a child of the one before. -/
def IsPath (t : Arena α) (l : List Nat) : Prop := l.IsChain fun p c => c ∈ t.children p

/-- A measure that gets smaller from a node to each of its children bounds the number of inner nodes
on a path. -/
theorem countP_inner_lt (hdec : ∀ {id c : Nat}, c ∈ t.children id → f c < f id)
    (hpos : ∀ id < t.size, 0 < f id) {l : List Nat} (hid : id < t.size) (h : t.IsPath (id :: l)) :
    (id :: l).countP (!t.isLeaf ·) < f id := by
  induction l generalizing id with
  | nil =>
    by_cases hl : t.isLeaf id
    · simpa [hl] using hpos id hid
    · obtain ⟨c, hc⟩ := List.exists_mem_of_ne_nil _ (mt isLeaf_iff.mpr hl)
      have hlt := hdec hc
      have hchild := hpos c (lt_size_of_mem_children hc)
      calc [id].countP (!t.isLeaf ·) ≤ 1 := List.countP_le_length
        _ < f id := by omega
  | cons c l ih =>
    obtain ⟨hc, hrest⟩ := List.isChain_cons_cons.mp h
    have hlt := hdec hc
    have hcount := ih (lt_size_of_mem_children hc) hrest
    rw [List.countP_cons]
    split <;> omega

/-- A trail is a path that starts in its first node and ends in a leaf. -/
theorem isPath_of_trail? [Inhabited α] {holds : α → Bool} {l : List Nat}
    (h : t.trail? holds id = some l) :
    ∃ rest, l = id :: rest ∧ t.IsPath l ∧ ∃ leaf, l.getLast? = some leaf ∧ t.isLeaf leaf := by
  induction id using t.inductionOnChildren generalizing l with
  | node id ih =>
    rw [trail?] at h
    split at h
    case isTrue hl =>
      obtain rfl := Option.some.inj h
      exact ⟨[], rfl, .singleton id, id, rfl, hl⟩
    case isFalse =>
      split at h
      case h_1 => cases h
      case h_2 c hsome =>
        have hc := List.mem_of_find?_eq_some hsome
        obtain ⟨m, hm, rfl⟩ := Option.map_eq_some_iff.mp h
        obtain ⟨rest, rfl, hpath, leaf, hlast, hleaf⟩ := ih c hc hm
        refine ⟨_, rfl, List.isChain_cons_cons.mpr ⟨hc, hpath⟩, leaf, ?_, hleaf⟩
        rw [List.getLast?_cons, hlast, Option.getD_some]

end StateIdentification.Arena
