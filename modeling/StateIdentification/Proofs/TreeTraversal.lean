import Mathlib.Data.List.Nodup
import StateIdentification.Proofs.ArenaShape

/-!
# Traversals of a tree

A traversal by levels keeps the nodes that are still to be visited in a queue, where the children of
a visited node line up at the end. It visits the nodes that the queue and the subtrees below it
have, as often as these have them. If no node is the child of two nodes, the subtrees of two
children have no node in common, so a traversal from the root visits every node once.

## Main definitions

- `Arena.visitFrom`, `Arena.breadthFirst`: the traversal by levels, from a queue and from the root.

## Main results

- `Arena.visitFrom_perm`: which nodes are visited from a queue.
- `Arena.Rooted.preorder_root_perm`, `Arena.Rooted.breadthFirst_perm`: from the root every node is
  visited once.
-/

namespace StateIdentification

namespace Arena

variable {α : Type u} {t : Arena α} {id c x : Nat}

theorem mem_preorder : x ∈ t.preorder id ↔ x = id ∨ ∃ c ∈ t.children id, x ∈ t.preorder c := by
  rw [preorder_eq, List.mem_cons, List.mem_flatMap]

/-- A node is the first one of its subtree. -/
theorem le_of_mem_preorder (h : x ∈ t.preorder id) : id ≤ x := by
  induction id using t.inductionOnChildren with
  | node id ih =>
    rcases mem_preorder.mp h with rfl | ⟨c, hc, hx⟩
    · exact Nat.le_refl x
    · have := ih c hc hx
      have := lt_of_mem_children hc
      omega

theorem lt_size_of_mem_preorder (hid : id < t.size) (h : x ∈ t.preorder id) : x < t.size := by
  induction id using t.inductionOnChildren with
  | node id ih =>
    rcases mem_preorder.mp h with rfl | ⟨c, hc, hx⟩
    · exact hid
    · exact ih c hc (lt_size_of_mem_children hc) hx

/-- The children of a node are in all subtrees that the node is in. -/
theorem mem_preorder_of_mem_children (h : x ∈ t.preorder id) (hc : c ∈ t.children x) :
    c ∈ t.preorder id := by
  induction id using t.inductionOnChildren with
  | node id ih =>
    rw [mem_preorder] at h ⊢
    right
    rcases h with rfl | ⟨d, hd, hx⟩
    · exact ⟨c, hc, mem_preorder.mpr (.inl rfl)⟩
    · exact ⟨d, hd, ih d hd hx⟩

theorem Rooted.mem_preorder_root (h : t.Rooted) (hid : id < t.size) : id ∈ t.preorder root := by
  induction id, hid using h.induction with
  | atRoot => exact mem_preorder.mpr (.inl rfl)
  | child p c hp hc ih => exact mem_preorder_of_mem_children ih hc

/-- The nodes that a queue leads to: the first node of the queue is visited, and its children join
the queue at the end. -/
def visitFrom (t : Arena α) : List Nat → List Nat
  | [] => []
  | id :: queue => id :: t.visitFrom (queue ++ t.children id)
termination_by queue => (queue.flatMap t.preorder).length
decreasing_by
  simp only [List.flatMap_append, List.flatMap_cons, List.length_append, preorder_eq t id,
    List.length_cons]
  omega

/-- All nodes by levels, from the root down. -/
def breadthFirst (t : Arena α) : List Nat := t.visitFrom [root]

/-- The nodes of a queue are visited and everything below them. -/
theorem visitFrom_perm (t : Arena α) (queue : List Nat) :
    (t.visitFrom queue).Perm (queue.flatMap t.preorder) := by
  fun_induction visitFrom t queue with
  | case1 => exact .refl _
  | case2 id queue ih =>
    rw [List.flatMap_cons, preorder_eq, List.cons_append]
    rw [List.flatMap_append] at ih
    exact (ih.trans List.perm_append_comm).cons id

namespace Rooted

/-- A node below another one is that node or has a parent below it. -/
theorem mem_preorder_child_iff (h : t.Rooted) {p : Nat} (hx : x ∈ t.children p) :
    x ∈ t.preorder c ↔ x = c ∨ p ∈ t.preorder c := by
  constructor
  · intro hmem
    induction c using t.inductionOnChildren with
    | node c ih =>
      rcases mem_preorder.mp hmem with rfl | ⟨d, hd, hmem⟩
      · exact .inl rfl
      · rcases ih d hd hmem with rfl | hp
        · obtain rfl := h.parent_unique hx hd
          exact .inr (mem_preorder.mpr (.inl rfl))
        · exact .inr (mem_preorder.mpr (.inr ⟨d, hd, hp⟩))
  · rintro (rfl | hp)
    · exact mem_preorder.mpr (.inl rfl)
    · exact mem_preorder_of_mem_children hp hx

/-- The subtrees of different children have no node in common: its ancestors would be in both. -/
theorem disjoint_preorder (h : t.Rooted) {d : Nat} (hc : c ∈ t.children id)
    (hd : d ∈ t.children id) (hne : c ≠ d) : (t.preorder c).Disjoint (t.preorder d) := by
  intro x hxc hxd
  have hx := lt_size_of_mem_preorder (lt_size_of_mem_children hc) hxc
  have hltc := lt_of_mem_children hc
  have hltd := lt_of_mem_children hd
  induction x, hx using h.induction with
  | atRoot =>
    have := le_of_mem_preorder hxc
    simp only [root] at this
    omega
  | child p x hp hx ih =>
    have habove {e : Nat} (hmem : id ∈ t.preorder e) : e ≤ id := le_of_mem_preorder hmem
    rcases (h.mem_preorder_child_iff hx).mp hxc with rfl | hpc
    · obtain rfl := h.parent_unique hx hc
      have := habove (((h.mem_preorder_child_iff hx).mp hxd).resolve_left hne)
      omega
    · rcases (h.mem_preorder_child_iff hx).mp hxd with rfl | hpd
      · obtain rfl := h.parent_unique hx hd
        have := habove hpc
        omega
      · exact ih hpc hpd

theorem nodup_preorder (h : t.Rooted) (hchildren : ∀ id, (t.children id).Nodup) (id : Nat) :
    (t.preorder id).Nodup := by
  induction id using t.inductionOnChildren with
  | node id ih =>
    rw [preorder_eq, List.nodup_cons, List.nodup_flatMap]
    refine ⟨?_, ih, ?_⟩
    · intro hid
      obtain ⟨c, hc, hid⟩ := List.mem_flatMap.mp hid
      have := lt_of_mem_children hc
      have := le_of_mem_preorder hid
      omega
    · exact (hchildren id).imp_of_mem fun hc hd hne => h.disjoint_preorder hc hd hne

/-- The subtree of the root has every node once. -/
theorem preorder_root_perm (h : t.Rooted) (hchildren : ∀ id, (t.children id).Nodup) :
    (t.preorder root).Perm t.ids := by
  refine (List.perm_ext_iff_of_nodup (h.nodup_preorder hchildren _) List.nodup_range).mpr
    fun id => ?_
  apply Iff.trans _ List.mem_range.symm
  exact ⟨lt_size_of_mem_preorder t.root_lt_size, h.mem_preorder_root⟩

/-- A traversal by levels from the root visits every node once. -/
theorem breadthFirst_perm (h : t.Rooted) (hchildren : ∀ id, (t.children id).Nodup) :
    t.breadthFirst.Perm t.ids := by
  have hvisit : t.breadthFirst.Perm ([root].flatMap t.preorder) := t.visitFrom_perm _
  rw [List.flatMap_singleton] at hvisit
  exact hvisit.trans (h.preorder_root_perm hchildren)

end Rooted

end Arena

end StateIdentification
