import Mathlib.Data.Set.Function
import StateIdentification.Proofs.ArenaCounting
import StateIdentification.Proofs.GrowthRun
import StateIdentification.Proofs.TurnByTurn

/-!
# What the separators of a tree tell

All states of an inner node answer its separator with the same outputs up to the last one, and the
last output tells in which child a state is. So the separator separates two of the states exactly
if they are in different children. If only valid splits are taken, a separator loses no state: no
proper beginning leads two of the states together, and neither does the whole word within a child.

## Main results

- `Machine.getLast?_outputs`: the last of all outputs on a word.
- `SplittingTree.Divides.together_iff_lastOutput_eq`: which states are in one child.
- `SplittingTree.Divides.splits_iff_lastOutput_ne`: which states are in different children.
- `SplittingTree.ofMachine_separators`: what the separators in the tree of a machine tell.
- `SplittingTree.ofMachine_injOn_reached`: valid separators lead no states together.
-/

namespace StateIdentification

variable {M : Machine} {s u : State}

/-- The last of all outputs on a word is the output of the last transition. -/
theorem Machine.getLast?_outputs {w : Word} (h : w ≠ []) :
    (M.outputs s w).getLast? = some (M.lastOutput s w) := by
  rcases List.eq_nil_or_concat w with rfl | ⟨v, i, rfl⟩
  · exact absurd rfl h
  · simp [outputs_append]

/-- No proper beginning of a valid separator leads two of the states together. -/
theorem Machine.Separates.injOn_reached {states : List State} {v w : Word}
    (h : M.Separates true states w) (hv : v <+: w) (hne : v ≠ w) :
    Set.InjOn (M.reached · v) {s | s ∈ states} := by
  obtain ⟨x, hx⟩ := hv
  have hrest : x ≠ [] := by
    rintro rfl
    exact hne (List.append_nil v ▸ hx)
  intro s hs u hu heq
  exact h.early rfl v x hx hrest s hs u hu heq

namespace SplittingTree.Divides

variable {t : SplittingTree} {id c : Nat}

/-- The states of a node with the same last output on the separator are in one child. -/
theorem together_iff_lastOutput_eq (h : t.Divides M) (hl : ¬ t.isLeaf id) (hs : s ∈ t.states id)
    (hu : u ∈ t.states id) :
    (∃ c ∈ t.children id, s ∈ t.states c ∧ u ∈ t.states c) ↔
      M.lastOutput s (t.separator id) = M.lastOutput u (t.separator id) := by
  constructor
  · rintro ⟨c, hc, hsc, huc⟩
    exact (h.lastOutput_eq_iff hc hc hsc huc).mpr rfl
  · intro heq
    obtain ⟨c, hc, hsc⟩ := h.exists_child hl hs
    obtain ⟨d, hd, hud⟩ := h.exists_child hl hu
    obtain rfl := (h.lastOutput_eq_iff hc hd hsc hud).mp heq
    exact ⟨c, hc, hsc, hud⟩

/-- The states of a node with different last outputs on the separator are in different children. -/
theorem splits_iff_lastOutput_ne (h : t.Divides M) (hl : ¬ t.isLeaf id) (hs : s ∈ t.states id)
    (hu : u ∈ t.states id) :
    t.Splits id s u ↔
      M.lastOutput s (t.separator id) ≠ M.lastOutput u (t.separator id) := by
  constructor
  · exact h.lastOutput_ne_of_splits
  · intro hlast
    obtain ⟨c, hc, hsc⟩ := h.exists_child hl hs
    obtain ⟨d, hd, hud⟩ := h.exists_child hl hu
    have hne : c ≠ d := fun heq => hlast ((h.lastOutput_eq_iff hc hd hsc hud).mpr heq)
    exact ⟨c, hc, d, hd, hne, hsc, hud⟩

/-- A valid separator leads no two states of one child together. -/
theorem injOn_reached_child (h : t.Divides M)
    (hsep : M.Separates true (t.states id) (t.separator id)) (hc : c ∈ t.children id) :
    Set.InjOn (M.reached · (t.separator id)) {s | s ∈ t.states c} := by
  intro s hs u hu heq
  have hlast : M.lastOutput s (t.separator id) = M.lastOutput u (t.separator id) :=
    (h.lastOutput_eq_iff hc hc hs hu).mpr rfl
  exact hsep.late rfl s (h.mem_of_mem_child hc hs) u (h.mem_of_mem_child hc hu) hlast heq

end SplittingTree.Divides

/-- The states of an inner node answer its separator alike at all positions but the last one. They
are in the same child if the last outputs are equal, and in different children if the separator
separates them. -/
theorem SplittingTree.ofMachine_separators [RandomSource] (M : Machine) (options : SplittingOptions)
    (seed : UInt64) :
    ∃ r, ofMachine M options seed = .ok r ∧ ∀ id, ¬ r.tree.isLeaf id →
      let w := r.tree.separator id
      w ≠ [] ∧ ∀ s ∈ r.tree.states id, ∀ u ∈ r.tree.states id,
        (∀ k, k + 1 < w.length → (M.outputs s w)[k]? = (M.outputs u w)[k]?) ∧
        ((M.outputs s w).getLast? = (M.outputs u w).getLast? ↔
          ∃ c ∈ r.tree.children id, s ∈ r.tree.states c ∧ u ∈ r.tree.states c) ∧
        (M.separates s u w ↔ ∃ c ∈ r.tree.children id, ∃ d ∈ r.tree.children id,
          c ≠ d ∧ s ∈ r.tree.states c ∧ u ∈ r.tree.states d) := by
  obtain ⟨r, hr, hof⟩ := ofMachine_final M options seed
  refine ⟨r, hof options.checkFineness, fun id hl => ?_⟩
  intro w
  have hword : M.Separates options.checkValidity (r.tree.states id) w := hr.separates hl
  refine ⟨hword.ne_nil, fun s hs u hu => ?_⟩
  have hagree : (M.outputs s w).dropLast = (M.outputs u w).dropLast := hword.agree s hs u hu
  refine ⟨fun k hk => ?_, ?_, ?_⟩
  · have hpositions := congrArg (·[k]?) hagree
    simp only [List.getElem?_dropLast, Machine.length_outputs] at hpositions
    rwa [if_pos (by omega), if_pos (by omega)] at hpositions
  · rw [hr.divides.together_iff_lastOutput_eq hl hs hu, Machine.getLast?_outputs hword.ne_nil,
      Machine.getLast?_outputs hword.ne_nil, Option.some.injEq]
  · refine Iff.trans ?_ (hr.divides.splits_iff_lastOutput_ne hl hs hu).symm
    rw [Machine.separates, bne_iff_ne, ne_eq, Machine.outputs_eq_iff hword.ne_nil,
      and_iff_right hagree]

/-- The outputs of the states of every inner node on its separator. -/
example : ∃ r, SplittingTree.ofMachine laggard .hopcroft 0 = .ok r ∧
    r.tree.inner.map (fun id => (r.tree.states id).map fun s =>
      (laggard.outputs s (r.tree.separator id)).map (·.index)) =
        [[[0], [0], [0], [1], [1]], [[0, 0], [0, 0], [0, 1]], [[1, 0, 0, 0], [1, 0, 0, 1]],
          [[0, 0, 0], [0, 0, 1]]] :=
  SplittingTree.exists_of_runFor 12 (by decide +kernel)

/-- If only valid splits are taken, the separator of an inner node never merges states: its proper
beginnings lead all states of the node to different states, and the whole separator does so with the
states of every child. -/
theorem SplittingTree.ofMachine_injOn_reached [RandomSource] (M : Machine)
    (options : SplittingOptions) (seed : UInt64) :
    ∃ r, ofMachine M { options with checkValidity := true } seed = .ok r ∧
      ∀ id, ¬ r.tree.isLeaf id →
        let w := r.tree.separator id
        (∀ v, v <+: w → v ≠ w → Set.InjOn (M.reached · v) {s | s ∈ r.tree.states id}) ∧
        ∀ c ∈ r.tree.children id, Set.InjOn (M.reached · w) {s | s ∈ r.tree.states c} := by
  obtain ⟨r, hr, hof⟩ := ofMachine_final M { options with checkValidity := true } seed
  refine ⟨r, hof options.checkFineness, fun id hl => ?_⟩
  have hword : M.Separates true (r.tree.states id) (r.tree.separator id) := hr.separates hl
  constructor
  · intro v hv hne
    exact hword.injOn_reached hv hne
  · intro c hc
    exact hr.divides.injOn_reached_child hword hc

/-- The states that the separator of every inner node leads to. It leads two states of the root
together, but they are in different children. -/
example : ∃ r, SplittingTree.ofMachine laggard .leeYannakakis 0 = .ok r ∧
    r.tree.inner.map (fun id => (r.tree.states id).map fun s =>
      (laggard.reached s (r.tree.separator id)).index) =
        [[1, 2, 3, 0, 1], [2, 3, 0], [3, 0], [3, 0]] :=
  SplittingTree.exists_of_runFor 12 (by decide +kernel)

end StateIdentification
