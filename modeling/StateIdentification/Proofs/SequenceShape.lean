import Mathlib.Data.List.Nodup
import Mathlib.Data.List.Pairwise
import StateIdentification.AdaptiveSequence.Basic
import StateIdentification.Counting
import StateIdentification.Machine.Run
import StateIdentification.Proofs.ArenaShape

/-!
# The shape of an adaptive sequence

In every inner node of an adaptive sequence a word is applied to a machine, and the candidates are
divided among the children by their answers. As no two candidates of a node are in the same state,
none is ever lost, and every node has each initial state at most once.

## Main definitions

- `Candidate.after`: a candidate behind a word.
- `AdaptiveSequence.Outcomes`: a word divides candidates by their answers.
- `AdaptiveSequence.Describes`: the sequence describes an experiment on a machine.

## Main results

- `AdaptiveSequence.Describes.told`: children are told apart by the answers.
- `AdaptiveSequence.Describes.ascending`: the order of the candidates of a node.
- `AdaptiveSequence.Describes.initial_nodup`: every node has an initial state at most once.
- `AdaptiveSequence.Describes.extend`: a leaf may be extended by the outcomes of a word.
-/

namespace StateIdentification

/-- A candidate after the machine has read a word. -/
def Candidate.after (M : Machine) (w : Word) (y : Candidate) : Candidate :=
  ⟨M.reached y.current w, y.initial⟩

namespace AdaptiveSequence

variable {M : Machine} {a : AdaptiveSequence} {id c d : Nat} {w : Word} {x y z : Candidate}
  {cs : List Candidate} {parts : List (List Candidate)}

/-- The parts are the outcomes of applying a word to the candidates: one part for every answer, with
the candidates that answer in this way, in strictly ascending order of their states. -/
structure Outcomes (M : Machine) (cs : List Candidate) (w : Word) (parts : List (List Candidate)) :
    Prop where
  occupied : ∀ part ∈ parts, part ≠ []
  ascending : ∀ part ∈ parts, part.Pairwise (·.current < ·.current)
  moved : ∀ part ∈ parts, ∀ x ∈ part, ∃ y ∈ cs, y.after M w = x
  kept : ∀ y ∈ cs, ∃ part ∈ parts, y.after M w ∈ part
  same : ∀ part ∈ parts, ∀ y ∈ cs, ∀ z ∈ cs, y.after M w ∈ part → z.after M w ∈ part →
    M.outputs y.current w = M.outputs z.current w
  told : parts.Pairwise fun left right => ∀ y ∈ cs, ∀ z ∈ cs, y.after M w ∈ left →
    z.after M w ∈ right → M.outputs y.current w ≠ M.outputs z.current w

/-- At first all states are candidates, and every inner node has a child for every outcome of its
word. -/
structure Describes (a : AdaptiveSequence) (M : Machine) : Prop where
  candidates_root : a.candidates Arena.root = M.states.map fun s => ⟨s, s⟩
  rooted : a.Rooted
  known : ∀ {id : Nat}, ∀ i ∈ a.word id, i ∈ M.inputs
  word_leaf : ∀ {id : Nat}, a.isLeaf id → a.word id = []
  outcomes : ∀ {id : Nat}, ¬ a.isLeaf id →
    Outcomes M (a.candidates id) (a.word id) ((a.children id).map a.candidates)

theorem nodup_current_of_ascending (h : cs.Pairwise (·.current < ·.current)) :
    (cs.map (·.current)).Nodup :=
  List.pairwise_map.mpr (h.imp fun hlt heq => Nat.ne_of_lt hlt (congrArg Handle.index heq))

namespace Outcomes

/-- No candidate is lost, and none is in two outcomes. -/
theorem perm (h : Outcomes M cs w parts) (hn : (cs.map (·.initial)).Nodup) :
    parts.flatten.Perm (cs.map (·.after M w)) := by
  have left : parts.flatten.Nodup := by
    refine List.nodup_flatten.mpr ⟨fun part hp => ?_, ?_⟩
    · exact (nodup_current_of_ascending (h.ascending part hp)).of_map
    · refine h.told.imp_of_mem fun {left right} hl hr htold x hxl hxr => ?_
      obtain ⟨y, hy, rfl⟩ := h.moved left hl x hxl
      exact htold y hy y hy hxl hxr rfl
  have right : (cs.map (·.after M w)).Nodup := by
    refine List.Nodup.of_map (·.initial) ?_
    rwa [List.map_map]
  refine (List.perm_ext_iff_of_nodup left right).mpr fun x => ?_
  rw [List.mem_flatten, List.mem_map]
  constructor
  · rintro ⟨part, hp, hx⟩
    exact h.moved part hp x hx
  · rintro ⟨y, hy, rfl⟩
    exact h.kept y hy

theorem initial_nodup (h : Outcomes M cs w parts) (hn : (cs.map (·.initial)).Nodup)
    {part : List Candidate} (hp : part ∈ parts) : (part.map (·.initial)).Nodup := by
  have hall : (parts.flatten.map (·.initial)).Nodup := by
    rw [((h.perm hn).map (·.initial)).nodup_iff, List.map_map]
    exact hn
  exact ((List.sublist_flatten_of_mem hp).map _).nodup hall

/-- The outcomes have as many candidates as there were before. -/
theorem total_length (h : Outcomes M cs w parts) (hn : (cs.map (·.initial)).Nodup) :
    total List.length parts = cs.length := by
  rw [StateIdentification.total_length, (h.perm hn).length_eq, List.length_map]

end Outcomes

namespace Describes

theorem outcomes_of_mem (h : a.Describes M) (hc : c ∈ a.children id) :
    Outcomes M (a.candidates id) (a.word id) ((a.children id).map a.candidates) :=
  h.outcomes (Arena.not_isLeaf_of_mem hc)

theorem moved (h : a.Describes M) (hc : c ∈ a.children id) (hx : x ∈ a.candidates c) :
    ∃ y ∈ a.candidates id, y.after M (a.word id) = x :=
  (h.outcomes_of_mem hc).moved _ (List.mem_map_of_mem hc) x hx

theorem kept (h : a.Describes M) (hl : ¬ a.isLeaf id) (hy : y ∈ a.candidates id) :
    ∃ c ∈ a.children id, y.after M (a.word id) ∈ a.candidates c := by
  obtain ⟨part, hp, hm⟩ := (h.outcomes hl).kept y hy
  obtain ⟨c, hc, rfl⟩ := List.mem_map.mp hp
  exact ⟨c, hc, hm⟩

/-- Two candidates of a node are in the same child behind its word if and only if they give the same
answer. -/
theorem told (h : a.Describes M) (hc : c ∈ a.children id) (hd : d ∈ a.children id)
    (hy : y ∈ a.candidates id) (hz : z ∈ a.candidates id)
    (hyc : y.after M (a.word id) ∈ a.candidates c) (hzd : z.after M (a.word id) ∈ a.candidates d) :
    M.outputs y.current (a.word id) = M.outputs z.current (a.word id) ↔ c = d := by
  have ho := h.outcomes_of_mem hc
  constructor
  · intro heq
    let Told (c d : Nat) : Prop := ∀ y ∈ a.candidates id, ∀ z ∈ a.candidates id,
      y.after M (a.word id) ∈ a.candidates c → z.after M (a.word id) ∈ a.candidates d →
        M.outputs y.current (a.word id) ≠ M.outputs z.current (a.word id)
    have : Std.Symm Told := ⟨fun _ _ ht y hy z hz hyc hzd => (ht z hz y hy hzd hyc).symm⟩
    have hpairs : (a.children id).Pairwise Told := List.pairwise_map.mp ho.told
    by_contra hne
    exact hpairs.forall hc hd hne y hy z hz hyc hzd heq
  · rintro rfl
    exact ho.same _ (List.mem_map_of_mem hc) y hy z hz hyc hzd

/-- Every node has an initial state at most once. -/
theorem initial_nodup (h : a.Describes M) (hid : id < a.size) :
    ((a.candidates id).map (·.initial)).Nodup := by
  induction id, hid using h.rooted.induction with
  | atRoot =>
    rw [h.candidates_root]
    simpa [Function.comp_def] using Machine.nodup_states
  | child p c hp hc ih => exact (h.outcomes_of_mem hc).initial_nodup ih (List.mem_map_of_mem hc)

theorem eq_of_initial_eq (h : a.Describes M) (hid : id < a.size) (hy : y ∈ a.candidates id)
    (hz : z ∈ a.candidates id) (heq : y.initial = z.initial) : y = z :=
  List.inj_on_of_nodup_map (h.initial_nodup hid) hy hz heq

/-- In every node the candidates are in strictly ascending order of their states. -/
theorem ascending (h : a.Describes M) (hid : id < a.size) :
    (a.candidates id).Pairwise (·.current < ·.current) := by
  induction id, hid using h.rooted.induction with
  | atRoot =>
    rw [h.candidates_root]
    exact List.pairwise_map.mpr (Handle.pairwise_range M.stateCount)
  | child p c hp hc ih => exact (h.outcomes_of_mem hc).ascending _ (List.mem_map_of_mem hc)

/-- In no node two candidates are in the same state. -/
theorem current_nodup (h : a.Describes M) (hid : id < a.size) :
    ((a.candidates id).map (·.current)).Nodup :=
  nodup_current_of_ascending (h.ascending hid)

theorem eq_of_current_eq (h : a.Describes M) (hid : id < a.size) (hy : y ∈ a.candidates id)
    (hz : z ∈ a.candidates id) (heq : y.current = z.current) : y = z :=
  List.inj_on_of_nodup_map (h.current_nodup hid) hy hz heq

/-- All states of candidates are states of the machine. -/
theorem mem_states (h : a.Describes M) (hid : id < a.size) (hy : y ∈ a.candidates id) :
    y.current ∈ M.states ∧ y.initial ∈ M.states := by
  induction id, hid using h.rooted.induction generalizing y with
  | atRoot =>
    rw [h.candidates_root] at hy
    obtain ⟨s, hs, rfl⟩ := List.mem_map.mp hy
    exact ⟨hs, hs⟩
  | child p c hp hc ih =>
    obtain ⟨z, hz, rfl⟩ := h.moved hc hy
    exact ⟨Machine.reached_mem (ih hz).1 _, (ih hz).2⟩

/-- Every node has a candidate. -/
theorem candidates_ne_nil (h : a.Describes M) (hid : id < a.size) : a.candidates id ≠ [] := by
  induction id, hid using h.rooted.induction with
  | atRoot =>
    rw [h.candidates_root]
    exact List.ne_nil_of_mem (List.mem_map_of_mem (Machine.mem_states.mpr M.stateCount_pos :
      ⟨0⟩ ∈ M.states))
  | child p c hp hc ih => exact (h.outcomes_of_mem hc).occupied _ (List.mem_map_of_mem hc)

end Describes

@[simp]
theorem word_idle (size id : Nat) : (idle size).word id = [] := by
  cases id with
  | zero => rfl
  | succ id => simp [word, idle, Arena.label, Arena.single, default]

/-- The experiment that applies nothing. -/
theorem describes_idle (M : Machine) : (idle M.stateCount).Describes M where
  candidates_root := rfl
  rooted _ hpos hid := absurd hid (Nat.not_lt.mpr hpos)
  known := by simp
  word_leaf _ := word_idle _ _
  outcomes hl := absurd (Arena.isLeaf_iff.mpr (Arena.children_single _ _)) hl

/-- Gives a leaf a word and children with the given candidates. -/
def extend (a : AdaptiveSequence) (id : Nat) (w : Word) (parts : List (List Candidate)) :
    AdaptiveSequence :=
  a.grow id ({ · with word := w }) (parts.map (⟨·, []⟩))

@[simp]
theorem size_extend (a : AdaptiveSequence) (id : Nat) (w : Word) (parts : List (List Candidate)) :
    (a.extend id w parts).size = a.size + parts.length := by
  simp [extend]

theorem children_extend (hid : id ∈ a.leaves) (w : Word) (parts : List (List Candidate)) (c : Nat) :
    (a.extend id w parts).children c =
      if c = id then List.range' a.size parts.length else a.children c := by
  rw [extend, Arena.children_grow_leaf hid, List.length_map]

theorem candidates_extend_of_lt (hc : c < a.size) (id : Nat) (w : Word)
    (parts : List (List Candidate)) : (a.extend id w parts).candidates c = a.candidates c :=
  Arena.part_label_grow_of_lt Stage.candidates rfl hc _

theorem map_candidates_extend (a : AdaptiveSequence) (id : Nat) (w : Word)
    (parts : List (List Candidate)) :
    (List.range' a.size parts.length).map (a.extend id w parts).candidates = parts := by
  have := a.map_part_label_grow Stage.candidates id ({ · with word := w }) (parts.map (⟨·, []⟩))
  rw [List.length_map] at this
  exact this.trans (by simp [Function.comp_def])

/-- Only the leaf that is extended has a new word. -/
theorem word_extend (hid : id < a.size) (w : Word) (parts : List (List Candidate)) (c : Nat) :
    (a.extend id w parts).word c = if c = id then w else a.word c :=
  Arena.part_label_grow Stage.word (by simp [default]) hid _ c

theorem isLeaf_extend (hid : id ∈ a.leaves) (hne : parts ≠ []) :
    (a.extend id w parts).isLeaf c ↔ c ≠ id ∧ a.isLeaf c :=
  Arena.isLeaf_grow hid (by simpa using hne)

/-- If only inner nodes apply words, this is also the case after an extension. -/
theorem word_leaf_extend (hid : id ∈ a.leaves) (hne : parts ≠ [])
    (h : ∀ {c : Nat}, a.isLeaf c → a.word c = []) (hl : (a.extend id w parts).isLeaf c) :
    (a.extend id w parts).word c = [] := by
  obtain ⟨hother, hl⟩ := (isLeaf_extend hid hne).mp hl
  rw [word_extend (Arena.mem_leaves.mp hid).1, if_neg hother, h hl]

/-- The inner nodes after an extension are the leaf that was extended and the old inner nodes, which
keep their candidates, their words and their children. -/
theorem forall_inner_extend {P : List Candidate → Word → List (List Candidate) → Prop}
    (hid : id ∈ a.leaves) (hne : parts ≠ []) (hnew : P (a.candidates id) w parts)
    (hold : ∀ {c : Nat}, ¬ a.isLeaf c →
      P (a.candidates c) (a.word c) ((a.children c).map a.candidates))
    (hl : ¬ (a.extend id w parts).isLeaf c) :
    P ((a.extend id w parts).candidates c) ((a.extend id w parts).word c)
      (((a.extend id w parts).children c).map (a.extend id w parts).candidates) := by
  obtain ⟨hlt, -⟩ := Arena.mem_leaves.mp hid
  rw [isLeaf_extend hid hne] at hl
  by_cases heq : c = id
  · subst heq
    rw [children_extend hid, if_pos rfl, map_candidates_extend, word_extend hlt, if_pos rfl,
      candidates_extend_of_lt hlt]
    exact hnew
  · have hinner : ¬ a.isLeaf c := fun hleaf => hl ⟨heq, hleaf⟩
    have hsame : ((a.extend id w parts).children c).map (a.extend id w parts).candidates =
        (a.children c).map a.candidates :=
      Arena.map_part_children_grow Stage.candidates hid rfl _ heq
    rw [hsame, word_extend hlt, if_neg heq,
      candidates_extend_of_lt (Arena.lt_size_of_not_isLeaf hinner)]
    exact hold hinner

/-- A leaf may be extended by the outcomes of a word. -/
theorem Describes.extend (h : a.Describes M) (hid : id ∈ a.leaves) (hw : ∀ i ∈ w, i ∈ M.inputs)
    (ho : Outcomes M (a.candidates id) w parts) (hne : parts ≠ []) :
    (a.extend id w parts).Describes M where
  candidates_root := by rw [candidates_extend_of_lt a.root_lt_size, h.candidates_root]
  rooted := h.rooted.grow hid _ _
  known {c} i hi := by
    rw [word_extend (Arena.mem_leaves.mp hid).1] at hi
    split at hi
    · exact hw i hi
    · exact h.known i hi
  word_leaf := word_leaf_extend hid hne h.word_leaf
  outcomes := forall_inner_extend hid hne ho h.outcomes

end AdaptiveSequence

end StateIdentification
