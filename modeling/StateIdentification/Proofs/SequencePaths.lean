import StateIdentification.Proofs.SequenceShape

/-!
# Paths through an adaptive sequence

From every initial state the experiment passes a path down to one leaf. Two states whose paths part
give different answers to the words that were applied until then, and these words begin the words of
both paths.

## Main results

- `AdaptiveSequence.Describes.together_or_told`: two states end in the same leaf, or their words
  have a common beginning that tells them apart.
-/

namespace StateIdentification.AdaptiveSequence

variable {M : Machine} {a : AdaptiveSequence} {id c : Nat} {y z : Candidate} {s u : State}

/-- From a node on, the experiment passes the nodes that have the initial state. -/
def trailFrom? (a : AdaptiveSequence) (s : State) (id : Nat) : Option (List Nat) :=
  Arena.trail? a (fun stage => s ∈ stage.candidates.map (·.initial)) id

namespace Describes

/-- An initial state is in the child that has its candidate behind the word. -/
theorem after_mem_of_initial (h : a.Describes M) (hc : c ∈ a.children id)
    (hy : y ∈ a.candidates id) (hinitial : y.initial ∈ a.initials c) :
    y.after M (a.word id) ∈ a.candidates c := by
  obtain ⟨x, hx, heq⟩ := List.mem_map.mp hinitial
  obtain ⟨z, hz, rfl⟩ := h.moved hc hx
  have hid := Arena.lt_size_of_not_isLeaf (Arena.not_isLeaf_of_mem hc)
  exact h.eq_of_initial_eq hid hz hy heq ▸ hx

/-- In an inner node, the experiment goes on in the child that has the candidate behind the word. -/
theorem trailFrom?_of_inner (h : a.Describes M) (hl : ¬ a.isLeaf id) (hy : y ∈ a.candidates id) :
    ∃ c ∈ a.children id, y.after M (a.word id) ∈ a.candidates c ∧
      a.trailFrom? y.initial id = (a.trailFrom? y.initial c).map (id :: ·) := by
  obtain ⟨c, hc, hyc⟩ := h.kept hl hy
  have hholds : y.initial ∈ (a.label c).candidates.map (·.initial) :=
    List.mem_map.mpr ⟨_, hyc, rfl⟩
  obtain ⟨d, hd, hdholds, heq⟩ := Arena.trail?_of_child
    (fun stage => y.initial ∈ stage.candidates.map (·.initial))
    ⟨c, hc, decide_eq_true hholds⟩
  exact ⟨d, hd, h.after_mem_of_initial hd hy (of_decide_eq_true hdholds), heq⟩

/-- From a node on, two candidates end in the same leaf, or words that are applied to both of them
tell them apart. -/
theorem together_or_told_from (h : a.Describes M) (hid : id < a.size) (hy : y ∈ a.candidates id)
    (hz : z ∈ a.candidates id) :
    ∃ l m, a.trailFrom? y.initial id = some l ∧ a.trailFrom? z.initial id = some m ∧
      ((∃ leaf ∈ a.leaves, l.getLast? = some leaf ∧ m.getLast? = some leaf ∧
          y.initial ∈ a.initials leaf ∧ z.initial ∈ a.initials leaf) ∨
        ∃ v, v <+: l.flatMap a.word ∧ v <+: m.flatMap a.word ∧
          M.outputs y.current v ≠ M.outputs z.current v) := by
  induction id using a.inductionOnChildren generalizing y z with
  | node id ih =>
    by_cases hl : a.isLeaf id
    · exact ⟨[id], [id], Arena.trail?_of_isLeaf hl, Arena.trail?_of_isLeaf hl, .inl ⟨id,
        Arena.mem_leaves.mpr ⟨hid, hl⟩, rfl, rfl, List.mem_map_of_mem hy, List.mem_map_of_mem hz⟩⟩
    · obtain ⟨c, hc, hyc, hytrail⟩ := h.trailFrom?_of_inner hl hy
      obtain ⟨d, hd, hzd, hztrail⟩ := h.trailFrom?_of_inner hl hz
      have htold := h.told hc hd hy hz hyc hzd
      by_cases hcd : c = d
      · subst hcd
        obtain ⟨l, m, (hlc : a.trailFrom? y.initial c = some l),
          (hmc : a.trailFrom? z.initial c = some m), hcase⟩ :=
          ih c hc (Arena.lt_size_of_mem_children hc) hyc hzd
        refine ⟨id :: l, id :: m, by rw [hytrail, hlc]; rfl, by rw [hztrail, hmc]; rfl, ?_⟩
        rcases hcase with ⟨leaf, hleaf, hlast, hlast', hin⟩ | ⟨v, hvl, hvm, hne⟩
        · refine .inl ⟨leaf, hleaf, ?_, ?_, hin⟩
          · rw [List.getLast?_cons, hlast, Option.getD_some]
          · rw [List.getLast?_cons, hlast', Option.getD_some]
        · refine .inr ⟨a.word id ++ v, ?_, ?_, ?_⟩
          · rw [List.flatMap_cons]
            exact (List.prefix_append_right_inj _).mpr hvl
          · rw [List.flatMap_cons]
            exact (List.prefix_append_right_inj _).mpr hvm
          · exact fun heq => hne (M.outputs_append_eq_iff.mp heq).2
      · obtain ⟨l, -, hlc, -⟩ := ih c hc (Arena.lt_size_of_mem_children hc) hyc hyc
        obtain ⟨m, -, hmd, -⟩ := ih d hd (Arena.lt_size_of_mem_children hd) hzd hzd
        have hlc : a.trailFrom? y.initial c = some l := hlc
        have hmd : a.trailFrom? z.initial d = some m := hmd
        refine ⟨id :: l, id :: m, by rw [hytrail, hlc]; rfl, by rw [hztrail, hmd]; rfl,
          .inr ⟨a.word id, ?_, ?_, fun heq => hcd (htold.mp heq)⟩⟩
        · exact List.prefix_append _ _
        · exact List.prefix_append _ _

/-- Two states end in the same leaf, or the words that are applied from them have a common beginning
that tells them apart. -/
theorem together_or_told (h : a.Describes M) (hs : s ∈ M.states) (hu : u ∈ M.states) :
    (∃ leaf ∈ a.leaves, a.leafOf? s = some leaf ∧ a.leafOf? u = some leaf ∧
        s ∈ a.initials leaf ∧ u ∈ a.initials leaf) ∨
      ∃ p q v, a.pathWord? s = some p ∧ a.pathWord? u = some q ∧ v <+: p ∧ v <+: q ∧
        M.outputs s v ≠ M.outputs u v := by
  have hroot {s : State} (hs : s ∈ M.states) : ⟨s, s⟩ ∈ a.candidates Arena.root := by
    rw [h.candidates_root]
    exact List.mem_map_of_mem hs
  have htrail {s : State} (hs : s ∈ M.states) : a.trail? s = a.trailFrom? s Arena.root := by
    have hin : s ∈ (a.label Arena.root).candidates.map (·.initial) :=
      List.mem_map.mpr ⟨_, hroot hs, rfl⟩
    rw [trail?, Arena.trailFromRoot?, if_pos (decide_eq_true hin), trailFrom?]
  obtain ⟨l, m, hl, hm, hcase⟩ := h.together_or_told_from a.root_lt_size (hroot hs) (hroot hu)
  rw [← htrail hs] at hl
  rw [← htrail hu] at hm
  rcases hcase with ⟨leaf, hleaf, hlast, hlast', hin⟩ | ⟨v, hvl, hvm, hne⟩
  · exact .inl ⟨leaf, hleaf, by rw [leafOf?, hl]; exact hlast, by rw [leafOf?, hm]; exact hlast',
      hin⟩
  · exact .inr ⟨_, _, v, by rw [pathWord?, hl]; rfl, by rw [pathWord?, hm]; rfl, hvl, hvm, hne⟩

/-- Every state ends in a leaf that has it as an initial state. -/
theorem exists_leafOf (h : a.Describes M) (hs : s ∈ M.states) :
    ∃ leaf ∈ a.leaves, a.leafOf? s = some leaf ∧ s ∈ a.initials leaf := by
  rcases h.together_or_told hs hs with ⟨leaf, hleaf, hof, -, hin, -⟩ | ⟨_, _, v, -, -, -, -, hne⟩
  · exact ⟨leaf, hleaf, hof, hin⟩
  · exact absurd rfl hne

end Describes

end StateIdentification.AdaptiveSequence
