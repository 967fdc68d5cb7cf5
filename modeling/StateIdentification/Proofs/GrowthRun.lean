import StateIdentification.Proofs.GrowthInvariant

/-!
# Every machine has a finished tree

A turn of the work on a consistent growing tree drops a leaf, splits it, puts it back, or finds that
nothing is left to do. In the first three cases the tree stays consistent, and in the last one it is
finished: as long as leaves are only put back, the ones that were tried stay at the end of the
queue, so all of them are known to be stuck once there is no other.

## Main results

- `Growth.Consistent.turn`: a turn succeeds.
- `Growth.Consistent.run`: the work ends with a finished tree.
- `SplittingTree.ofMachine_final`: every machine has a finished tree.
-/

namespace StateIdentification

variable [RandomSource] {M : Machine} {options : SplittingOptions}

namespace Growth

variable {g : Growth} {leaf : Pending} {rest : List Pending}

theorem run_of_done {complete : Bool} (h : turn M options g = .ok (.done complete)) :
    run M options g = .ok ⟨g.tree, g.successors, complete⟩ := by
  rw [run]
  split <;> simp_all

theorem run_of_goOn {g' : Growth} (h : turn M options g = .ok (.goOn g')) :
    run M options g = run M options g' := by
  rw [run]
  split <;> simp_all

namespace Consistent

theorem tried_of_cons (h : g.Consistent M options) (hq : g.queue = leaf :: rest) :
    TriedLast M options g.tree g.stalled rest ∨
      rest.length < g.stalled ∧ ∀ other ∈ leaf :: rest, other.InVain M options g.tree :=
  TriedLast.of_cons (hq ▸ h.tried)

/-- A leaf with one state can be dropped. -/
theorem drop (h : g.Consistent M options) (hq : g.queue = leaf :: rest)
    (hlen : (g.tree.states leaf.node).length ≤ 1) :
    Consistent M options { g with queue := rest } := by
  have old {other : Pending} (hm : other ∈ rest) : other ∈ g.queue :=
    hq ▸ List.mem_cons_of_mem _ hm
  obtain ⟨contents, hp, hc⟩ := h.holds
  refine ⟨h.divides, h.separates, h.grown, ⟨contents, hp, fun other hm => hc other (old hm)⟩,
    fun other hm => h.queued other (old hm), (List.pairwise_cons.mp (hq ▸ h.apart)).2, ?_,
    h.stateCount, h.recorded, h.tight, h.order, ?_⟩
  · intro id hid hlarge
    obtain ⟨other, hm, rfl⟩ := h.waiting id hid hlarge
    rcases List.mem_cons.mp (hq ▸ hm) with rfl | hm
    · exact absurd hlen (Nat.not_le.mpr hlarge)
    · exact ⟨other, hm, rfl⟩
  · rcases h.tried_of_cons hq with htried | ⟨-, hall⟩
    · exact htried
    · exact absurd (hall leaf List.mem_cons_self).1 (by omega)

/-- A leaf that is stuck can be put back, as long as there are leaves that were not tried. -/
theorem putBack (h : g.Consistent M options) (hq : g.queue = leaf :: rest)
    (hv : leaf.InVain M options g.tree)
    (hlt : g.stalled < rest.length) {order : InputOrder} (ho : order.inputs.Perm M.inputs) :
    Consistent M options { g with queue := rest ++ [leaf], order, stalled := g.stalled + 1 } := by
  have same {other : Pending} : other ∈ rest ++ [leaf] ↔ other ∈ g.queue := by
    rw [hq, List.mem_append, List.mem_singleton, List.mem_cons, or_comm]
  obtain ⟨hfirst, hpairs⟩ := List.pairwise_cons.mp (hq ▸ h.apart)
  obtain ⟨contents, hp, hc⟩ := h.holds
  refine ⟨h.divides, h.separates, h.grown, ⟨contents, hp, fun other hm => hc other (same.mp hm)⟩,
    fun other hm => h.queued other (same.mp hm), ?_, ?_, h.stateCount, h.recorded, h.tight, ho, ?_⟩
  · refine List.pairwise_append.mpr ⟨hpairs, List.pairwise_singleton _ _, fun a ha b hb => ?_⟩
    rw [List.mem_singleton.mp hb]
    exact ⟨(hfirst a ha).1.symm, (hfirst a ha).2.symm⟩
  · intro id hid hlarge
    obtain ⟨other, hm, heq⟩ := h.waiting id hid hlarge
    exact ⟨other, same.mpr hm, heq⟩
  · rcases h.tried_of_cons hq with htried | ⟨hlt', -⟩
    · exact htried.concat hv
    · omega

/-- The tree is finished and complete if no leaf waits. -/
theorem final_of_nil (h : g.Consistent M options) (hq : g.queue = []) :
    SplittingResult.Final M options ⟨g.tree, g.successors, true⟩ := by
  have small : ∀ id ∈ g.tree.leaves, ¬ 2 ≤ (g.tree.states id).length := by
    intro id hid hlen
    obtain ⟨other, hm, -⟩ := h.waiting id hid hlen
    rw [hq] at hm
    exact List.not_mem_nil hm
  exact ⟨h.divides, h.separates, h.grown, h.recorded, h.tight,
    fun id hid hlen => absurd hlen (small id hid),
    by simpa using fun id hid => Nat.le_of_lt_succ (Nat.not_le.mp (small id hid))⟩

/-- The tree is finished if its first leaf is stuck and all others were tried in vain. -/
theorem final_of_stalled (h : g.Consistent M options) (hq : g.queue = leaf :: rest)
    (hv : leaf.InVain M options g.tree) (hle : rest.length ≤ g.stalled) :
    SplittingResult.Final M options ⟨g.tree, g.successors, false⟩ := by
  have others : ∀ other ∈ rest, other.InVain M options g.tree := by
    rcases h.tried_of_cons hq with htried | ⟨-, hall⟩
    · exact htried.all hle
    · exact fun other hm => hall other (List.mem_cons_of_mem _ hm)
  refine ⟨h.divides, h.separates, h.grown, h.recorded, h.tight, fun id hid hlarge => ?_, ?_⟩
  · obtain ⟨other, hm, rfl⟩ := h.waiting id hid hlarge
    rcases List.mem_cons.mp (hq ▸ hm) with rfl | hm
    · exact hv.2
    · exact (others other hm).2
  · have hnode := h.queued leaf (hq ▸ List.mem_cons_self)
    simp only [Bool.false_eq_true, false_iff]
    intro hall
    exact absurd (hall leaf.node hnode) (Nat.not_le.mpr hv.1)

/-- Every turn succeeds: the work goes on with a consistent tree, or it leaves a finished one. -/
theorem turn (h : g.Consistent M options) :
    (∃ g', turn M options g = .ok (.goOn g') ∧ g'.Consistent M options) ∨
      ∃ complete, turn M options g = .ok (.done complete) ∧
        SplittingResult.Final M options ⟨g.tree, g.successors, complete⟩ := by
  unfold Growth.turn plan
  cases hq : g.queue with
  | nil => exact .inr ⟨true, rfl, h.final_of_nil hq⟩
  | cons leaf rest =>
    have hl : leaf ∈ g.queue := hq ▸ List.mem_cons_self
    by_cases hlen : (g.tree.states leaf.node).length ≤ 1
    · exact .inl ⟨_, by simp only [if_pos hlen], h.drop hq hlen⟩
    · obtain ⟨hs, hn⟩ := h.states_of_queued hl
      have hne : g.tree.states leaf.node ≠ [] := fun hnil => hlen (by simp [hnil])
      have ho := g.order.refresh_perm.trans h.order
      simp only [if_neg hlen]
      rcases h.divides.findSplit_cases (fun id => h.separates) hs hn hne ho with
        ⟨w, hf, hsep, hcount⟩ | ⟨hf, hstuck⟩
      · obtain ⟨g', hg', hcons⟩ := h.commit hq hsep hcount ho hf
        exact .inl ⟨g', by simp only [hf, hg', Except.map], hcons⟩
      · have hv : leaf.InVain M options g.tree := ⟨Nat.not_le.mp hlen, hstuck⟩
        rw [hf]
        by_cases hle : rest.length ≤ g.stalled
        · exact .inr ⟨false, by simp only [if_pos hle], h.final_of_stalled hq hv hle⟩
        · exact .inl ⟨_, by simp only [if_neg hle], h.putBack hq hv (Nat.not_le.mp hle) ho⟩

theorem turn_ne_error (h : g.Consistent M options) (e : ConstructionError) :
    Growth.turn M options g ≠ .error e := by
  rcases h.turn with ⟨g', ht, -⟩ | ⟨complete, ht, -⟩ <;> simp [ht]

theorem of_goOn (h : g.Consistent M options) {g' : Growth}
    (hg : Growth.turn M options g = .ok (.goOn g')) : g'.Consistent M options := by
  rcases h.turn with ⟨next, ht, hnext⟩ | ⟨complete, ht, -⟩
  · cases hg.symm.trans ht
    exact hnext
  · exact nomatch hg.symm.trans ht

theorem final_of_done (h : g.Consistent M options) {complete : Bool}
    (hc : Growth.turn M options g = .ok (.done complete)) :
    SplittingResult.Final M options ⟨g.tree, g.successors, complete⟩ := by
  rcases h.turn with ⟨next, ht, -⟩ | ⟨complete', ht, hfinal⟩
  · exact nomatch hc.symm.trans ht
  · cases hc.symm.trans ht
    exact hfinal

/-- The work on a consistent tree ends with a finished tree. -/
theorem run (h : g.Consistent M options) : ∃ r, run M options g = .ok r ∧ r.Final M options := by
  induction g using Growth.run.induct M options with
  | case1 g e he => exact absurd he (h.turn_ne_error e)
  | case2 g complete hc => exact ⟨_, run_of_done hc, h.final_of_done hc⟩
  | case3 g g' hg ih =>
    rw [run_of_goOn hg]
    exact ih (h.of_goOn hg)

/-- The check for coarse splits makes no difference to a turn, as a split is always as fine as the
node whose separator it uses. -/
theorem turn_checkFineness (h : g.Consistent M options) (b : Bool) :
    Growth.turn M { options with checkFineness := b } g = Growth.turn M options g := by
  unfold Growth.turn plan
  cases hq : g.queue with
  | nil => rfl
  | cons leaf rest =>
    obtain ⟨hs, -⟩ := h.states_of_queued (hq ▸ List.mem_cons_self : leaf ∈ g.queue)
    by_cases hlen : (g.tree.states leaf.node).length ≤ 1
    · simp only [if_pos hlen]
    · have hne : g.tree.states leaf.node ≠ [] := fun hnil => hlen (by simp [hnil])
      simp only [if_neg hlen, h.divides.findSplit_eq _ hs hne]
      rfl

theorem run_checkFineness (h : g.Consistent M options) (b : Bool) :
    Growth.run M { options with checkFineness := b } g = Growth.run M options g := by
  induction g using Growth.run.induct M options with
  | case1 g e he => exact absurd he (h.turn_ne_error e)
  | case2 g complete hc =>
    rw [run_of_done hc, run_of_done ((h.turn_checkFineness b).trans hc)]
  | case3 g g' hg ih =>
    rw [run_of_goOn hg, run_of_goOn ((h.turn_checkFineness b).trans hg), ih (h.of_goOn hg)]

end Consistent

/-- The work starts with a consistent tree, which is the same for all checks. -/
theorem start_consistent (M : Machine) (options : SplittingOptions) (seed : UInt64) :
    ∃ g, g.Consistent M options ∧
      ∀ b, start M { options with checkFineness := b } seed = .ok g := by
  have hholds := Partition.holds_coarsest M.stateCount
  have hfind : (Partition.coarsest M.stateCount).find 0 = .ok 0 := by
    rw [Partition.find, hholds.owner (b := 0) rfl (List.mem_range.mpr M.stateCount_pos)]
  refine ⟨_, ?_, fun b => by simp only [start, hfind]; rfl⟩
  have hleaf (id : Nat) : (SplittingTree.ofSize M.stateCount).isLeaf id :=
    Arena.isLeaf_iff.mpr (Arena.children_single _ id)
  have hroot {id : Nat} (hid : id ∈ (SplittingTree.ofSize M.stateCount).leaves) :
      id = Arena.root := Nat.lt_one_iff.mp (Arena.mem_leaves.mp hid).1
  constructor
  · exact SplittingTree.divides_ofSize M
  · exact fun hid => absurd (hleaf _) hid
  · exact .single
  · refine ⟨_, hholds, fun leaf hm => ?_⟩
    rw [List.mem_singleton.mp hm]
    simp [Pending.Matches, SplittingTree.ofSize, SplittingTree.states, Handle.range,
      Function.comp_def]
  · intro leaf hm
    rw [List.mem_singleton.mp hm]
    exact Arena.mem_leaves.mpr ⟨Arena.root_lt_size _, hleaf _⟩
  · exact List.pairwise_singleton _ _
  · exact fun id hid _ => ⟨_, List.mem_singleton_self _, (hroot hid).symm⟩
  · rfl
  · intro depth s x
    simp [SplittingTree.Leads, hleaf]
  · exact SuccessorTable.tight_empty _
  · exact .refl _
  · exact .zero

end Growth

/-- Every machine has a finished splitting tree, and the check for coarse splits does not change
it. -/
theorem SplittingTree.ofMachine_final (M : Machine) (options : SplittingOptions) (seed : UInt64) :
    ∃ r : SplittingResult, r.Final M options ∧
      ∀ b, ofMachine M { options with checkFineness := b } seed = .ok r := by
  obtain ⟨g, hg, hstart⟩ := Growth.start_consistent M options seed
  obtain ⟨r, hrun, hfinal⟩ := hg.run
  refine ⟨r, hfinal, fun b => ?_⟩
  rw [ofMachine, hstart b, ← hrun, ← hg.run_checkFineness b]
  rfl

theorem SplittingTree.final_of_ofMachine {M : Machine} {options : SplittingOptions} {seed : UInt64}
    {r : SplittingResult} (h : ofMachine M options seed = .ok r) : r.Final M options := by
  obtain ⟨r', hr', hof⟩ := ofMachine_final M options seed
  obtain rfl := Except.ok.inj (h.symm.trans (hof options.checkFineness))
  exact hr'

end StateIdentification
