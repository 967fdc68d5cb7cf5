import Mathlib.Algebra.Group.Nat.Defs
import StateIdentification.Machine.Draft
import StateIdentification.Memory.Growth
import StateIdentification.Proofs.GrowthHistory
import StateIdentification.Proofs.PartitionScan
import StateIdentification.Random.Generator

/-!
# Growing a tree within the table limit

If the table of outputs fits, every turn of the work does what it does without a limit. Otherwise
the first split ends the work. The states behind an input are in different leaves only if the root
has been split, so the first split is one of the root on a single input, and whether there is one
does not depend on the order of inputs.

## Main definitions

- `SplittingTree.RootSplits`: the root can be split.
- `SplittingTree.Exceeds`: a tree takes a table that exceeds the limit.

## Main results

- `Growth.Consistent.runBounded_of_fits`: the work if the table of outputs fits.
- `SplittingTree.ofMachineBounded_of_exceeds`, `SplittingTree.ofMachineBounded_of_not_exceeds`: the
  tree of a machine within the limit.
- `SplittingTree.ofMachineBounded_total`: the construction succeeds exactly if the tables fit.
-/

namespace StateIdentification

variable {M : Machine} {options : SplittingOptions}

namespace SplittingTree

/-- The options admit a split of all states on some input. -/
def RootSplits (M : Machine) (options : SplittingOptions) : Prop :=
  ∃ i ∈ M.inputs, ¬ M.Agrees M.states i ∧ options.admits M M.states i []

/-- A splitting tree takes a table that exceeds the limit. There is one with an entry for every
state, and one with an entry for every output if the root can be split. -/
def Exceeds (M : Machine) (options : SplittingOptions) : Prop :=
  ¬ TableFits M.stateCount numberWidth ∨
    ¬ TableFits M.outputCount numberWidth ∧ RootSplits M options

/-- The first table of a tree that does not fit. -/
def overflow (M : Machine) : TableOverflow :=
  if TableFits M.stateCount numberWidth then ⟨M.outputCount, numberWidth⟩
  else ⟨M.stateCount, numberWidth⟩

/-- Whether the root can be split does not depend on the order of inputs. -/
theorem isSome_outputSplit?_iff {inputs : List Input} (hi : inputs.Perm M.inputs) :
    (outputSplit? M options M.states inputs).isSome ↔ RootSplits M options := by
  simp only [outputSplit?, Option.isSome_map, List.find?_isSome, Bool.and_eq_true, RootSplits,
    decide_eq_true_eq, Machine.two_le_classCount_iff, hi.mem_iff]

/-- Only states that differ can be split. -/
theorem RootSplits.two_le (h : RootSplits M options) : 2 ≤ M.states.length := by
  obtain ⟨i, -, hdiffer, -⟩ := h
  by_contra hsmall
  refine hdiffer fun s hs u hu => ?_
  have hlen : M.states.length = 1 := by
    have hpos := List.length_pos_of_mem hs
    omega
  obtain ⟨v, hv⟩ := List.length_eq_one_iff.mp hlen
  rw [hv, List.mem_singleton] at hs hu
  rw [hs, hu]

/-- In a tree of one leaf only single inputs are found. -/
theorem findSplit_ofSize (size : Nat) (states : List State) (inputs : List Input) :
    (ofSize size).findSplit M options states inputs =
      .ok (outputSplit? M options states inputs) := by
  have htransfer (rest : List Input) : transferSplit? M options (ofSize size) states rest =
      .ok none := by
    induction rest with
    | nil => rfl
    | cons i is ih =>
      rw [transferSplit?]
      exact (if_pos (Arena.isLeaf_iff.mpr (Arena.children_single _ _))).trans ih
  rw [findSplit]
  cases outputSplit? M options states inputs with
  | some w => rfl
  | none => exact htransfer inputs

end SplittingTree

namespace Growth

variable [RandomSource] {g g' : Growth} {leaf : Pending} {w : Word}

/-- If the table of outputs fits, a leaf is split as without a limit. -/
theorem commitBounded_of_fits {contents : List (Option (List Nat))}
    (hp : g.partition.Holds contents) (fits : TableFits M.outputCount numberWidth)
    (leaf : Pending) (w : Word) :
    commitBounded M options g leaf w = .ok (commit M options g leaf w) := by
  rw [commitBounded, commit, hp.refineBounded_eq]
  cases g.partition.refine leaf.block (code M w) M.outputCount with
  | error e => rfl
  | ok answer => simp only [Except.map, fits, or_true, if_true]

theorem runBounded_of_done {complete : Bool}
    (h : turnBounded M options g = .ok (.ok (.done complete))) :
    runBounded M options g = .ok (.ok ⟨g.tree, g.successors, complete⟩) := by
  rw [runBounded]
  split <;> simp_all

theorem runBounded_of_goOn (h : turnBounded M options g = .ok (.ok (.goOn g'))) :
    runBounded M options g = runBounded M options g' := by
  rw [runBounded]
  split <;> simp_all

theorem runBounded_of_overflow {overflow : TableOverflow}
    (h : turnBounded M options g = .error overflow) :
    runBounded M options g = .error overflow := by
  rw [runBounded]
  split <;> simp_all

/-- A turn without a split does not depend on the limit. -/
theorem turnBounded_of_unsplit
    (h : ∀ g' leaf w, plan M options g ≠ .ok (.split g' leaf w)) :
    turnBounded M options g = .ok (turn M options g) := by
  rw [turnBounded, turn]
  split
  case h_3 g' leaf w hplan => exact absurd hplan (h g' leaf w)
  all_goals simp_all

namespace Consistent

/-- If the table of outputs fits, a turn does what it does without a limit. -/
theorem turnBounded_of_fits (h : g.Consistent M options)
    (fits : TableFits M.outputCount numberWidth) :
    turnBounded M options g = .ok (Growth.turn M options g) := by
  obtain ⟨contents, hp, -⟩ := h.holds
  by_cases hsplit : ∃ g' leaf w, plan M options g = .ok (.split g' leaf w)
  · obtain ⟨g', leaf, w, hplan⟩ := hsplit
    rw [← partition_of_plan hplan] at hp
    rw [turnBounded, Growth.turn, hplan]
    dsimp only
    rw [commitBounded_of_fits hp fits]
    rfl
  · exact turnBounded_of_unsplit fun g' leaf w hplan => hsplit ⟨g', leaf, w, hplan⟩

/-- If the table of outputs fits, the work goes as without a limit. -/
theorem runBounded_of_fits (h : g.Consistent M options)
    (fits : TableFits M.outputCount numberWidth) :
    runBounded M options g = .ok (Growth.run M options g) := by
  induction g using Growth.run.induct M options with
  | case1 g e he => exact absurd he (h.turn_ne_error e)
  | case2 g complete hdone =>
    have hturn := h.turnBounded_of_fits fits
    rw [hdone] at hturn
    rw [run_of_done hdone, runBounded_of_done hturn]
  | case3 g g' hgoOn ih =>
    have hturn := h.turnBounded_of_fits fits
    rw [hgoOn] at hturn
    rw [run_of_goOn hgoOn, runBounded_of_goOn hturn, ih (h.of_goOn hgoOn)]

/-- If the table of outputs does not fit, a split ends the work. -/
theorem turnBounded_of_split (h : g.Consistent M options)
    (hplan : plan M options g = .ok (.split g' leaf w))
    (large : ¬ TableFits M.outputCount numberWidth) :
    turnBounded M options g = .error ⟨M.outputCount, numberWidth⟩ := by
  obtain ⟨contents, hp, hc⟩ := h.holds
  cases plans_of_plan hplan with
  | split takes hlarge found =>
    have hl : leaf ∈ g.queue := takes ▸ List.mem_cons_self
    obtain ⟨hs, hn⟩ := h.states_of_queued hl
    have hne : g.tree.states leaf.node ≠ [] := List.ne_nil_of_length_pos (by omega)
    have ho := g.order.refresh_perm.trans h.order
    obtain ⟨hsep, hcount⟩ := h.divides.separates_of_findSplit (fun id => h.separates) hs hn hne
      (fun i => ho.mem_iff.mp) found
    obtain ⟨q, hrefine, -⟩ := h.refine_block hl hp (hc leaf hl) hsep hcount
    have hlong : ¬ (classes (g.tree.states leaf.node) (M.lastOutput · w)).length ≤ 1 := by
      rw [length_classes]
      exact Nat.not_le.mpr hcount
    rw [turnBounded, hplan]
    simp only [commitBounded, hp.refineBounded_eq, hrefine, Except.map, List.length_range', hlong,
      large, or_self, if_false]

end Consistent

theorem states_of_single (tree : g.tree = .ofSize M.stateCount) (root : leaf.node = Arena.root) :
    g.tree.states leaf.node = M.states := by
  rw [tree, root]
  rfl

/-- The work that starts with one leaf splits it at once, if it splits anything. -/
theorem plan_of_single (tree : g.tree = .ofSize M.stateCount) (waits : g.waiting = [Arena.root])
    (order : g.order.inputs.Perm M.inputs) :
    SplittingTree.RootSplits M options ↔
      ∃ g' leaf w, plan M options g = .ok (.split g' leaf w) := by
  have hsearch : (SplittingTree.outputSplit? M options M.states g.order.refresh.inputs).isSome ↔
      SplittingTree.RootSplits M options :=
    SplittingTree.isSome_outputSplit?_iff (g.order.refresh_perm.trans order)
  constructor
  · intro hroot
    obtain ⟨leaf, hq, hnode⟩ := List.map_eq_singleton_iff.mp waits
    have hstates := states_of_single tree hnode
    obtain ⟨w, hw⟩ := Option.isSome_iff_exists.mp (hsearch.mpr hroot)
    have hlarge : ¬ M.states.length ≤ 1 := Nat.not_le.mpr hroot.two_le
    refine ⟨{ g with queue := [], order := g.order.refresh }, leaf, w, ?_⟩
    simp only [plan, hq, hstates, if_neg hlarge, SplittingTree.findSplit, hw]
  · rintro ⟨g', leaf, w, hplan⟩
    cases plans_of_plan hplan with
    | split takes hlarge found =>
      obtain ⟨first, hq, hnode⟩ := List.map_eq_singleton_iff.mp waits
      obtain ⟨rfl, -⟩ := List.cons.inj (takes.symm.trans hq)
      rw [tree, SplittingTree.findSplit_ofSize, ← tree, states_of_single tree hnode,
        Except.ok.injEq] at found
      exact hsearch.mp (found ▸ rfl)

/-- If the root cannot be split, the work is done at once, or after the root was dropped. -/
theorem Consistent.runBounded_of_single (h : g.Consistent M options)
    (tree : g.tree = .ofSize M.stateCount) (waits : g.waiting = [Arena.root])
    (whole : ¬ SplittingTree.RootSplits M options) :
    runBounded M options g = .ok (Growth.run M options g) := by
  have unsplit (g' : Growth) (leaf : Pending) (w : Word) :
      plan M options g ≠ .ok (.split g' leaf w) := fun hplan =>
    whole ((plan_of_single tree waits h.order).mpr ⟨g', leaf, w, hplan⟩)
  have hturn := turnBounded_of_unsplit unsplit
  match hstep : Growth.turn M options g with
  | .error e => exact absurd hstep (h.turn_ne_error e)
  | .ok (.done complete) =>
    rw [hstep] at hturn
    rw [runBounded_of_done hturn, run_of_done hstep]
  | .ok (.goOn g') =>
    rw [hstep] at hturn
    obtain ⟨leaf, hq, -⟩ := List.map_eq_singleton_iff.mp waits
    have hempty : plan M options g' = .ok (.done true) := by
      rcases turn_cases hstep with hplan | ⟨next, leaf, w, hplan, -⟩
      · cases plans_of_plan hplan with
        | dropped takes =>
          obtain ⟨-, rfl⟩ := List.cons.inj (hq.symm.trans takes)
          rfl
        | putBack takes _ _ untried =>
          obtain ⟨-, rfl⟩ := List.cons.inj (hq.symm.trans takes)
          exact absurd untried (Nat.not_lt_zero _)
      · exact absurd hplan (unsplit next leaf w)
    have hdone : Growth.turn M options g' = .ok (.done true) := by rw [Growth.turn, hempty]
    have hdone' : turnBounded M options g' = .ok (.ok (.done true)) := by
      rw [turnBounded, hempty]
    rw [runBounded_of_goOn hturn, runBounded_of_done hdone', run_of_goOn hstep, run_of_done hdone]

/-- If the root can be split but the table of outputs does not fit, the work ends there. -/
theorem Consistent.runBounded_of_exceeds (h : g.Consistent M options)
    (tree : g.tree = .ofSize M.stateCount) (waits : g.waiting = [Arena.root])
    (splits : SplittingTree.RootSplits M options)
    (large : ¬ TableFits M.outputCount numberWidth) :
    runBounded M options g = .error ⟨M.outputCount, numberWidth⟩ := by
  obtain ⟨g', leaf, w, hplan⟩ := (plan_of_single tree waits h.order).mp splits
  exact runBounded_of_overflow (h.turnBounded_of_split hplan large)

end Growth

namespace SplittingTree

variable [RandomSource]

/-- The tree of a machine whose tables fit is the one without a limit. -/
theorem ofMachineBounded_of_not_exceeds (h : ¬ Exceeds M options) (seed : UInt64) :
    ofMachineBounded M options seed = .ok (ofMachine M options seed) := by
  rw [Exceeds, not_or, not_not] at h
  obtain ⟨hstates, houtputs⟩ := h
  obtain ⟨g, hstart, hg, htree, hwaits⟩ := Growth.exists_start M options seed
  have hrun : Growth.runBounded M options g = .ok (Growth.run M options g) := by
    by_cases fits : TableFits M.outputCount numberWidth
    · exact hg.runBounded_of_fits fits
    · exact hg.runBounded_of_single htree hwaits fun splits => houtputs ⟨fits, splits⟩
  simp only [ofMachineBounded, ofMachine, hstart, requireTable_of_fits hstates, hrun]
  rfl

/-- A tree that takes a table that is too large is refused. -/
theorem ofMachineBounded_of_exceeds (h : Exceeds M options) (seed : UInt64) :
    ofMachineBounded M options seed = .error (overflow M) := by
  rw [overflow]
  split
  case isTrue hstates =>
    obtain ⟨large, splits⟩ := h.resolve_left (not_not_intro hstates)
    obtain ⟨g, hstart, hg, htree, hwaits⟩ := Growth.exists_start M options seed
    simp only [ofMachineBounded, hstart, requireTable_of_fits hstates,
      hg.runBounded_of_exceeds htree hwaits splits large]
    rfl
  case isFalse hstates =>
    rw [ofMachineBounded, requireTable_of_not_fits hstates]
    rfl

/-- The construction of a tree succeeds exactly if its tables fit, and then the check for coarse
splits makes no difference. Otherwise a table is refused, so there is no other error. -/
theorem ofMachineBounded_total (M : Machine) (options : SplittingOptions) (seed : UInt64) :
    ((∃ r, ∀ b, ofMachineBounded M { options with checkFineness := b } seed = .ok (.ok r)) ↔
      ¬ Exceeds M options) ∧
    ((∀ b, ofMachineBounded M { options with checkFineness := b } seed = .error (overflow M)) ↔
      Exceeds M options) := by
  have hgrown (fits : ¬ Exceeds M options) :
      ∃ r, ∀ b, ofMachineBounded M { options with checkFineness := b } seed = .ok (.ok r) := by
    obtain ⟨r, -, hr⟩ := ofMachine_final M options seed
    refine ⟨r, fun b => ?_⟩
    have fits : ¬ Exceeds M { options with checkFineness := b } := fits
    rw [ofMachineBounded_of_not_exceeds fits, hr]
  have hrefused (exceeds : Exceeds M options) (b : Bool) :
      ofMachineBounded M { options with checkFineness := b } seed = .error (overflow M) := by
    have exceeds : Exceeds M { options with checkFineness := b } := exceeds
    exact ofMachineBounded_of_exceeds exceeds seed
  refine ⟨⟨fun ⟨r, hr⟩ exceeds => ?_, hgrown⟩, fun h => ?_, hrefused⟩
  · exact nomatch (hr true).symm.trans (hrefused exceeds true)
  · by_contra fits
    obtain ⟨r, hr⟩ := hgrown fits
    exact nomatch (hr true).symm.trans (h true)

end SplittingTree

/-- Two states with a loop each, whose outputs are among more than a table of codes can hold. -/
def Machine.farApart : Machine where
  stateCount := 2
  inputCount := 1
  outputCount := 2 ^ 61
  table := .ofFn fun s _ => ⟨s, s.castLE (Nat.le_self_pow (by simp) 2)⟩
  stateCount_pos := Nat.two_pos

namespace SplittingTree

/-- The loops tell the two states apart, so the root can be split. -/
theorem exceeds_farApart (options : SplittingOptions) : Exceeds .farApart options := by
  refine .inr ⟨by decide, .first, by decide, fun hagree => ?_, ?_⟩
  · exact absurd (hagree ⟨0⟩ (by decide) ⟨1⟩ (by decide)) (by decide)
  · have hapart : Machine.farApart.keepsApart Machine.farApart.states .first [] = true := by decide
    rw [SplittingOptions.admits, hapart, Bool.or_true]

/-- Nothing is wrong with the edges of the two states, but no tree is grown for them. -/
theorem ofMachineBounded_refuses_farApart :
    Machine.ofEdges 2 1 (2 ^ 61) [⟨⟨0⟩, ⟨0⟩, ⟨0⟩, ⟨0⟩⟩, ⟨⟨1⟩, ⟨0⟩, ⟨1⟩, ⟨1⟩⟩] = .ok .farApart ∧
      ofMachineBounded .farApart .hopcroft 0 = .error ⟨2 ^ 61, 8⟩ :=
  ⟨by decide +kernel, ofMachineBounded_of_exceeds (exceeds_farApart .hopcroft) 0⟩

end SplittingTree

end StateIdentification
