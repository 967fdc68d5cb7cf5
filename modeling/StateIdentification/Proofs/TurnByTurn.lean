import StateIdentification.Proofs.GrowthRun
import StateIdentification.Random.Generator

/-!
# Computing a tree turn by turn

The work on a tree goes on until a turn ends it, which the kernel does not unfold. With a bound for
the number of turns it can be computed.

## Main definitions

- `Growth.runFor`: the work within a bound for the number of turns.
- `laggard`: a machine whose tree has several inner nodes.

## Main results

- `SplittingTree.exists_of_runFor`: what is computed within a bound is the tree of the machine.
-/

namespace StateIdentification

section

variable [RandomSource] {M : Machine} {options : SplittingOptions}

/-- The result, if the work is done within so many turns. -/
def Growth.runFor (M : Machine) (options : SplittingOptions) :
    Nat → Growth → Option SplittingResult
  | 0, _ => none
  | turns + 1, g =>
    match turn M options g with
    | .error _ => none
    | .ok (.done complete) => some ⟨g.tree, g.successors, complete⟩
    | .ok (.goOn g') => runFor M options turns g'

theorem Growth.run_of_runFor {turns : Nat} {g : Growth} {r : SplittingResult}
    (h : runFor M options turns g = some r) : run M options g = .ok r := by
  induction turns generalizing g with
  | zero => cases h
  | succ turns ih =>
    rw [runFor] at h
    split at h
    · cases h
    case h_2 complete hdone =>
      cases h
      exact run_of_done hdone
    case h_3 g' hgoOn => exact (run_of_goOn hgoOn).trans (ih h)

/-- The result for a machine can be computed turn by turn. -/
theorem SplittingTree.ofMachine_of_runFor {seed : UInt64} {turns : Nat} {r : SplittingResult}
    (h : (Growth.start M options seed).toOption.bind (Growth.runFor M options turns) = some r) :
    ofMachine M options seed = .ok r := by
  rw [ofMachine]
  cases hstart : Growth.start M options seed with
  | error e =>
    rw [hstart] at h
    cases h
  | ok g =>
    rw [hstart] at h
    exact Growth.run_of_runFor h

/-- A property of the tree of a machine can be decided turn by turn. -/
theorem SplittingTree.exists_of_runFor {seed : UInt64} {p : SplittingResult → Prop}
    [DecidablePred p] (turns : Nat)
    (h : ((Growth.start M options seed).toOption.bind (Growth.runFor M options turns)).any
      (decide <| p ·)) :
    ∃ r, ofMachine M options seed = .ok r ∧ p r := by
  obtain ⟨r, hrun, hp⟩ := (Option.any_eq_true _ _).mp h
  exact ⟨r, ofMachine_of_runFor hrun, of_decide_eq_true hp⟩

end

/-- Three states that each lead to the next one, and two states that lead back to the first two.
What tells the last two apart is what tells the first two apart, and that is found late. -/
def laggard : Machine where
  stateCount := 3 + 2
  inputCount := 1
  outputCount := 2
  table := .ofFn fun s _ => Fin.addCases
    (fun first => ⟨first.succ.castSucc, ⟨0, Nat.zero_lt_two⟩⟩)
    (fun last => ⟨last.castAdd 3, ⟨1, Nat.one_lt_two⟩⟩) s
  stateCount_pos := Nat.succ_pos 4

end StateIdentification
