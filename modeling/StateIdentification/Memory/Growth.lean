import StateIdentification.Memory.Partition
import StateIdentification.SplittingTree.Growth

/-!
# Growing a splitting tree within the table limit

A tree starts with tables that have an entry for every state. To split a leaf, a table with an entry
for every output is needed in addition, and the work stops if that one does not fit.

## Main definitions

- `Growth.commitBounded`, `Growth.turnBounded`, `Growth.runBounded`: the work within the limit.
- `SplittingTree.ofMachineBounded`: the finished splitting tree of a machine.
- `Machine.isMinimalBounded`: no two states of a machine are equivalent.
-/

namespace StateIdentification

variable [RandomSource]

namespace Growth

/-- Splits a leaf on a word, unless the table of outputs does not fit. -/
def commitBounded (M : Machine) (options : SplittingOptions) (g : Growth) (leaf : Pending)
    (separator : Word) : Except TableOverflow (Except ConstructionError Growth) :=
  match g.partition.refineBounded leaf.block (code M separator) M.outputCount with
  | .error e => .ok (.error (.refinement e))
  | .ok (.error overflow, _) => .error overflow
  | .ok (.ok blocks, partition) => .ok (install M options g leaf separator blocks partition)

/-- One turn of the work, unless it needs a table that does not fit. -/
def turnBounded (M : Machine) (options : SplittingOptions) (g : Growth) :
    Except TableOverflow (Except ConstructionError Turn) :=
  match plan M options g with
  | .error e => .ok (.error e)
  | .ok (.goOn g') => .ok (.ok (.goOn g'))
  | .ok (.split g' leaf separator) =>
    (commitBounded M options g' leaf separator).map (·.map .goOn)
  | .ok (.done complete) => .ok (.ok (.done complete))

/-- A split takes up room in the partition. -/
theorem room_commitBounded_lt {M : Machine} {options : SplittingOptions} {g g' : Growth}
    {leaf : Pending} {separator : Word}
    (h : commitBounded M options g leaf separator = .ok (.ok g')) :
    g'.partition.room < g.partition.room := by
  rw [commitBounded] at h
  split at h
  · cases h
  · cases h
  case h_3 blocks partition hr =>
    obtain ⟨hseveral, rfl⟩ := partition_of_install (Except.ok.inj h)
    exact Partition.room_refineBounded_lt hr hseveral

theorem turnBounded_decreases {M : Machine} {options : SplittingOptions} {g g' : Growth}
    (h : turnBounded M options g = .ok (.ok (.goOn g'))) :
    g'.partition.room < g.partition.room ∨
      g'.partition.room = g.partition.room ∧ g'.patience < g.patience := by
  rw [turnBounded] at h
  split at h
  · cases h
  case h_2 hplan =>
    cases h
    obtain ⟨heq, hlt⟩ := patience_plan_lt hplan
    exact .inr ⟨heq ▸ rfl, hlt⟩
  case h_3 next leaf separator hplan =>
    match hcommit : commitBounded M options next leaf separator with
    | .error overflow =>
      rw [hcommit] at h
      cases h
    | .ok (.error e) =>
      rw [hcommit] at h
      cases h
    | .ok (.ok after) =>
      rw [hcommit] at h
      cases h
      exact .inl (partition_of_plan hplan ▸ room_commitBounded_lt hcommit)
  · cases h

/-- Lets the work go on until it is done, or until it needs a table that does not fit. -/
def runBounded (M : Machine) (options : SplittingOptions) (g : Growth) :
    Except TableOverflow (Except ConstructionError SplittingResult) :=
  match _h : turnBounded M options g with
  | .error overflow => .error overflow
  | .ok (.error e) => .ok (.error e)
  | .ok (.ok (.done complete)) => .ok (.ok ⟨g.tree, g.successors, complete⟩)
  | .ok (.ok (.goOn g')) => runBounded M options g'
termination_by (g.partition.room, g.patience)
decreasing_by
  rcases turnBounded_decreases _h with hlt | ⟨heq, hlt⟩
  · exact .left _ _ hlt
  · exact heq ▸ .right _ hlt

end Growth

/-- The splitting tree of a machine, if its tables fit. -/
def SplittingTree.ofMachineBounded (M : Machine) (options : SplittingOptions) (seed : UInt64) :
    Except TableOverflow (Except ConstructionError SplittingResult) := do
  requireTable M.stateCount numberWidth
  match Growth.start M options seed with
  | .error e => return .error e
  | .ok g => Growth.runBounded M options g

/-- Whether no two states of a machine are equivalent, if the tables of its tree fit. -/
def Machine.isMinimalBounded (M : Machine) : Except TableOverflow Bool := do
  match ← SplittingTree.ofMachineBounded M .hopcroft 0 with
  | .ok result => return result.tree.leafCount == M.stateCount
  | .error _ => return false

end StateIdentification
