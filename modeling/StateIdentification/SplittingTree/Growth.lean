import StateIdentification.ConstructionError
import StateIdentification.Counting
import StateIdentification.Machine.InputOrder
import StateIdentification.Machine.Run
import StateIdentification.Partition.Refine
import StateIdentification.SplittingTree.CommonAncestor
import StateIdentification.SplittingTree.Options
import StateIdentification.SplittingTree.SuccessorTable

/-!
# Growing a splitting tree

The leaves of the tree wait in a queue. A leaf is split on the output of a single input, or else on
an input followed by the separator of the lowest node that holds the states behind that input
together. A leaf that cannot be split yet goes back into the queue, as it may become possible once
other leaves are split. The tree is finished when no leaf in the queue can be split: either all of
them have one state, or all others were put back without a split in between.

## Main definitions

- `SplittingTree.outputSplit?`, `SplittingTree.transferSplit?`: the two kinds of splits.
- `Growth`: a tree that is being built.
- `Growth.commit`, `Growth.plan`, `Growth.turn`: splitting a leaf, and one turn of the work.
- `Growth.run`: all turns of the work.
- `SplittingTree.ofMachine`: the finished tree of a machine.
- `Machine.isMinimal`: no two states of a machine are equivalent.
-/

namespace StateIdentification

/-- The number of classes into which the last outputs on a word divide a list of states. -/
def Machine.classCount (M : Machine) (states : List State) (w : Word) : Nat :=
  distinctCount (states.map (M.lastOutput · w))

/-- Whether the first input of a word leads no two states of one class to the same state. -/
def Machine.keepsApart (M : Machine) (states : List State) (i : Input) (w : Word) : Bool :=
  injectiveWithinClasses states (M.lastOutput · (i :: w)) (M.successor · i)

/-- Whether the options admit a split on the word `i :: w`. -/
def SplittingOptions.admits (options : SplittingOptions) (M : Machine) (states : List State)
    (i : Input) (w : Word) : Bool :=
  !options.checkValidity || M.keepsApart states i w

namespace SplittingTree

/-- A single input on which the states have different outputs. -/
def outputSplit? (M : Machine) (options : SplittingOptions) (states : List State)
    (inputs : List Input) : Option Word :=
  (inputs.find? fun i => 2 ≤ M.classCount states [i] && options.admits M states i []).map ([·])

/-- An input behind which the states are no longer all in one leaf, followed by the separator of the
node that holds them together. -/
def transferSplit? (M : Machine) (options : SplittingOptions) (t : SplittingTree)
    (states : List State) : List Input → Except ConstructionError (Option Word)
  | [] => .ok none
  | i :: is =>
    let targets := states.map (M.successor · i)
    let (oracle, marks) := t.lowestCommonAncestor ∅ (targets.contains ·)
    if t.isLeaf oracle then transferSplit? M options t states is
    else
      let separator := i :: t.separator oracle
      let classes := M.classCount states separator
      let hit := (t.children oracle).countP (0 < marks.get ·)
      if classes < 2 then
        .error (.invariantViolation (.transferKeepsClass separator oracle states))
      else if !options.admits M states i (t.separator oracle) then
        transferSplit? M options t states is
      else if options.checkFineness && hit != classes then
        .error (.invariantViolation (.coarseSplit states separator classes hit oracle))
      else .ok (some separator)

/-- A word that splits the states, if there is one. -/
def findSplit (M : Machine) (options : SplittingOptions) (t : SplittingTree) (states : List State)
    (inputs : List Input) : Except ConstructionError (Option Word) :=
  match outputSplit? M options states inputs with
  | some w => .ok (some w)
  | none => transferSplit? M options t states inputs

end SplittingTree

/-- A leaf that waits to be split, and the block of the partition that holds its states. -/
structure Pending where
  block : Nat
  node : Nat
deriving DecidableEq, Repr

/-- A finished splitting tree, which is complete if no leaf was left that could not be split. -/
structure SplittingResult where
  tree : SplittingTree
  successors : SuccessorTable
  complete : Bool

/-- The result for one leaf that nobody tried to split. -/
def SplittingResult.single (size : Nat) : SplittingResult :=
  ⟨.ofSize size, .empty size, size ≤ 1⟩

variable [RandomSource]

/-- A tree that is being built, with the leaves that wait to be split. `stalled` counts the leaves
that were put back into the queue since the last split. -/
structure Growth where
  partition : Partition
  tree : SplittingTree
  successors : SuccessorTable
  queue : List Pending
  order : InputOrder
  stalled : Nat

/-- What is to be done in a turn of the work. -/
inductive Plan where
  /-- The work goes on without a split. -/
  | goOn (g : Growth)
  /-- A leaf is split on a word. -/
  | split (g : Growth) (leaf : Pending) (separator : Word)
  /-- The work is done, and the tree is `complete` or not. -/
  | done (complete : Bool)

/-- What a turn of the work leads to. -/
inductive Turn where
  /-- The work goes on. -/
  | goOn (g : Growth)
  /-- The work is done, and the tree is `complete` or not. -/
  | done (complete : Bool)

namespace Growth

/-- The code of a state in a split on a word: the number of its last output. -/
def code (M : Machine) (separator : Word) (e : Nat) : Nat := (M.lastOutput ⟨e⟩ separator).index

/-- Puts new leaves below a leaf, for the blocks that its block was split into, and lets them wait
behind the leaves of the queue. -/
def install (M : Machine) (options : SplittingOptions) (g : Growth) (leaf : Pending)
    (separator : Word) (blocks : List Nat) (partition : Partition) :
    Except ConstructionError Growth :=
  let states := g.tree.states leaf.node
  if blocks.length < 2 then .error (.invariantViolation (.refinementKeepsBlock states separator))
  else
    match blocks.mapM partition.members with
    | .error e => .error (.refinement e)
    | .ok parts => .ok {
        partition
        tree := g.tree.split leaf.node separator (parts.map (·.map Handle.mk))
        successors :=
          if options.recordSuccessors then
            g.successors.recordWord M (g.tree.depth leaf.node) separator states
          else g.successors
        queue := g.queue ++ blocks.zipWith Pending.mk (List.range' g.tree.size blocks.length)
        order := g.order
        stalled := 0 }

/-- Splits a leaf on a word. -/
def commit (M : Machine) (options : SplittingOptions) (g : Growth) (leaf : Pending)
    (separator : Word) : Except ConstructionError Growth :=
  match g.partition.refine leaf.block (code M separator) M.outputCount with
  | .error e => .error (.refinement e)
  | .ok (blocks, partition) => install M options g leaf separator blocks partition

/-- What is to be done next: the first leaf of the queue is taken out. It is dropped if it has one
state, split if a split is found, and put back otherwise. The work is done if the queue is empty, or
if the leaf cannot be split and all others have been put back since the last split. -/
def plan (M : Machine) (options : SplittingOptions) (g : Growth) :
    Except ConstructionError Plan :=
  match g.queue with
  | [] => .ok (.done true)
  | leaf :: queue =>
    let states := g.tree.states leaf.node
    if states.length ≤ 1 then .ok (.goOn { g with queue })
    else
      let order := g.order.refresh
      match g.tree.findSplit M options states order.inputs with
      | .error e => .error e
      | .ok (some separator) => .ok (.split { g with queue, order } leaf separator)
      | .ok none =>
        if queue.length ≤ g.stalled then .ok (.done false)
        else .ok (.goOn { g with queue := queue ++ [leaf], order, stalled := g.stalled + 1 })

/-- One turn of the work. -/
def turn (M : Machine) (options : SplittingOptions) (g : Growth) :
    Except ConstructionError Turn :=
  match plan M options g with
  | .error e => .error e
  | .ok (.goOn g') => .ok (.goOn g')
  | .ok (.split g' leaf separator) => (commit M options g' leaf separator).map .goOn
  | .ok (.done complete) => .ok (.done complete)

theorem partition_of_install {M : Machine} {options : SplittingOptions} {g g' : Growth}
    {leaf : Pending} {separator : Word} {blocks : List Nat} {partition : Partition}
    (h : install M options g leaf separator blocks partition = .ok g') :
    2 ≤ blocks.length ∧ g'.partition = partition := by
  rw [install] at h
  split at h
  · cases h
  case isFalse hseveral =>
    split at h <;> cases h
    exact ⟨Nat.not_lt.mp hseveral, rfl⟩

/-- A split takes up room in the partition. -/
theorem room_commit_lt {M : Machine} {options : SplittingOptions} {g g' : Growth} {leaf : Pending}
    {separator : Word} (h : commit M options g leaf separator = .ok g') :
    g'.partition.room < g.partition.room := by
  rw [commit] at h
  split at h
  · cases h
  case h_2 blocks partition hr =>
    obtain ⟨hseveral, rfl⟩ := partition_of_install h
    exact Partition.room_refine_lt hr hseveral

/-- The turns that are left: as long as the partition stays as it is, the queue gets shorter or more
of its leaves have been put back. -/
def patience (g : Growth) : Nat := g.queue.length + (g.queue.length - g.stalled)

/-- What can be planned, and when. -/
inductive Plans (M : Machine) (options : SplittingOptions) (g : Growth) : Plan → Prop
  | finished (empty : g.queue = []) : Plans M options g (.done true)
  | dropped {leaf : Pending} {rest : List Pending} (takes : g.queue = leaf :: rest)
      (small : (g.tree.states leaf.node).length ≤ 1) :
      Plans M options g (.goOn { g with queue := rest })
  | split {leaf : Pending} {rest : List Pending} {separator : Word}
      (takes : g.queue = leaf :: rest) (large : 2 ≤ (g.tree.states leaf.node).length)
      (found : g.tree.findSplit M options (g.tree.states leaf.node) g.order.refresh.inputs =
        .ok (some separator)) :
      Plans M options g (.split { g with queue := rest, order := g.order.refresh } leaf separator)
  | stuck {leaf : Pending} {rest : List Pending} (takes : g.queue = leaf :: rest)
      (large : 2 ≤ (g.tree.states leaf.node).length)
      (failed : g.tree.findSplit M options (g.tree.states leaf.node) g.order.refresh.inputs =
        .ok none) (tried : rest.length ≤ g.stalled) :
      Plans M options g (.done false)
  | putBack {leaf : Pending} {rest : List Pending} (takes : g.queue = leaf :: rest)
      (large : 2 ≤ (g.tree.states leaf.node).length)
      (failed : g.tree.findSplit M options (g.tree.states leaf.node) g.order.refresh.inputs =
        .ok none) (untried : g.stalled < rest.length) :
      Plans M options g (.goOn { g with
        queue := rest ++ [leaf], order := g.order.refresh, stalled := g.stalled + 1 })

theorem plans_of_plan {M : Machine} {options : SplittingOptions} {g : Growth} {p : Plan}
    (h : plan M options g = .ok p) : Plans M options g p := by
  rw [plan] at h
  split at h
  case h_1 hq =>
    cases h
    exact .finished hq
  case h_2 leaf rest hq =>
    dsimp only at h
    split at h
    case isTrue hsmall =>
      cases h
      exact .dropped hq hsmall
    case isFalse hlarge =>
      have hlarge : 2 ≤ (g.tree.states leaf.node).length := Nat.not_le.mp hlarge
      split at h
      · cases h
      case h_2 separator hfound =>
        cases h
        exact .split hq hlarge hfound
      case h_3 hfailed =>
        split at h <;> cases h
        case isTrue htried => exact .stuck hq hlarge hfailed htried
        case isFalse huntried => exact .putBack hq hlarge hfailed (Nat.not_le.mp huntried)

/-- A plan without a split keeps the partition and uses up patience. -/
theorem patience_plan_lt {M : Machine} {options : SplittingOptions} {g g' : Growth}
    (h : plan M options g = .ok (.goOn g')) :
    g'.partition = g.partition ∧ g'.patience < g.patience := by
  cases plans_of_plan h with
  | dropped takes => exact ⟨rfl, by simp only [patience, takes, List.length_cons]; omega⟩
  | putBack takes _ _ untried => exact ⟨rfl, by simp [patience, takes]; omega⟩

theorem partition_of_plan {M : Machine} {options : SplittingOptions} {g g' : Growth}
    {leaf : Pending} {separator : Word} (h : plan M options g = .ok (.split g' leaf separator)) :
    g'.partition = g.partition := by
  cases plans_of_plan h
  rfl

/-- A turn that leads on carries out its plan. -/
theorem turn_cases {M : Machine} {options : SplittingOptions} {g g' : Growth}
    (h : turn M options g = .ok (.goOn g')) :
    plan M options g = .ok (.goOn g') ∨ ∃ next leaf separator,
      plan M options g = .ok (.split next leaf separator) ∧
        commit M options next leaf separator = .ok g' := by
  rw [turn] at h
  split at h
  · cases h
  case h_2 hplan =>
    cases h
    exact .inl hplan
  case h_3 next leaf separator hplan =>
    cases hcommit : commit M options next leaf separator with
    | error e =>
      rw [hcommit] at h
      cases h
    | ok after =>
      rw [hcommit] at h
      cases h
      exact .inr ⟨next, leaf, separator, hplan, hcommit⟩
  · cases h

theorem turn_decreases {M : Machine} {options : SplittingOptions} {g g' : Growth}
    (h : turn M options g = .ok (.goOn g')) :
    g'.partition.room < g.partition.room ∨
      g'.partition.room = g.partition.room ∧ g'.patience < g.patience := by
  rcases turn_cases h with hplan | ⟨next, leaf, separator, hplan, hcommit⟩
  · obtain ⟨heq, hlt⟩ := patience_plan_lt hplan
    exact .inr ⟨heq ▸ rfl, hlt⟩
  · exact .inl (partition_of_plan hplan ▸ room_commit_lt hcommit)

/-- Lets the work go on until it is done. -/
def run (M : Machine) (options : SplittingOptions) (g : Growth) :
    Except ConstructionError SplittingResult :=
  match _h : turn M options g with
  | .error e => .error e
  | .ok (.done complete) => .ok ⟨g.tree, g.successors, complete⟩
  | .ok (.goOn g') => run M options g'
termination_by (g.partition.room, g.patience)
decreasing_by
  rcases turn_decreases _h with hlt | ⟨heq, hlt⟩
  · exact .left _ _ hlt
  · exact heq ▸ .right _ hlt

/-- The tree of one leaf for all states of a machine, which waits to be split. -/
def start (M : Machine) (options : SplittingOptions) (seed : UInt64) :
    Except ConstructionError Growth := do
  let partition := Partition.coarsest M.stateCount
  let block ← (partition.find 0).mapError .refinement
  return {
    partition
    tree := .ofSize M.stateCount
    successors := .empty M.stateCount
    queue := [⟨block, Arena.root⟩]
    order := .ofMachine M options.randomized seed
    stalled := 0 }

end Growth

/-- The splitting tree of a machine. The seed matters only for random order. -/
def SplittingTree.ofMachine (M : Machine) (options : SplittingOptions) (seed : UInt64) :
    Except ConstructionError SplittingResult :=
  Growth.start M options seed >>= Growth.run M options

/-- Whether no two states of a machine are equivalent. -/
def Machine.isMinimal (M : Machine) : Bool :=
  match SplittingTree.ofMachine M .hopcroft 0 with
  | .ok result => result.tree.leafCount == M.stateCount
  | .error _ => false

end StateIdentification
