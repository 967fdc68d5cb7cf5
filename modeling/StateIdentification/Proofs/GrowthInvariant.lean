import StateIdentification.Proofs.PartitionContents
import StateIdentification.Proofs.SplitSearch
import StateIdentification.Proofs.TreeSplit

/-!
# What holds while a tree grows

The partition, the tree, the table of successors and the queue of a growing tree belong together:
a leaf in the queue comes with a live block that has exactly the states of the leaf, the queue has
all leaves that can still be split, and its last leaves are those that were tried in vain since the
last split. Every turn of the work keeps this, and no turn fails.

## Main definitions

- `Pending.Matches`: the block of a waiting leaf has its states.
- `Growth.TriedLast`: the last leaves of a queue were tried in vain.
- `Growth.Consistent`: the parts of a growing tree belong together.
- `SplittingResult.Final`: what is known of a finished tree.

## Main results

- `Growth.Consistent.refine_block`: splitting the block of a leaf never fails.
- `Growth.Consistent.commit`: a split succeeds.
-/

namespace StateIdentification

/-- On a word over the inputs of a machine, a state emits an output of the machine at last. -/
theorem Machine.lastOutput_lt {M : Machine} {s : State} {w : Word} (hs : s ∈ M.states)
    (hw : w ≠ []) (hi : ∀ i ∈ w, i ∈ M.inputs) : (M.lastOutput s w).index < M.outputCount := by
  rcases List.eq_nil_or_concat w with rfl | ⟨v, i, rfl⟩
  · exact absurd rfl hw
  · rw [List.concat_eq_append, lastOutput_concat]
    exact output_lt (reached_mem hs v) (hi i (by simp))

/-- The block of a waiting leaf has the states of the leaf. -/
def Pending.Matches (contents : List (Option (List Nat))) (t : SplittingTree) (leaf : Pending) :
    Prop :=
  contents[leaf.block]? = some (some ((t.states leaf.node).map (·.index)))

theorem Pending.Matches.block_lt {contents : List (Option (List Nat))} {t : SplittingTree}
    {leaf : Pending} (h : leaf.Matches contents t) : leaf.block < contents.length :=
  (List.getElem?_eq_some_iff.mp h).1

/-- A leaf that was tried in vain has several states, of which no input tells anything. -/
def Pending.InVain (M : Machine) (options : SplittingOptions) (t : SplittingTree)
    (leaf : Pending) : Prop :=
  2 ≤ (t.states leaf.node).length ∧ t.Stuck M options.checkValidity (t.states leaf.node)

/-- The last `count` leaves of a queue were tried in vain. -/
def Growth.TriedLast (M : Machine) (options : SplittingOptions) (t : SplittingTree) (count : Nat)
    (queue : List Pending) : Prop :=
  ∃ fresh tried, queue = fresh ++ tried ∧ tried.length = count ∧
    ∀ leaf ∈ tried, leaf.InVain M options t

/-- What holds in every turn of the work. -/
structure Growth.Consistent [RandomSource] (M : Machine) (options : SplittingOptions)
    (g : Growth) : Prop where
  divides : g.tree.Divides M
  separates : ∀ {id : Nat}, ¬ g.tree.isLeaf id →
    M.Separates options.checkValidity (g.tree.states id) (g.tree.separator id)
  grown : g.tree.Grown M options
  holds : ∃ contents, g.partition.Holds contents ∧ ∀ leaf ∈ g.queue, leaf.Matches contents g.tree
  queued : ∀ leaf ∈ g.queue, leaf.node ∈ g.tree.leaves
  apart : g.queue.Pairwise fun a b => a.block ≠ b.block ∧ a.node ≠ b.node
  waiting : ∀ id ∈ g.tree.leaves, 2 ≤ (g.tree.states id).length → ∃ leaf ∈ g.queue, leaf.node = id
  stateCount : g.successors.stateCount = M.stateCount
  recorded : ∀ depth s x, g.successors.get? depth s = some x ↔
    options.recordSuccessors ∧ g.tree.Leads M depth s x
  tight : g.successors.Tight
  order : g.order.inputs.Perm M.inputs
  tried : Growth.TriedLast M options g.tree g.stalled g.queue

/-- What is known of a finished tree: no leaf with several states can be split any further, and the
tree is complete if there is no such leaf. -/
structure SplittingResult.Final (M : Machine) (options : SplittingOptions) (r : SplittingResult) :
    Prop where
  divides : r.tree.Divides M
  separates : ∀ {id : Nat}, ¬ r.tree.isLeaf id →
    M.Separates options.checkValidity (r.tree.states id) (r.tree.separator id)
  grown : r.tree.Grown M options
  recorded : ∀ depth s x, r.successors.get? depth s = some x ↔
    options.recordSuccessors ∧ r.tree.Leads M depth s x
  tight : r.successors.Tight
  stuck : ∀ id ∈ r.tree.leaves, 2 ≤ (r.tree.states id).length →
    r.tree.Stuck M options.checkValidity (r.tree.states id)
  complete_iff : r.complete ↔ ∀ id ∈ r.tree.leaves, (r.tree.states id).length ≤ 1

namespace Growth

variable {M : Machine} {options : SplittingOptions} {leaf : Pending}
  {rest : List Pending} {w : Word}

namespace TriedLast

variable {t : SplittingTree} {count : Nat} {queue : List Pending}

theorem zero : TriedLast M options t 0 queue :=
  ⟨queue, [], (List.append_nil queue).symm, rfl, by simp⟩

/-- The first leaf of a queue is not among the last ones, unless all leaves are. -/
theorem of_cons (h : TriedLast M options t count (leaf :: rest)) :
    TriedLast M options t count rest ∨
      rest.length < count ∧ ∀ other ∈ leaf :: rest, other.InVain M options t := by
  obtain ⟨fresh, tried, hsplit, hcount, htried⟩ := h
  cases fresh with
  | nil =>
    obtain rfl : leaf :: rest = tried := hsplit
    rw [List.length_cons] at hcount
    exact .inr ⟨by omega, htried⟩
  | cons first fresh =>
    exact .inl ⟨fresh, tried, (List.cons.inj hsplit).2, hcount, htried⟩

theorem concat (h : TriedLast M options t count rest) (hv : leaf.InVain M options t) :
    TriedLast M options t (count + 1) (rest ++ [leaf]) := by
  obtain ⟨fresh, tried, rfl, rfl, htried⟩ := h
  refine ⟨fresh, tried ++ [leaf], List.append_assoc .., by simp, fun other hm => ?_⟩
  rcases List.mem_append.mp hm with hm | hm
  · exact htried other hm
  · exact List.mem_singleton.mp hm ▸ hv

theorem all (h : TriedLast M options t count queue) (hle : queue.length ≤ count) :
    ∀ other ∈ queue, other.InVain M options t := by
  obtain ⟨fresh, tried, rfl, rfl, htried⟩ := h
  have hnil : fresh = [] := by
    rw [List.length_append] at hle
    exact List.length_eq_zero_iff.mp (by omega)
  rwa [hnil, List.nil_append]

end TriedLast

/-- The blocks of the classes of a leaf are those of its block. -/
theorem classes_map_index (states : List State) (w : Word) :
    classes (states.map (·.index)) (fun e => (M.lastOutput ⟨e⟩ w).index) =
      (classes states (M.lastOutput · w)).map (List.map (·.index)) := by
  rw [classes_map]
  congr 1
  exact classes_comp Handle.index Handle.ext states (M.lastOutput · w)

theorem mapM_range' {ε α : Type} {f : Nat → Except ε α} (xs : List α) (start : Nat)
    (h : ∀ n (hn : n < xs.length), f (start + n) = .ok xs[n]) :
    (List.range' start xs.length).mapM f = .ok xs := by
  induction xs generalizing start with
  | nil => rfl
  | cons x xs ih =>
    have hrest := ih (start + 1) fun n hn => by
      rw [Nat.add_assoc, Nat.add_comm 1]
      exact h (n + 1) (by simpa using hn)
    have hfirst : f start = .ok x := h 0 (by simp)
    rw [List.length_cons, List.range'_succ, List.mapM_cons, hfirst, hrest]
    rfl

/-- The leaves that wait after a split into `count` parts, whose blocks and nodes are numbered from
`block` and `node` on. -/
def newLeaves (block node count : Nat) : List Pending :=
  (List.range' block count).zipWith Pending.mk (List.range' node count)

theorem mem_newLeaves {block node count : Nat} :
    leaf ∈ newLeaves block node count ↔ ∃ n < count, leaf = ⟨block + n, node + n⟩ := by
  rw [newLeaves, List.mem_iff_getElem]
  constructor
  · rintro ⟨n, hn, rfl⟩
    exact ⟨n, by simpa using hn, by simp⟩
  · rintro ⟨n, hn, rfl⟩
    exact ⟨n, by simpa using hn, by simp⟩

theorem pairwise_newLeaves (block node count : Nat) :
    (newLeaves block node count).Pairwise fun a b => a.block ≠ b.block ∧ a.node ≠ b.node := by
  rw [newLeaves, List.pairwise_iff_getElem]
  intro m n hm hn hlt
  simp
  omega

/-- What the blocks hold after the states of one of them moved into new blocks. -/
def newContents (contents : List (Option (List Nat))) (block : Nat) (parts : List (List State)) :
    List (Option (List Nat)) :=
  contents.set block none ++ parts.map fun part => some (part.map (·.index))

theorem getElem?_newContents_of_lt {contents : List (Option (List Nat))} {block other : Nat}
    (parts : List (List State)) (hlt : other < contents.length) (hne : block ≠ other) :
    (newContents contents block parts)[other]? = contents[other]? := by
  rw [newContents, List.getElem?_append_left (by simpa using hlt), List.getElem?_set_ne hne]

theorem getElem?_newContents_add (contents : List (Option (List Nat))) (block : Nat)
    {parts : List (List State)} {n : Nat} (hn : n < parts.length) :
    (newContents contents block parts)[contents.length + n]? =
      some (some (parts[n].map (·.index))) := by
  rw [newContents, List.getElem?_append_right (by simp)]
  simp [hn]

variable [RandomSource] {g : Growth}

/-- The growing tree after the first leaf of its queue was split. -/
def afterSplit (M : Machine) (options : SplittingOptions) (g : Growth) (leaf : Pending)
    (w : Word) (parts : List (List State)) (block : Nat) (partition : Partition)
    (order : InputOrder) : Growth where
  partition
  tree := g.tree.split leaf.node w parts
  successors :=
    if options.recordSuccessors then
      g.successors.recordWord M (g.tree.depth leaf.node) w (g.tree.states leaf.node)
    else g.successors
  queue := g.queue.tail ++ newLeaves block g.tree.size parts.length
  order
  stalled := 0

namespace Consistent

theorem states_of_queued (h : g.Consistent M options) (hl : leaf ∈ g.queue) :
    (∀ s ∈ g.tree.states leaf.node, s ∈ M.states) ∧ (g.tree.states leaf.node).Nodup := by
  obtain ⟨hlt, -⟩ := Arena.mem_leaves.mp (h.queued leaf hl)
  exact ⟨fun s => h.divides.mem_states hlt, h.divides.nodup hlt⟩

/-- The states of a waiting leaf have a place in the table of successors. -/
theorem index_lt_of_queued (h : g.Consistent M options) (hl : leaf ∈ g.queue) :
    ∀ s ∈ g.tree.states leaf.node, s.index < g.successors.stateCount := by
  intro s hm
  rw [h.stateCount]
  exact Machine.mem_states.mp ((h.states_of_queued hl).1 s hm)

/-- Splitting the block of a leaf by last outputs gives new blocks for the classes of the leaf. -/
theorem refine_block (h : g.Consistent M options) (hl : leaf ∈ g.queue)
    {contents : List (Option (List Nat))} (hp : g.partition.Holds contents)
    (hc : leaf.Matches contents g.tree)
    (hsep : M.Separates options.checkValidity (g.tree.states leaf.node) w)
    (hcount : 2 ≤ M.classCount (g.tree.states leaf.node) w) :
    let parts := classes (g.tree.states leaf.node) (M.lastOutput · w)
    ∃ q, g.partition.refine leaf.block (code M w) M.outputCount =
        .ok (List.range' contents.length parts.length, q) ∧
      q.Holds (newContents contents leaf.block parts) := by
  obtain ⟨hs, -⟩ := h.states_of_queued hl
  have inRange : ∀ e ∈ (g.tree.states leaf.node).map (·.index),
      (M.lastOutput ⟨e⟩ w).index < M.outputCount := by
    intro e he
    obtain ⟨s, hm, rfl⟩ := List.mem_map.mp he
    exact Machine.lastOutput_lt (hs s hm) hsep.ne_nil hsep.known
  have several : 2 ≤ (classes ((g.tree.states leaf.node).map (·.index))
      fun e => (M.lastOutput ⟨e⟩ w).index).length := by
    rwa [classes_map_index, List.length_map, length_classes]
  obtain ⟨q, hq, holds⟩ := hp.refine hc inRange several
  rw [classes_map_index, List.length_map] at hq
  rw [classes_map_index, List.map_map] at holds
  exact ⟨q, hq, holds⟩

/-- The separators of a tree in which a leaf was split. -/
theorem separates_split (h : g.Consistent M options) (hl : leaf ∈ g.queue)
    (hsep : M.Separates options.checkValidity (g.tree.states leaf.node) w)
    {parts : List (List State)} (hne : parts ≠ []) {id : Nat}
    (hid : ¬ (g.tree.split leaf.node w parts).isLeaf id) :
    M.Separates options.checkValidity ((g.tree.split leaf.node w parts).states id)
      ((g.tree.split leaf.node w parts).separator id) := by
  have hleaf := h.queued leaf hl
  obtain ⟨hlt, -⟩ := Arena.mem_leaves.mp hleaf
  rw [SplittingTree.isLeaf_split hleaf w hne, not_and_or, Decidable.not_not] at hid
  rw [SplittingTree.separator_split hlt]
  by_cases heq : id = leaf.node
  · subst heq
    rwa [if_pos rfl, SplittingTree.states_split_of_lt hlt]
  · have hinner := hid.resolve_left heq
    rw [if_neg heq, SplittingTree.states_split_of_lt (Arena.lt_size_of_not_isLeaf hinner)]
    exact h.separates hinner

/-- The successors that are recorded after a leaf was split. -/
theorem recorded_split (h : g.Consistent M options) (hl : leaf ∈ g.queue)
    {parts : List (List State)} (hne : parts ≠ []) (depth : Nat) (s x : State) :
    (if options.recordSuccessors then
        g.successors.recordWord M (g.tree.depth leaf.node) w (g.tree.states leaf.node)
      else g.successors).get? depth s = some x ↔
      options.recordSuccessors ∧ (g.tree.split leaf.node w parts).Leads M depth s x := by
  have hleaf := h.queued leaf hl
  have hold := h.recorded depth s x
  rw [SplittingTree.leads_split_iff hleaf w hne]
  cases hr : options.recordSuccessors
  case false => simpa [hr] using hold
  case true =>
    simp only [hr, true_and, if_true] at hold ⊢
    rw [SuccessorTable.get?_recordWord M _ _ w (h.index_lt_of_queued hl), ← hold]
    by_cases hnew : g.tree.depth leaf.node = depth ∧ s ∈ g.tree.states leaf.node
    · obtain ⟨rfl, hm⟩ := hnew
      have absent : ¬ g.successors.get? (g.tree.depth leaf.node) s = some x := fun hget =>
        h.divides.not_leads hleaf hm (hold.mp hget)
      simp [hm, absent]
    · rw [if_neg hnew]
      exact (or_iff_right fun ⟨hdepth, hm, _⟩ => hnew ⟨hdepth, hm⟩).symm

/-- The table has no row too many after a leaf was split. -/
theorem tight_split (h : g.Consistent M options) (hl : leaf ∈ g.queue) :
    (if options.recordSuccessors then
        g.successors.recordWord M (g.tree.depth leaf.node) w (g.tree.states leaf.node)
      else g.successors).Tight := by
  split
  · exact h.tight.recordWord M _ w (h.index_lt_of_queued hl)
  · exact h.tight

/-- After a split the waiting leaves still come with their blocks. -/
theorem holds_afterSplit (h : g.Consistent M options) (hq : g.queue = leaf :: rest)
    {contents : List (Option (List Nat))}
    (hc : ∀ leaf ∈ g.queue, leaf.Matches contents g.tree) (w : Word) (parts : List (List State)) :
    ∀ other ∈ rest ++ newLeaves contents.length g.tree.size parts.length,
      other.Matches (newContents contents leaf.block parts) (g.tree.split leaf.node w parts) := by
  intro other hm
  obtain ⟨hfirst, -⟩ := List.pairwise_cons.mp (hq ▸ h.apart)
  rcases List.mem_append.mp hm with hm | hm
  · have hold : other ∈ g.queue := hq ▸ List.mem_cons_of_mem _ hm
    obtain ⟨hnode, -⟩ := Arena.mem_leaves.mp (h.queued other hold)
    rw [Pending.Matches, getElem?_newContents_of_lt parts (hc other hold).block_lt
      (hfirst other hm).1, SplittingTree.states_split_of_lt hnode]
    exact hc other hold
  · obtain ⟨n, hn, rfl⟩ := mem_newLeaves.mp hm
    rw [Pending.Matches, getElem?_newContents_add contents leaf.block hn,
      SplittingTree.states_split_add _ _ hn]

/-- After a split the leaves with several states wait, and only leaves wait. -/
theorem waiting_afterSplit (h : g.Consistent M options) (hq : g.queue = leaf :: rest)
    (block : Nat) (w : Word) {parts : List (List State)} (hne : parts ≠ []) :
    let t := g.tree.split leaf.node w parts
    let queue := rest ++ newLeaves block g.tree.size parts.length
    (∀ other ∈ queue, other.node ∈ t.leaves) ∧
      ∀ id ∈ t.leaves, 2 ≤ (t.states id).length → ∃ other ∈ queue, other.node = id := by
  intro t queue
  have hleaf := h.queued leaf (hq ▸ List.mem_cons_self)
  obtain ⟨hfirst, -⟩ := List.pairwise_cons.mp (hq ▸ h.apart)
  constructor
  · intro other hm
    rw [SplittingTree.mem_leaves_split hleaf w hne]
    rcases List.mem_append.mp hm with hm | hm
    · exact .inl ⟨(hfirst other hm).2.symm, h.queued other (hq ▸ List.mem_cons_of_mem _ hm)⟩
    · obtain ⟨n, hn, rfl⟩ := mem_newLeaves.mp hm
      exact .inr ⟨n, hn, rfl⟩
  · intro id hid hlen
    rcases (SplittingTree.mem_leaves_split hleaf w hne).mp hid with ⟨hother, hid⟩ | ⟨n, hn, rfl⟩
    · rw [SplittingTree.states_split_of_lt (Arena.mem_leaves.mp hid).1] at hlen
      obtain ⟨other, hm, rfl⟩ := h.waiting id hid hlen
      rcases List.mem_cons.mp (hq ▸ hm) with rfl | hm
      · exact absurd rfl hother
      · exact ⟨other, List.mem_append_left _ hm, rfl⟩
    · exact ⟨_, List.mem_append_right _ (mem_newLeaves.mpr ⟨n, hn, rfl⟩), rfl⟩

/-- After a split no two waiting leaves share a block or a node. -/
theorem apart_afterSplit (h : g.Consistent M options) (hq : g.queue = leaf :: rest)
    {contents : List (Option (List Nat))}
    (hc : ∀ leaf ∈ g.queue, leaf.Matches contents g.tree) (count : Nat) :
    (rest ++ newLeaves contents.length g.tree.size count).Pairwise
      fun a b => a.block ≠ b.block ∧ a.node ≠ b.node := by
  obtain ⟨-, hpairs⟩ := List.pairwise_cons.mp (hq ▸ h.apart)
  refine List.pairwise_append.mpr ⟨hpairs, pairwise_newLeaves _ _ _, fun a ha b hb => ?_⟩
  have hold : a ∈ g.queue := hq ▸ List.mem_cons_of_mem _ ha
  have hblock := (hc a hold).block_lt
  obtain ⟨hnode, -⟩ := Arena.mem_leaves.mp (h.queued a hold)
  obtain ⟨n, -, rfl⟩ := mem_newLeaves.mp hb
  dsimp only
  omega

/-- A split on a word that is found and separates the states of a leaf succeeds, and its result is
consistent. -/
theorem commit (h : g.Consistent M options) (hq : g.queue = leaf :: rest)
    (hsep : M.Separates options.checkValidity (g.tree.states leaf.node) w)
    (hcount : 2 ≤ M.classCount (g.tree.states leaf.node) w) {order : InputOrder}
    (ho : order.inputs.Perm M.inputs)
    (hf : g.tree.findSplit M options (g.tree.states leaf.node) order.inputs = .ok (some w)) :
    ∃ g', commit M options { g with queue := rest, order } leaf w = .ok g' ∧
      g'.Consistent M options := by
  have hl : leaf ∈ g.queue := hq ▸ List.mem_cons_self
  obtain ⟨contents, hp, hc⟩ := h.holds
  obtain ⟨q, hrefine, hholds⟩ := h.refine_block hl hp (hc leaf hl) hsep hcount
  generalize hparts : classes (g.tree.states leaf.node) (M.lastOutput · w) = parts
    at hrefine hholds
  have htwo : 2 ≤ parts.length := by rwa [← hparts, length_classes]
  have hne : parts ≠ [] := List.length_pos_iff.mp (by omega)
  obtain ⟨hqueued, hwaiting⟩ := h.waiting_afterSplit hq contents.length w hne
  refine ⟨g.afterSplit M options leaf w parts contents.length q order, ?_, ?_⟩
  · have hmembers : (List.range' contents.length parts.length).mapM q.members =
        .ok (parts.map (List.map (·.index))) := by
      have := mapM_range' (f := q.members) (parts.map (List.map (·.index))) contents.length
        fun n hn => by
          rw [List.length_map] at hn
          simpa using hholds.members (getElem?_newContents_add contents leaf.block hn)
      rwa [List.length_map] at this
    have hback : (parts.map (List.map (·.index))).map (·.map Handle.mk) = parts := by
      simp [Function.comp_def]
    simp only [Growth.commit, install, hrefine, List.length_range', if_neg (Nat.not_lt.mpr htwo),
      hmembers, hback, afterSplit, newLeaves, hq, List.tail_cons]
  · have hqueue : (g.afterSplit M options leaf w parts contents.length q order).queue =
        rest ++ newLeaves contents.length g.tree.size parts.length := by
      rw [afterSplit, hq, List.tail_cons]
    constructor
    · exact h.divides.split (h.queued leaf hl) hparts.symm htwo
    · exact h.separates_split hl hsep hne
    · exact hparts ▸ h.grown.split h.divides (h.queued leaf hl) ho hf
    · exact ⟨_, hholds, hqueue ▸ h.holds_afterSplit hq hc w parts⟩
    · exact hqueue ▸ hqueued
    · exact hqueue ▸ h.apart_afterSplit hq hc parts.length
    · exact hqueue ▸ hwaiting
    · have := h.stateCount
      simp only [afterSplit]
      split <;> simpa using this
    · exact h.recorded_split hl hne
    · exact h.tight_split hl
    · exact ho
    · exact .zero

end Consistent

end Growth

end StateIdentification
