import StateIdentification.Proofs.DerivationStep
import StateIdentification.Proofs.GrowthRun

/-!
# Splitting trees describe experiments

The children of a node of a splitting tree are the outcomes of its separator. Applying it loses no
candidate if it does not merge them, which the derivation of an experiment checks and valid splits
guarantee. Every expansion of a node divides its candidates among at least two children, which
bounds the number of nodes.

## Main definitions

- `AdaptiveSequence.outcome`: the candidates that are left in one outcome.
- `AdaptiveSequence.Settled`: the tree does not tell how to go on.
- `AdaptiveSequence.Expanding`: the sequence was expanded up to some node.

## Main results

- `SplittingResult.Final.outcomes`: the children of a node of the tree are the outcomes of its
  separator.
- `AdaptiveSequence.Expanding.of_expand`: what an expansion leads to, if it succeeds.
- `AdaptiveSequence.describes_of_ofTree`: whatever is derived from a tree describes an experiment.
- `AdaptiveSequence.ofTree_describes`: the derivation succeeds, however many steps it may take.
-/

namespace StateIdentification

namespace AdaptiveSequence

/-- The candidates that are in a child of the node `oracle`, behind the separator of `oracle`. -/
def outcome (M : Machine) (t : SplittingTree) (oracle : Nat) (cs : List Candidate) (child : Nat) :
    List Candidate :=
  ((cs.filter (·.current ∈ t.states child)).map (·.after M (t.separator oracle))).mergeSort
    fun c d => c.current ≤ d.current

/-- Candidates of which the tree does not tell how to go on: there is at most one, or their states
are in one leaf. -/
def Settled (t : SplittingTree) (cs : List Candidate) : Prop :=
  cs.length < 2 ∨ ∃ leaf ∈ t.leaves, ∀ y ∈ cs, y.current ∈ t.states leaf

variable {M : Machine} {options : SplittingOptions} {r : SplittingResult} {oracle child : Nat}
  {cs : List Candidate} {x y : Candidate}

theorem mem_outcome {t : SplittingTree} : x ∈ outcome M t oracle cs child ↔
    ∃ y ∈ cs, y.current ∈ t.states child ∧ y.after M (t.separator oracle) = x := by
  simp [outcome, and_assoc]

/-- Whether a candidate is in an outcome tells in which child it was. -/
theorem after_mem_outcome {t : SplittingTree} (hi : (cs.map (·.initial)).Nodup) (hy : y ∈ cs) :
    y.after M (t.separator oracle) ∈ outcome M t oracle cs child ↔
      y.current ∈ t.states child := by
  rw [mem_outcome]
  constructor
  · rintro ⟨z, hz, hzc, heq⟩
    have hinitial := congrArg Candidate.initial heq
    exact List.inj_on_of_nodup_map hi hz hy hinitial ▸ hzc
  · exact fun hyc => ⟨y, hy, hyc, rfl⟩

/-- The outcomes of the separator of a node that are possible. -/
def possible (M : Machine) (t : SplittingTree) (oracle : Nat) (cs : List Candidate) :
    List (List Candidate) :=
  ((t.children oracle).map (outcome M t oracle cs)).filter (!·.isEmpty)

/-- The node whose separator is applied holds the states of all candidates, and unless it is a leaf,
several outcomes are possible. -/
theorem oracleOf_spec {t : SplittingTree} (h : t.Divides M) (hne : cs ≠ [])
    (hs : ∀ y ∈ cs, y.current ∈ M.states) :
    oracleOf t cs < t.size ∧ (∀ y ∈ cs, y.current ∈ t.states (oracleOf t cs)) ∧
      (¬ t.isLeaf (oracleOf t cs) → 2 ≤ (possible M t (oracleOf t cs) cs).length) := by
  have hquery {y : Candidate} (hy : y ∈ cs) : (cs.map (·.current)).contains y.current :=
    List.contains_iff_mem.mpr (List.mem_map_of_mem hy)
  obtain ⟨first, hfirst⟩ := List.exists_mem_of_ne_nil _ hne
  obtain ⟨hsize, hall, hinner⟩ := h.lowestCommonAncestor_spec
    (p := ((cs.map (·.current)).contains ·)) ∅ ⟨_, hs first hfirst, hquery hfirst⟩
  refine ⟨hsize, fun y hy => hall _ (hs y hy) (hquery hy), fun hl => ?_⟩
  rw [possible, ← List.countP_eq_length_filter, List.countP_map]
  refine (hinner hl).trans_eq (List.countP_congr fun c hc => ?_)
  -- a child is marked if its outcome has a candidate
  have hmark := h.marked_iff (p := ((cs.map (·.current)).contains ·)) ∅
    (Arena.lt_size_of_mem_children hc)
  have hpossible : outcome M t (oracleOf t cs) cs c ≠ [] ↔
      ∃ y ∈ cs, y.current ∈ t.states c := by
    constructor
    · intro hne
      obtain ⟨x, hx⟩ := List.exists_mem_of_ne_nil _ hne
      obtain ⟨y, hy, hyc, -⟩ := mem_outcome.mp hx
      exact ⟨y, hy, hyc⟩
    · rintro ⟨y, hy, hyc⟩
      exact List.ne_nil_of_mem (mem_outcome.mpr ⟨y, hy, hyc, rfl⟩)
  simp only [Function.comp_apply, Bool.not_eq_true', List.isEmpty_eq_false_iff, hpossible,
    decide_eq_true_eq, List.contains_iff_mem, List.mem_map] at hmark ⊢
  refine Iff.trans hmark ?_
  grind

end AdaptiveSequence

namespace SplittingResult.Final

open AdaptiveSequence

variable {M : Machine} {options : SplittingOptions} {r : SplittingResult} {oracle child : Nat}
  {cs : List Candidate}

/-- In an outcome no two candidates are in the same state, as a valid separator merges no states
with the same last output. -/
theorem nodup_outcome (h : r.Final M options) (hv : options.checkValidity)
    (hc : (cs.map (·.current)).Nodup) (hchild : child ∈ r.tree.children oracle) :
    ((outcome M r.tree oracle cs child).map (·.current)).Nodup := by
  have hsep := h.separates (Arena.not_isLeaf_of_mem hchild)
  rw [outcome, ((List.mergeSort_perm _ _).map _).nodup_iff, List.map_map]
  have hfilter : (cs.filter (·.current ∈ r.tree.states child)).Nodup := hc.of_map.filter _
  refine (List.nodup_map_iff_inj_on hfilter).mpr fun y hy z hz heq => ?_
  simp only [List.mem_filter, decide_eq_true_eq] at hy hz
  refine List.inj_on_of_nodup_map hc hy.1 hz.1 ?_
  exact hsep.late hv _ (h.divides.mem_of_mem_child hchild hy.2) _
    (h.divides.mem_of_mem_child hchild hz.2)
    ((h.divides.lastOutput_eq_iff hchild hchild hy.2 hz.2).mpr rfl) heq

/-- The successor of every candidate in a node is recorded. -/
theorem move_eq (h : r.Final M options) (hrec : options.recordSuccessors)
    (hl : ¬ r.tree.isLeaf oracle) {y : Candidate} (hy : y.current ∈ r.tree.states oracle) :
    move r oracle y = .ok (y.after M (r.tree.separator oracle)) := by
  have hget := (h.recorded (r.tree.depth oracle) y.current _).mpr
    ⟨hrec, (h.divides.leads_iff hl hy).mpr rfl⟩
  rw [move, hget]
  rfl

/-- A candidate is only moved on by the separator of the node. -/
theorem eq_after_of_move (h : r.Final M options) (hl : ¬ r.tree.isLeaf oracle) {x y : Candidate}
    (hy : y.current ∈ r.tree.states oracle) (hm : move r oracle y = .ok x) :
    x = y.after M (r.tree.separator oracle) := by
  rw [move] at hm
  split at hm
  case h_1 s hget =>
    obtain ⟨-, hleads⟩ := (h.recorded _ _ _).mp hget
    rw [Candidate.after, (h.divides.leads_iff hl hy).mp hleads]
    exact (Except.ok.inj hm).symm
  case h_2 => cases hm

/-- By a valid separator with recorded successors, moving the candidates on never fails. -/
theorem advance_eq (h : r.Final M options) (hv : options.checkValidity)
    (hrec : options.recordSuccessors) (hc : (cs.map (·.current)).Nodup)
    (hchild : child ∈ r.tree.children oracle) :
    advance r oracle cs child = .ok (outcome M r.tree oracle cs child) := by
  have hmoved : (cs.filter (·.current ∈ r.tree.states child)).mapM (move r oracle) =
      .ok ((cs.filter (·.current ∈ r.tree.states child)).map
        (·.after M (r.tree.separator oracle))) := by
    refine mapM_ok fun y hy => h.move_eq hrec (Arena.not_isLeaf_of_mem hchild) ?_
    exact h.divides.mem_of_mem_child hchild (of_decide_eq_true (List.mem_filter.mp hy).2)
  rw [advance, hmoved]
  exact if_pos (h.nodup_outcome hv hc hchild)

/-- If moving the candidates on succeeds, it leads to the outcome, and merges no states. -/
theorem eq_outcome_of_advance (h : r.Final M options) (hchild : child ∈ r.tree.children oracle)
    {part : List Candidate} (ha : advance r oracle cs child = .ok part) :
    part = outcome M r.tree oracle cs child ∧ (part.map (·.current)).Nodup := by
  obtain ⟨rfl, hn, hrecorded⟩ := eq_arrivals_of_advance ha
  refine ⟨congrArg (List.mergeSort · _) (List.map_congr_left fun y hy => ?_), hn⟩
  obtain ⟨hycs, hyc⟩ := List.mem_filter.mp hy
  have hyc := of_decide_eq_true hyc
  exact h.eq_after_of_move (Arena.not_isLeaf_of_mem hchild)
    (h.divides.mem_of_mem_child hchild hyc) (move_eq_ok.mpr ⟨hrecorded y hycs hyc, rfl⟩)

/-- The children of a node of the tree are the outcomes of its separator. -/
theorem outcomes (h : r.Final M options) (hl : ¬ r.tree.isLeaf oracle)
    (hi : (cs.map (·.initial)).Nodup) (hall : ∀ y ∈ cs, y.current ∈ r.tree.states oracle)
    (hn : ∀ child ∈ r.tree.children oracle,
      ((outcome M r.tree oracle cs child).map (·.current)).Nodup) :
    Outcomes M cs (r.tree.separator oracle) (possible M r.tree oracle cs) := by
  have hsep := h.separates hl
  have answers {y z : Candidate} (hy : y ∈ cs) (hz : z ∈ cs) :
      M.outputs y.current (r.tree.separator oracle) =
          M.outputs z.current (r.tree.separator oracle) ↔
        M.lastOutput y.current (r.tree.separator oracle) =
          M.lastOutput z.current (r.tree.separator oracle) := by
    rw [Machine.outputs_eq_iff hsep.ne_nil]
    exact and_iff_right (hsep.agree _ (hall y hy) _ (hall z hz))
  have child_of {part : List Candidate} (hp : part ∈ possible M r.tree oracle cs) :
      ∃ c ∈ r.tree.children oracle, outcome M r.tree oracle cs c = part :=
    List.mem_map.mp (List.mem_filter.mp hp).1
  constructor
  · intro part hp
    simpa using (List.mem_filter.mp hp).2
  · intro part hp
    obtain ⟨c, hchild, rfl⟩ := child_of hp
    exact ascending_mergeSort (hn c hchild)
  · intro part hp x hx
    obtain ⟨c, -, rfl⟩ := child_of hp
    obtain ⟨y, hy, -, heq⟩ := mem_outcome.mp hx
    exact ⟨y, hy, heq⟩
  · intro y hy
    obtain ⟨c, hchild, hyc⟩ := h.divides.exists_child hl (hall y hy)
    have hm : y.after M (r.tree.separator oracle) ∈ outcome M r.tree oracle cs c :=
      (after_mem_outcome hi hy).mpr hyc
    exact ⟨_, List.mem_filter.mpr ⟨List.mem_map_of_mem hchild, by
      simpa using List.ne_nil_of_mem hm⟩, hm⟩
  · intro part hp y hy z hz hyp hzp
    obtain ⟨c, hchild, rfl⟩ := child_of hp
    rw [after_mem_outcome hi hy] at hyp
    rw [after_mem_outcome hi hz] at hzp
    exact (answers hy hz).mpr ((h.divides.lastOutput_eq_iff hchild hchild hyp hzp).mpr rfl)
  · refine List.Pairwise.filter _ (List.pairwise_map.mpr ?_)
    refine (h.divides.nodup_children oracle).imp_of_mem fun {c d} hchild hother hne => ?_
    intro y hy z hz hyc hzd heq
    rw [after_mem_outcome hi hy] at hyc
    rw [after_mem_outcome hi hz] at hzd
    exact hne ((h.divides.lastOutput_eq_iff hchild hother hyc hzd).mp ((answers hy hz).mp heq))

end SplittingResult.Final

namespace AdaptiveSequence

/-- The nodes before `id` have been expanded, and the others are still leaves. -/
structure Expanding (M : Machine) (t : SplittingTree) (a : AdaptiveSequence) (id : Nat) : Prop where
  describes : a.Describes M
  fresh : ∀ c, id ≤ c → a.isLeaf c
  settled : ∀ leaf ∈ a.leaves, leaf < id → Settled t (a.candidates leaf)

/-- A bound for the nodes that are still to be expanded: `n` candidates fill at most `2 * n - 1`
nodes of a tree in which every expansion divides them. -/
def room (a : AdaptiveSequence) (id : Nat) : Nat :=
  total (fun c => 2 * (a.candidates c).length - 1) (List.range' id (a.size - id))

section Room

variable {a : AdaptiveSequence} {id : Nat} {parts : List (List Candidate)}

theorem room_of_lt (h : id < a.size) :
    a.room id = 2 * (a.candidates id).length - 1 + a.room (id + 1) := by
  have hsize : a.size - id = a.size - (id + 1) + 1 := by omega
  rw [room, hsize, List.range'_succ, total, room]

theorem room_extend (id : Nat) (w : Word) {k : Nat} (hk : k ≤ a.size) :
    (a.extend id w parts).room k = a.room k + total (fun part => 2 * part.length - 1) parts := by
  have hrange : List.range' k (a.size + parts.length - k) =
      List.range' k (a.size - k) ++ List.range' a.size parts.length := by
    have := List.range'_append_1 (s := k) (m := a.size - k) (n := parts.length)
    rw [show k + (a.size - k) = a.size by omega] at this
    rw [this]
    congr 1
    omega
  rw [room, size_extend, hrange, total_append, room]
  congr 1
  · refine total_congr fun c hc => ?_
    have := (List.mem_range'_1.mp hc).2
    rw [candidates_extend_of_lt (by omega)]
  · have hnew := map_candidates_extend a id w parts
    calc total (fun c => 2 * ((a.extend id w parts).candidates c).length - 1)
          (List.range' a.size parts.length)
        = total (fun part => 2 * part.length - 1)
            ((List.range' a.size parts.length).map (a.extend id w parts).candidates) :=
          (total_map (fun part : List Candidate => 2 * part.length - 1) _ _).symm
      _ = total (fun part => 2 * part.length - 1) parts := by rw [hnew]

theorem total_room (h : ∀ part ∈ parts, part ≠ []) :
    total (fun part => 2 * part.length - 1) parts + parts.length =
      2 * total List.length parts := by
  induction parts with
  | nil => rfl
  | cons part parts ih =>
    obtain ⟨hpart, hparts⟩ := List.forall_mem_cons.mp h
    have hrest := ih hparts
    have hpos := List.length_pos_iff.mpr hpart
    simp only [total, List.length_cons]
    omega

end Room

namespace Expanding

variable {M : Machine} {options : SplittingOptions} {r : SplittingResult} {a : AdaptiveSequence}
  {id : Nat}

/-- A node of which the tree does not tell how to go on may stay a leaf. -/
theorem skip (h : Expanding M r.tree a id) (hs : Settled r.tree (a.candidates id)) :
    Expanding M r.tree a (id + 1) := by
  refine ⟨h.describes, fun c hc => h.fresh c (by omega), fun leaf hleaf hlt => ?_⟩
  rcases Nat.lt_succ_iff_lt_or_eq.mp hlt with hlt | rfl
  · exact h.settled leaf hleaf hlt
  · exact hs

/-- Every node that is still to be expanded takes room. -/
theorem room_succ_lt (h : Expanding M r.tree a id) (hid : id < a.size) :
    a.room (id + 1) < a.room id := by
  have := List.length_pos_iff.mpr (h.describes.candidates_ne_nil hid)
  rw [room_of_lt hid]
  omega

theorem size_le_of_room (h : Expanding M r.tree a id) (hroom : a.room id = 0) : a.size ≤ id := by
  by_contra hid
  exact absurd (h.room_succ_lt (Nat.not_le.mp hid)) (by omega)

/-- When all nodes have been expanded, the tree does not tell how to go on from any leaf. -/
theorem done (h : Expanding M r.tree a id) (hid : a.size ≤ id) :
    a.Describes M ∧ ∀ leaf ∈ a.leaves, Settled r.tree (a.candidates leaf) :=
  ⟨h.describes, fun leaf hleaf =>
    h.settled leaf hleaf ((Arena.mem_leaves.mp hleaf).1.trans_le hid)⟩

theorem extend (h : Expanding M r.tree a id) (hid : id < a.size) {w : Word}
    (hw : ∀ i ∈ w, i ∈ M.inputs) {parts : List (List Candidate)}
    (ho : Outcomes M (a.candidates id) w parts) (htwo : 2 ≤ parts.length) :
    Expanding M r.tree (a.extend id w parts) (id + 1) ∧
      (a.extend id w parts).room (id + 1) < a.room id := by
  have hleaf : id ∈ a.leaves := Arena.mem_leaves.mpr ⟨hid, h.fresh id (Nat.le_refl id)⟩
  have hne : parts ≠ [] := List.length_pos_iff.mp (by omega)
  have hlabels : parts.map (Stage.mk · []) ≠ [] := by simpa using hne
  refine ⟨⟨h.describes.extend hleaf hw ho hne, fun c hc => ?_, fun leaf hl hlt => ?_⟩, ?_⟩
  · exact (Arena.isLeaf_grow hleaf hlabels).mpr ⟨by omega, h.fresh c (by omega)⟩
  · rcases (Arena.mem_leaves_grow hleaf hlabels).mp hl with ⟨hother, hl⟩ | ⟨n, -, rfl⟩
    · rw [candidates_extend_of_lt (Arena.mem_leaves.mp hl).1]
      exact h.settled leaf hl (by omega)
    · omega
  · have hsum := ho.total_length (h.describes.initial_nodup hid)
    have hroom := total_room ho.occupied
    rw [room_extend id w (by omega), room_of_lt hid]
    omega

/-- If an expansion succeeds, the nodes up to `id` have been expanded, and less is left to be
expanded. -/
theorem of_expand (h : Expanding M r.tree a id) (hr : r.Final M options) (hid : id < a.size)
    {a' : AdaptiveSequence} (he : expand r a id = .ok a') :
    Expanding M r.tree a' (id + 1) ∧ a'.room (id + 1) < a.room id := by
  obtain ⟨hsize, hcurrent, -⟩ := oracleOf_spec hr.divides (h.describes.candidates_ne_nil hid)
    fun y hy => (h.describes.mem_states hid hy).1
  obtain ⟨rfl, hlen | hl⟩ | ⟨parts, hl, hparts, htwo, rfl⟩ := expand_cases he
  · exact ⟨h.skip (.inl hlen), h.room_succ_lt hid⟩
  · have hleaf := Arena.mem_leaves.mpr ⟨hsize, hl⟩
    exact ⟨h.skip (.inr ⟨_, hleaf, hcurrent⟩), h.room_succ_lt hid⟩
  · obtain ⟨rfl, hall⟩ := eq_map_of_mapM_ok hparts fun child hchild part ha =>
      (hr.eq_outcome_of_advance hchild ha).1
    refine h.extend hid (hr.separates hl).known ?_ htwo
    exact hr.outcomes hl (h.describes.initial_nodup hid) hcurrent
      fun child hchild => (hr.eq_outcome_of_advance hchild (hall child hchild)).2

/-- An expansion by valid splits with recorded successors succeeds. -/
theorem exists_expand (h : Expanding M r.tree a id) (hr : r.Final M options)
    (hv : options.checkValidity) (hrec : options.recordSuccessors) (hid : id < a.size) :
    ∃ a', expand r a id = .ok a' := by
  by_cases hlen : (a.candidates id).length < 2
  · exact ⟨a, if_pos hlen⟩
  by_cases hl : r.tree.isLeaf (oracleOf r.tree (a.candidates id))
  · exact ⟨a, (if_neg hlen).trans (if_pos hl)⟩
  have hparts : (r.tree.children (oracleOf r.tree (a.candidates id))).mapM
      (advance r (oracleOf r.tree (a.candidates id)) (a.candidates id)) =
        .ok ((r.tree.children (oracleOf r.tree (a.candidates id))).map
          (outcome M r.tree (oracleOf r.tree (a.candidates id)) (a.candidates id))) :=
    mapM_ok fun child hchild => hr.advance_eq hv hrec (h.describes.current_nodup hid) hchild
  obtain ⟨-, -, hinner⟩ := oracleOf_spec hr.divides (h.describes.candidates_ne_nil hid)
    fun y hy => (h.describes.mem_states hid hy).1
  rw [expand, if_neg hlen, if_neg hl, hparts]
  exact ⟨_, if_neg (Nat.not_lt.mpr (hinner hl))⟩

/-- Whatever comes of a derivation describes an experiment, in which the tree does not tell how to
go on from any leaf. -/
theorem of_expandFrom (h : Expanding M r.tree a id) (hr : r.Final M options) {steps : Nat}
    (hle : a.room id ≤ steps) {a' : AdaptiveSequence} (he : expandFrom r steps id a = .ok a') :
    a'.Describes M ∧ ∀ leaf ∈ a'.leaves, Settled r.tree (a'.candidates leaf) := by
  induction steps generalizing a id with
  | zero =>
    obtain rfl := Except.ok.inj he
    exact h.done (h.size_le_of_room (Nat.le_zero.mp hle))
  | succ steps ih =>
    rw [expandFrom] at he
    split at he
    case isTrue hid =>
      obtain ⟨next, hnext, he⟩ := bind_eq_ok.mp he
      obtain ⟨hexp, hroom⟩ := h.of_expand hr hid hnext
      exact ih hexp (by omega) he
    case isFalse hid =>
      obtain rfl := Except.ok.inj he
      exact h.done (Nat.not_lt.mp hid)

/-- More steps than there is room for make no difference. -/
theorem expandFrom_succ (h : Expanding M r.tree a id) (hr : r.Final M options) {steps : Nat}
    (hle : a.room id ≤ steps) : expandFrom r (steps + 1) id a = expandFrom r steps id a := by
  induction steps generalizing a id with
  | zero =>
    have := h.size_le_of_room (Nat.le_zero.mp hle)
    exact if_neg (Nat.not_lt.mpr this)
  | succ steps ih =>
    rw [expandFrom, expandFrom]
    split
    case isTrue hid =>
      cases hnext : expand r a id with
      | error e => rfl
      | ok next =>
        obtain ⟨hexp, hroom⟩ := h.of_expand hr hid hnext
        exact ih hexp (by omega)
    case isFalse => rfl

/-- The derivation by valid splits with recorded successors succeeds. -/
theorem exists_expandFrom (h : Expanding M r.tree a id) (hr : r.Final M options)
    (hv : options.checkValidity) (hrec : options.recordSuccessors) (steps : Nat) :
    ∃ a', expandFrom r steps id a = .ok a' := by
  induction steps generalizing a id with
  | zero => exact ⟨a, rfl⟩
  | succ steps ih =>
    rw [expandFrom]
    split
    case isTrue hid =>
      obtain ⟨next, hnext⟩ := h.exists_expand hr hv hrec hid
      rw [hnext]
      exact ih (h.of_expand hr hid hnext).1
    case isFalse => exact ⟨a, rfl⟩

end Expanding

/-- The derivation starts with the experiment that applies nothing. -/
theorem expanding_idle (M : Machine) (t : SplittingTree) :
    Expanding M t (idle M.stateCount) Arena.root where
  describes := describes_idle M
  fresh _ _ := Arena.isLeaf_iff.mpr (Arena.children_single _ _)
  settled _ _ hlt := absurd hlt (Nat.not_lt_zero _)

section OfTree

variable {M : Machine} {options : SplittingOptions} {r : SplittingResult}

theorem room_idle (M : Machine) : (idle M.stateCount).room Arena.root ≤ 2 * M.stateCount := by
  have hcandidates : ((idle M.stateCount).candidates Arena.root).length = M.stateCount := by
    simp [candidates, idle]
  rw [room_of_lt (Arena.root_lt_size _), hcandidates]
  simp [room, idle, Arena.root]

/-- The bound for the number of steps does not cut the derivation short. -/
theorem expandFrom_eq_ofTree (hr : r.Final M options) {steps : Nat}
    (hle : 2 * M.stateCount ≤ steps) :
    expandFrom r steps Arena.root (idle M.stateCount) = ofTree r := by
  induction steps, hle using Nat.le_induction with
  | base => rw [ofTree, hr.divides.stateCount_eq]
  | succ steps hle ih =>
    rw [(expanding_idle M r.tree).expandFrom_succ hr ((room_idle M).trans hle), ih]

/-- Whatever is derived from a finished tree describes an experiment, in which the tree does not
tell how to go on from any leaf. -/
theorem describes_of_ofTree (hr : r.Final M options) {a : AdaptiveSequence}
    (ha : ofTree r = .ok a) :
    a.Describes M ∧ ∀ leaf ∈ a.leaves, Settled r.tree (a.candidates leaf) := by
  rw [← expandFrom_eq_ofTree hr (Nat.le_refl _)] at ha
  exact (expanding_idle M r.tree).of_expandFrom hr (room_idle M) ha

/-- The derivation from a finished tree with valid splits and recorded successors succeeds. -/
theorem exists_ofTree (hr : r.Final M options) (hv : options.checkValidity)
    (hrec : options.recordSuccessors) : ∃ a, ofTree r = .ok a := by
  rw [← expandFrom_eq_ofTree hr (Nat.le_refl _)]
  exact (expanding_idle M r.tree).exists_expandFrom hr hv hrec _

/-- A finished tree with valid splits and recorded successors describes an experiment, in which the
tree does not tell how to go on from any leaf. The bound for the number of steps does not cut the
derivation short. -/
theorem ofTree_describes (hr : r.Final M options) (hv : options.checkValidity)
    (hrec : options.recordSuccessors) :
    ∃ a, ofTree r = .ok a ∧
      (∀ steps, 2 * M.stateCount ≤ steps →
        expandFrom r steps Arena.root (idle M.stateCount) = .ok a) ∧
      a.Describes M ∧ ∀ leaf ∈ a.leaves, Settled r.tree (a.candidates leaf) := by
  obtain ⟨a, ha⟩ := exists_ofTree hr hv hrec
  exact ⟨a, ha, fun steps hle => (expandFrom_eq_ofTree hr hle).trans ha, describes_of_ofTree hr ha⟩

end OfTree

end AdaptiveSequence

end StateIdentification
