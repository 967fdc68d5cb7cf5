import StateIdentification.Proofs.ArenaCounting
import StateIdentification.Proofs.SequenceDerivation

/-!
# Derivations with arbitrary successors

A derivation trusts a splitting tree, but not the successors that are recorded for it. Whatever they
are, every expansion that succeeds divides the candidates of a node among several children, and no
initial state is in two of them. So there is an end to it, and the number of nodes is bounded. All
that can go wrong is found out, and then no sequence is returned.

## Main definitions

- `SplittingTree.Orderly`: what a derivation relies on.
- `AdaptiveSequence.Passes`: the course of a derivation.
- `AdaptiveSequence.meet`: the candidates whose states are in a list, by going through both lists.
- `AdaptiveSequence.Divided`: how the candidates of a node are divided among its children.
- `AdaptiveSequence.Narrowing`: what a derivation has built so far.
- `AdaptiveSequence.Robust`: what can be said about a derivation with any successors.

## Main results

- `AdaptiveSequence.divided_of_mapM`: an expansion divides the candidates.
- `AdaptiveSequence.Passes.narrowing`: what a derivation builds.
- `AdaptiveSequence.Narrowing.size_le`: the number of nodes.
- `AdaptiveSequence.ofTree_robust`: derivations from the trees of machines, and from trees of one
  leaf.
-/

namespace StateIdentification

/-- The tree is for the first `size` states, the states of every node ascend, and the children of a
node have no state in common. -/
structure SplittingTree.Orderly (t : SplittingTree) (size : Nat) : Prop where
  stateCount_eq : t.stateCount = size
  ascending : ∀ {id : Nat}, id < t.size → (t.states id).Pairwise (· < ·)
  apart : ∀ id, (t.children id).Pairwise fun c d => ∀ s ∈ t.states c, s ∉ t.states d

theorem SplittingTree.Divides.orderly {M : Machine} {t : SplittingTree} (h : t.Divides M) :
    t.Orderly M.stateCount where
  stateCount_eq := h.stateCount_eq
  ascending := h.ascending
  apart id := (h.nodup_children id).imp_of_mem fun hc hd hne _ hsc hsd =>
    hne (h.child_unique hc hd hsc hsd)

theorem SplittingTree.orderly_ofSize (size : Nat) : (ofSize size).Orderly size where
  stateCount_eq := by simp [stateCount, states, ofSize]
  ascending {id} hid := by
    obtain rfl : id = Arena.root := Nat.lt_one_iff.mp hid
    exact Handle.pairwise_range size
  apart id := by simp [ofSize]

namespace AdaptiveSequence

/-- The candidates whose current states are among the given states. Both lists are gone through side
by side. -/
def meet : List Candidate → List State → List Candidate
  | [], _ => []
  | _, [] => []
  | y :: cs, s :: ss =>
    if y.current < s then meet cs (s :: ss)
    else if s < y.current then meet (y :: cs) ss
    else y :: meet cs ss
termination_by cs ss => cs.length + ss.length

/-- A derivation may have come to `a`, with all nodes before `id` expanded. -/
inductive Passes (r : SplittingResult) : Nat → AdaptiveSequence → Prop
  | start : Passes r Arena.root (idle r.tree.stateCount)
  | expand {id : Nat} {a a' : AdaptiveSequence} (before : Passes r id a) (lt_size : id < a.size)
      (expanded : expand r a id = .ok a') : Passes r (id + 1) a'

/-- Candidates are divided into several parts. Initial states are neither added nor doubled, no part
is empty, and each part is in strictly ascending order of the current states. -/
structure Divided (cs : List Candidate) (parts : List (List Candidate)) : Prop where
  branching : 2 ≤ parts.length
  occupied : ∀ part ∈ parts, part ≠ []
  contained : ∀ part ∈ parts, ∀ x ∈ part, x.initial ∈ cs.map (·.initial)
  distinct : ∀ part ∈ parts, (part.map (·.initial)).Nodup
  apart : parts.Pairwise fun left right => ∀ x ∈ left, ∀ y ∈ right, x.initial ≠ y.initial
  ascending : ∀ part ∈ parts, part.Pairwise (·.current < ·.current)

/-- At first all states are candidates, and every inner node applies a separator of the tree and
divides its candidates among its children. -/
structure Narrowing (t : SplittingTree) (size : Nat) (a : AdaptiveSequence) : Prop where
  candidates_root : a.candidates Arena.root = (Handle.range size).map fun s => ⟨s, s⟩
  rooted : a.Rooted
  word_leaf : ∀ {id : Nat}, a.isLeaf id → a.word id = []
  divided : ∀ {id : Nat}, ¬ a.isLeaf id →
    (∃ oracle, ¬ t.isLeaf oracle ∧ a.word id = t.separator oracle) ∧
      Divided (a.candidates id) ((a.children id).map a.candidates)

variable {M : Machine} {t : SplittingTree} {r : SplittingResult} {a a' : AdaptiveSequence}
  {id c oracle size : Nat} {cs : List Candidate} {ss : List State} {parts : List (List Candidate)}

/-- Going through two lists in ascending order finds all candidates whose states are in the list. -/
theorem meet_eq_filter (hcs : cs.Pairwise (·.current < ·.current)) (hss : ss.Pairwise (· < ·)) :
    meet cs ss = cs.filter (·.current ∈ ss) := by
  fun_induction meet cs ss with
  | case1 => rfl
  | case2 cs => simp
  | case3 y cs s ss hlt ih =>
    have hbefore : y.current ∉ s :: ss := by
      rw [List.mem_cons]
      rintro (heq | hmem)
      · exact Nat.ne_of_lt hlt (congrArg Handle.index heq)
      · exact Nat.lt_asymm hlt ((List.pairwise_cons.mp hss).1 _ hmem)
    rw [ih (List.pairwise_cons.mp hcs).2 hss, List.filter_cons_of_neg (by simpa using hbefore)]
  | case4 y cs s ss hle hlt ih =>
    rw [ih hcs (List.pairwise_cons.mp hss).2]
    refine List.filter_congr fun x hx => ?_
    have hbehind : s < x.current := by
      rcases List.mem_cons.mp hx with rfl | hx
      · exact hlt
      · exact Nat.lt_trans hlt ((List.pairwise_cons.mp hcs).1 x hx)
    have hne : x.current ≠ s := fun heq => Nat.ne_of_gt hbehind (congrArg Handle.index heq)
    simp [hne]
  | case5 y cs s ss hle hge ih =>
    have heq : y.current = s :=
      Handle.ext (Nat.le_antisymm (Nat.not_lt.mp hge) (Nat.not_lt.mp hle))
    obtain ⟨hbehind, hcs⟩ := List.pairwise_cons.mp hcs
    rw [ih hcs (List.pairwise_cons.mp hss).2, List.filter_cons_of_pos (by simp [heq])]
    congr 1
    refine List.filter_congr fun x hx => ?_
    have hne : x.current ≠ s := fun h =>
      Nat.ne_of_gt (hbehind x hx) (congrArg Handle.index (h.trans heq.symm))
    simp [hne]

namespace Divided

/-- There are no more candidates than before. -/
theorem total_length_le (h : Divided cs parts) : total List.length parts ≤ cs.length := by
  have hnodup : (parts.flatten.map (·.initial)).Nodup := by
    rw [List.map_flatten, List.nodup_flatten, List.pairwise_map]
    refine ⟨List.forall_mem_map.mpr h.distinct, h.apart.imp fun hne => ?_⟩
    intro s hl hr
    obtain ⟨x, hx, rfl⟩ := List.mem_map.mp hl
    obtain ⟨y, hy, heq⟩ := List.mem_map.mp hr
    exact hne x hx y hy heq.symm
  have hsub : parts.flatten.map (·.initial) ⊆ cs.map (·.initial) := by
    intro s hs
    obtain ⟨x, hx, rfl⟩ := List.mem_map.mp hs
    obtain ⟨part, hp, hx⟩ := List.mem_flatten.mp hx
    exact h.contained part hp x hx
  have hle := hnodup.length_le_of_subset hsub
  rwa [List.length_map, List.length_map, ← total_length] at hle

/-- Every part has fewer candidates than there were before. -/
theorem length_lt (h : Divided cs parts) {part : List Candidate} (hp : part ∈ parts) :
    part.length < cs.length :=
  (lt_total_of_mem h.branching (fun xs hxs => List.length_pos_iff.mpr (h.occupied xs hxs))
    hp).trans_le h.total_length_le

end Divided

/-- An expansion divides the candidates: different children of the node of the tree get different
candidates, and the successors of the candidates of one child are different. -/
theorem divided_of_mapM (h : r.tree.Orderly size) (hi : (cs.map (·.initial)).Nodup)
    (hparts : (r.tree.children oracle).mapM (advance r oracle cs) = .ok parts)
    (htwo : 2 ≤ (parts.filter (!·.isEmpty)).length) :
    Divided cs (parts.filter (!·.isEmpty)) := by
  obtain ⟨rfl, hall⟩ := eq_map_of_mapM_ok hparts fun c _ part ha =>
    (eq_arrivals_of_advance ha).1.symm
  have from_child {part : List Candidate}
      (hp : part ∈ ((r.tree.children oracle).map (arrivals r oracle cs)).filter (!·.isEmpty)) :
      ∃ c ∈ r.tree.children oracle, arrivals r oracle cs c = part :=
    List.mem_map.mp (List.mem_filter.mp hp).1
  have from_candidate {c : Nat} {x : Candidate} (hx : x ∈ arrivals r oracle cs c) :
      ∃ y ∈ cs, y.current ∈ r.tree.states c ∧ y.initial = x.initial := by
    obtain ⟨y, hy, rfl⟩ := List.mem_map.mp (List.mem_mergeSort.mp hx)
    obtain ⟨hy, hyc⟩ := List.mem_filter.mp hy
    exact ⟨y, hy, of_decide_eq_true hyc, rfl⟩
  refine ⟨htwo, fun part hp => ?_, fun part hp x hx => ?_, fun part hp => ?_, ?_, fun part hp => ?_⟩
  · simpa using (List.mem_filter.mp hp).2
  · obtain ⟨c, -, rfl⟩ := from_child hp
    obtain ⟨y, hy, -, heq⟩ := from_candidate hx
    exact heq ▸ List.mem_map_of_mem hy
  · obtain ⟨c, -, rfl⟩ := from_child hp
    rw [arrivals, ((List.mergeSort_perm _ _).map _).nodup_iff, List.map_map]
    exact (List.filter_sublist.map _).nodup hi
  · refine List.Pairwise.filter _ (List.pairwise_map.mpr ((h.apart oracle).imp ?_))
    intro c d hapart x hx y hy heq
    obtain ⟨x', hx', hxc, hxi⟩ := from_candidate hx
    obtain ⟨y', hy', hyd, hyi⟩ := from_candidate hy
    obtain rfl := List.inj_on_of_nodup_map hi hx' hy' (hxi.trans (heq.trans hyi.symm))
    exact hapart _ hxc hyd
  · obtain ⟨c, hc, rfl⟩ := from_child hp
    exact ascending_mergeSort (eq_arrivals_of_advance (hall c hc)).2.1

namespace Narrowing

theorem candidates_child (h : Narrowing t size a) (hc : c ∈ a.children id) :
    Divided (a.candidates id) ((a.children id).map a.candidates) ∧
      a.candidates c ∈ (a.children id).map a.candidates :=
  ⟨(h.divided (Arena.not_isLeaf_of_mem hc)).2, List.mem_map_of_mem hc⟩

/-- Every node has an initial state at most once. -/
theorem initial_nodup (h : Narrowing t size a) (hid : id < a.size) :
    ((a.candidates id).map (·.initial)).Nodup := by
  induction id, hid using h.rooted.induction with
  | atRoot =>
    rw [h.candidates_root]
    simpa [Function.comp_def] using Handle.nodup_range size
  | child p c _ hc _ =>
    obtain ⟨hdivided, hmem⟩ := h.candidates_child hc
    exact hdivided.distinct _ hmem

/-- In every node the candidates are in strictly ascending order of their states. -/
theorem ascending (h : Narrowing t size a) (hid : id < a.size) :
    (a.candidates id).Pairwise (·.current < ·.current) := by
  induction id, hid using h.rooted.induction with
  | atRoot =>
    rw [h.candidates_root]
    exact List.pairwise_map.mpr (Handle.pairwise_range size)
  | child p c _ hc _ =>
    obtain ⟨hdivided, hmem⟩ := h.candidates_child hc
    exact hdivided.ascending _ hmem

theorem length_child_lt (h : Narrowing t size a) (hc : c ∈ a.children id) :
    (a.candidates c).length < (a.candidates id).length := by
  obtain ⟨hdivided, hmem⟩ := h.candidates_child hc
  exact hdivided.length_lt hmem

theorem simple (h : Narrowing t size a) : a.Simple where
  rooted := h.rooted
  nodup_children id := by
    by_cases hl : a.isLeaf id
    · rw [Arena.isLeaf_iff.mp hl]
      exact List.nodup_nil
    · refine (List.pairwise_map.mp (h.divided hl).2.apart).imp_of_mem ?_
      rintro c d hc - hapart rfl
      obtain ⟨hdivided, hmem⟩ := h.candidates_child hc
      obtain ⟨x, hx⟩ := List.exists_mem_of_ne_nil _ (hdivided.occupied _ hmem)
      exact hapart x hx x hx rfl

/-- There are fewer than twice as many nodes as initial states. -/
theorem size_le (h : Narrowing t size a) : a.size ≤ max 1 (2 * size - 1) := by
  have hroot : (a.candidates Arena.root).length = size := by simp [h.candidates_root]
  have hleaves : a.leafCount ≤ max 1 (a.candidates Arena.root).length := by
    refine h.simple.leafCount_le (f := fun id => max 1 (a.candidates id).length) (fun id hl => ?_)
      fun id _ => by omega
    have hdivided := (h.divided hl).2
    calc total (fun c => max 1 (a.candidates c).length) (a.children id)
        = total (fun c => (a.candidates c).length) (a.children id) :=
          total_congr fun c hc => by
            have := List.length_pos_iff.mpr (hdivided.occupied _ (List.mem_map_of_mem hc))
            omega
      _ = total List.length ((a.children id).map a.candidates) := (total_map _ _ _).symm
      _ ≤ (a.candidates id).length := hdivided.total_length_le
      _ ≤ max 1 (a.candidates id).length := by omega
  have hsize := h.simple.size_lt fun id hl => by simpa using (h.divided hl).2.branching
  omega

theorem idle (t : SplittingTree) (size : Nat) : Narrowing t size (idle size) where
  candidates_root := rfl
  rooted _ hpos hid := absurd hid (Nat.not_lt.mpr hpos)
  word_leaf _ := word_idle _ _
  divided hl := absurd (Arena.isLeaf_iff.mpr (Arena.children_single _ _)) hl

/-- An expansion that succeeds keeps what has been built, and only the node that is expanded may
cease to be a leaf. -/
theorem of_expand (h : Narrowing r.tree size a) (ht : r.tree.Orderly size) (hid : id ∈ a.leaves)
    (he : expand r a id = .ok a') :
    Narrowing r.tree size a' ∧ a.size ≤ a'.size ∧ ∀ c, c ≠ id → a.isLeaf c → a'.isLeaf c := by
  obtain ⟨rfl, -⟩ | ⟨outcomes, hl, hparts, htwo, rfl⟩ := expand_cases he
  · exact ⟨h, Nat.le_refl _, fun c _ hc => hc⟩
  · have hlt := (Arena.mem_leaves.mp hid).1
    have hne : outcomes.filter (!·.isEmpty) ≠ [] := List.length_pos_iff.mp (by omega)
    have hdivided := divided_of_mapM ht (h.initial_nodup hlt) hparts htwo
    refine ⟨⟨?_, h.rooted.grow hid _ _, word_leaf_extend hid hne h.word_leaf, ?_⟩, ?_, ?_⟩
    · rw [candidates_extend_of_lt a.root_lt_size, h.candidates_root]
    · exact forall_inner_extend (P := fun cs w parts =>
        (∃ oracle, ¬ r.tree.isLeaf oracle ∧ w = r.tree.separator oracle) ∧ Divided cs parts)
        hid hne ⟨⟨_, hl, rfl⟩, hdivided⟩ h.divided
    · simp
    · exact fun c hc hleaf => (isLeaf_extend hid hne).mpr ⟨hc, hleaf⟩

end Narrowing

namespace Passes

/-- What a derivation builds, however far it has come. -/
theorem narrowing (h : Passes r id a) (ht : r.tree.Orderly size) :
    Narrowing r.tree size a ∧ id ≤ a.size ∧ ∀ c, id ≤ c → a.isLeaf c := by
  induction h with
  | start =>
    rw [ht.stateCount_eq]
    exact ⟨.idle r.tree size, Nat.zero_le _, fun c _ =>
      Arena.isLeaf_iff.mpr (Arena.children_single _ _)⟩
  | expand before lt_size expanded ih =>
    obtain ⟨hnarrowing, -, hfresh⟩ := ih
    obtain ⟨hnext, hsize, hleaf⟩ := hnarrowing.of_expand ht
      (Arena.mem_leaves.mpr ⟨lt_size, hfresh _ (Nat.le_refl _)⟩) expanded
    exact ⟨hnext, by omega, fun c hc => hleaf c (by omega) (hfresh c (by omega))⟩

/-- A derivation comes to an end. -/
theorem le (h : Passes r id a) (ht : r.tree.Orderly size) : id ≤ max 1 (2 * size - 1) := by
  obtain ⟨hnarrowing, hsize, -⟩ := h.narrowing ht
  exact hsize.trans hnarrowing.size_le

/-- After the start, the root has been expanded. -/
theorem exists_first (h : Passes r id a) (hid : 0 < id) :
    ∃ a₁, AdaptiveSequence.expand r (idle r.tree.stateCount) Arena.root = .ok a₁ := by
  induction h with
  | start => exact absurd hid (Nat.lt_irrefl 0)
  | @expand id a a' before lt_size expanded ih =>
    rcases Nat.eq_zero_or_pos id with rfl | hpos
    · cases before with
      | start => exact ⟨a', expanded⟩
    · exact ih hpos

/-- From some point on, several expansions lead to the end or as far as they go. -/
theorem of_expandFrom {steps : Nat} {b : AdaptiveSequence} (h : Passes r id a)
    (he : expandFrom r steps id a = .ok b) :
    ∃ last, Passes r last b ∧ (b.size ≤ last ∨ last = id + steps) := by
  induction steps generalizing id a with
  | zero =>
    obtain rfl := Except.ok.inj he
    exact ⟨id, h, .inr rfl⟩
  | succ steps ih =>
    rw [expandFrom] at he
    split at he
    case isTrue hid =>
      obtain ⟨next, hnext, he⟩ := bind_eq_ok.mp he
      obtain ⟨last, hlast, hend⟩ := ih (h.expand hid hnext) he
      exact ⟨last, hlast, hend.imp_right fun heq => by omega⟩
    case isFalse hid =>
      obtain rfl := Except.ok.inj he
      exact ⟨id, h, .inl (Nat.not_lt.mp hid)⟩

theorem of_expandFrom_error {steps : Nat} {e : ConstructionError} (h : Passes r id a)
    (he : expandFrom r steps id a = .error e) :
    ∃ last b, Passes r last b ∧ last < b.size ∧ AdaptiveSequence.expand r b last = .error e := by
  induction steps generalizing id a with
  | zero => cases he
  | succ steps ih =>
    rw [expandFrom] at he
    split at he
    case isTrue hid =>
      obtain hfailed | ⟨next, hnext, he⟩ := bind_eq_error.mp he
      · exact ⟨id, a, h, hid, hfailed⟩
      · exact ih (h.expand hid hnext) he
    case isFalse => cases he

end Passes

/-- A sequence that is derived has been expanded as far as it goes. -/
theorem passes_of_ofTree (ht : r.tree.Orderly size) (ha : ofTree r = .ok a) :
    ∃ id, Passes r id a ∧ a.size ≤ id := by
  obtain ⟨last, hlast, hend | hsteps⟩ := Passes.start.of_expandFrom ha
  · exact ⟨last, hlast, hend⟩
  · rw [ht.stateCount_eq] at hsteps
    have hle := hlast.le ht
    rcases Nat.eq_zero_or_pos size with hzero | hpos
    · -- without states there is nothing to expand but the root, which stays as it is
      subst hzero
      obtain rfl : last = Arena.root := by simpa using hsteps
      cases hlast with
      | start =>
        refine ⟨_, Passes.start.expand (Arena.root_lt_size _) (if_pos ?_), Nat.le_refl _⟩
        simp [ht.stateCount_eq, candidates, AdaptiveSequence.idle]
    · simp only [Arena.root] at hsteps
      omega

theorem violation_of_ofTree {e : ConstructionError} (h : ofTree r = .error e) :
    ∃ v, e = .invariantViolation v := by
  obtain ⟨last, b, -, -, hfailed⟩ := Passes.start.of_expandFrom_error h
  exact violation_of_expand hfailed

theorem oracleOf_lt_size (t : SplittingTree) (cs : List Candidate) : oracleOf t cs < t.size :=
  t.descend_lt_size _ t.root_lt_size

/-- A tree that was never split does not tell how to go on. -/
theorem ofTree_of_isLeaf_root (hl : r.tree.isLeaf Arena.root) :
    ofTree r = .ok (idle r.tree.stateCount) := by
  have horacle (cs : List Candidate) : oracleOf r.tree cs = Arena.root := by
    rw [oracleOf, SplittingTree.lowestCommonAncestor, SplittingTree.descend]
    split
    · rfl
    · split
      case h_1 => rfl
      case h_2 c hfound =>
        exact absurd hl (Arena.not_isLeaf_of_mem (List.mem_of_find?_eq_some hfound))
  have hexpand (id : Nat) (a : AdaptiveSequence) : expand r a id = .ok a := by
    rw [expand]
    split
    · rfl
    · rw [horacle, if_pos hl]
  have hrun (steps id : Nat) (a : AdaptiveSequence) : expandFrom r steps id a = .ok a := by
    induction steps generalizing id with
    | zero => rfl
    | succ steps ih =>
      rw [expandFrom, hexpand]
      split
      · exact ih (id + 1)
      · rfl
  exact hrun _ _ _

/-- Without any successors, the root of a tree that was split cannot be expanded. -/
theorem ofTree_ne_ok_of_isEmpty (h : r.tree.Divides M) (hempty : r.successors.isEmpty)
    (hl : ¬ r.tree.isLeaf Arena.root) : ofTree r ≠ .ok a := by
  intro ha
  obtain ⟨id, hpasses, hend⟩ := passes_of_ofTree h.orderly ha
  obtain ⟨a₁, ha₁⟩ := hpasses.exists_first (a.root_lt_size.trans_le hend)
  obtain ⟨s, u, hsplit⟩ := h.exists_splits hl
  rw [h.stateCount_eq] at ha₁
  have hcandidate {x : State} (hx : x ∈ M.states) :
      ⟨x, x⟩ ∈ (idle M.stateCount).candidates Arena.root := List.mem_map_of_mem hx
  have hs := hcandidate (h.mem_states r.tree.root_lt_size (h.mem_of_splits hsplit))
  have hu := hcandidate (h.mem_states r.tree.root_lt_size (h.mem_of_splits hsplit.symm))
  obtain ⟨hsize, hcurrent, -⟩ := oracleOf_spec h (List.ne_nil_of_mem hs) fun y hy =>
    ((describes_idle M).mem_states (Arena.root_lt_size _) hy).1
  obtain ⟨-, hlen | hleaf⟩ | ⟨outcomes, hinner, houtcomes, -⟩ := expand_cases ha₁
  · have hnodup := ((describes_idle M).initial_nodup (Arena.root_lt_size _)).of_map
    refine absurd hlen (Nat.not_lt.mpr ((two_le_length_iff hnodup).mpr ⟨_, hs, _, hu, ?_⟩))
    exact fun heq => h.ne_of_splits hsplit (congrArg Candidate.initial heq)
  · exact h.not_splits_of_leaf (Arena.mem_leaves.mpr ⟨hsize, hleaf⟩) (hcurrent _ hs)
      (hcurrent _ hu) hsplit
  · -- every child of the node has a state, whose successor would have to be recorded
    obtain ⟨c, hc⟩ := List.exists_mem_of_ne_nil _ (mt Arena.isLeaf_iff.mpr hinner)
    have hcsize := Arena.lt_size_of_mem_children hc
    obtain ⟨x, hx⟩ := h.exists_mem hcsize
    obtain ⟨-, hall⟩ := eq_map_of_mapM_ok houtcomes fun c _ part ha =>
      (eq_arrivals_of_advance ha).1.symm
    have hrecorded := (eq_arrivals_of_advance (hall c hc)).2.2 _
      (hcandidate (h.mem_states hcsize hx)) hx
    obtain ⟨y, hy⟩ := Option.isSome_iff_exists.mp hrecorded
    have hdepth := SuccessorTable.lt_depth hy
    rw [SuccessorTable.isEmpty_iff.mp hempty] at hdepth
    exact Nat.not_lt_zero _ hdepth

/-- What can be said about a derivation, whatever successors are recorded for the tree. -/
structure Robust (r : SplittingResult) (size : Nat) : Prop where
  /-- No derivation goes on for ever. -/
  bounded : ∀ {id : Nat} {a : AdaptiveSequence}, Passes r id a → id ≤ max 1 (2 * size - 1)
  /-- Only nodes of the tree are looked up, and going through the candidates and the states of a
  child side by side finds the candidates that are in the child. -/
  inRange : ∀ {id : Nat} {a : AdaptiveSequence}, Passes r id a → id < a.size →
    oracleOf r.tree (a.candidates id) < r.tree.size ∧
      ∀ child ∈ r.tree.children (oracleOf r.tree (a.candidates id)), child < r.tree.size ∧
        meet (a.candidates id) (r.tree.states child) =
          (a.candidates id).filter (·.current ∈ r.tree.states child)
  /-- A sequence that is returned has been expanded to the end, and is well shaped. -/
  returned : ∀ {a : AdaptiveSequence}, ofTree r = .ok a →
    (∃ id, Passes r id a ∧ a.size ≤ id) ∧ a.size ≤ max 1 (2 * size - 1) ∧
      (∀ id < a.size, (a.candidates id).Pairwise (·.current < ·.current)) ∧
      ∀ id, ¬ a.isLeaf id → Divided (a.candidates id) ((a.children id).map a.candidates)
  /-- Otherwise an expansion has found that an invariant is violated. -/
  refused : ∀ {e : ConstructionError}, ofTree r = .error e →
    (∃ id a, Passes r id a ∧ id < a.size ∧ expand r a id = .error e) ∧
      ∃ v, e = .invariantViolation v
  /-- Without any successors, nothing but a tree that was never split will do. -/
  withoutSuccessors : r.successors.isEmpty →
    ((∃ a, ofTree r = .ok a) ↔ r.tree.isLeaf Arena.root)

theorem robust_of_orderly (h : r.tree.Orderly size)
    (hempty : r.successors.isEmpty → ¬ r.tree.isLeaf Arena.root → ∀ a, ofTree r ≠ .ok a) :
    Robust r size where
  bounded hpasses := hpasses.le h
  inRange hpasses hid := by
    refine ⟨oracleOf_lt_size _ _, fun child hchild => ?_⟩
    have hsize := Arena.lt_size_of_mem_children hchild
    exact ⟨hsize, meet_eq_filter ((hpasses.narrowing h).1.ascending hid) (h.ascending hsize)⟩
  returned ha := by
    obtain ⟨id, hpasses, hend⟩ := passes_of_ofTree h ha
    obtain ⟨hnarrowing, -, -⟩ := hpasses.narrowing h
    exact ⟨⟨id, hpasses, hend⟩, hnarrowing.size_le, fun _ => hnarrowing.ascending,
      fun _ hl => (hnarrowing.divided hl).2⟩
  refused he := ⟨Passes.start.of_expandFrom_error he, violation_of_ofTree he⟩
  withoutSuccessors hnone := by
    constructor
    · rintro ⟨a, ha⟩
      by_contra hl
      exact hempty hnone hl a ha
    · exact fun hl => ⟨_, ofTree_of_isLeaf_root hl⟩

/-- Deriving a sequence from the tree of a machine, or from a tree of one leaf, is safe whatever
successors are recorded. -/
theorem ofTree_robust [RandomSource] :
    (∀ (size : Nat) (table : SuccessorTable) (complete : Bool),
      Robust ⟨.ofSize size, table, complete⟩ size) ∧
    ∀ (M : Machine) (options : SplittingOptions) (seed : UInt64),
      ∃ r, SplittingTree.ofMachine M options seed = .ok r ∧
        ∀ (table : SuccessorTable) (complete : Bool),
          Robust ⟨r.tree, table, complete⟩ M.stateCount := by
  constructor
  · intro size table complete
    refine robust_of_orderly (SplittingTree.orderly_ofSize size) fun _ hl => ?_
    exact absurd (Arena.isLeaf_iff.mpr (Arena.children_single _ _)) hl
  · intro M options seed
    obtain ⟨r, hr, hof⟩ := SplittingTree.ofMachine_final M options seed
    refine ⟨r, hof options.checkFineness, fun table complete => ?_⟩
    exact robust_of_orderly hr.divides.orderly fun hnone hl a =>
      ofTree_ne_ok_of_isEmpty (r := ⟨r.tree, table, complete⟩) hr.divides hnone hl

end AdaptiveSequence

end StateIdentification
