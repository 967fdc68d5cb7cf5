import StateIdentification.Proofs.DerivationStep
import StateIdentification.Proofs.GrowthRun

/-!
# The history of a growing tree

Every turn of the work takes one leaf out of the queue. The history notes which leaf that was and
what became of it. From the history one can tell which nodes have children, and that the children of
a node have smaller numbers than those of a node that was split later.

## Main definitions

- `Deed`, `Growth.history`: one turn of the work, and all turns until the work is done.
- `SplittingTree.history`: all turns for a machine.
- `Growth.Does`: what a turn does to the tree and to the leaves that wait.
- `Growth.Chronicle`: what the history tells about the tree.

## Main results

- `Growth.Consistent.does`: every turn does one of three things, and the history notes which.
- `Growth.Consistent.run_induction`: what every turn keeps holds when the work is done.
- `Growth.Chronicle.step`: the history tells the truth after every turn.
-/

namespace StateIdentification

open scoped List

variable {M : Machine} {options : SplittingOptions}

/-- What becomes of a leaf that is taken out of the queue. -/
inductive Fate where
  | dropped
  | split
  | putBack
deriving DecidableEq, Repr

/-- One turn of the work: the leaf that was taken out of the queue, and what became of it. -/
structure Deed where
  node : Nat
  fate : Fate
deriving DecidableEq, Repr

/-- A part of a list that gets one entry more is a part of the old list, or it ends in the entry. -/
theorem sublist_concat_iff {α : Type} {l past : List α} {x y : α} :
    l ++ [x] <+ past ++ [y] ↔ l ++ [x] <+ past ∨ l <+ past ∧ x = y := by
  have hreverse {u v : List α} : u <+ v ↔ u.reverse <+ v.reverse := List.reverse_sublist.symm
  rw [hreverse, hreverse (v := past), hreverse (u := l)]
  simp [List.cons_sublist_cons', and_comm]

variable [RandomSource]

namespace Growth

variable {g g' : Growth} {d : Deed} {past : List Deed} {id : Nat}

/-- The leaves that wait, first in first out. -/
def waiting (g : Growth) : List Nat := g.queue.map (·.node)

/-- What became of a leaf in the turn that led to `g`: it was split if it has children now, and put
back if it waits again. -/
def deed (g : Growth) (node : Nat) : Deed where
  node
  fate := if !g.tree.isLeaf node then .split else if node ∈ g.waiting then .putBack else .dropped

/-- All turns until the work is done. -/
def history (M : Machine) (options : SplittingOptions) (g : Growth) : List Deed :=
  match _h : turn M options g with
  | .error _ => []
  | .ok (.done _) => []
  | .ok (.goOn g') => g.waiting.head?.toList.map g'.deed ++ history M options g'
termination_by (g.partition.room, g.patience)
decreasing_by
  rcases turn_decreases _h with hlt | ⟨heq, hlt⟩
  · exact .left _ _ hlt
  · exact heq ▸ .right _ hlt

theorem history_of_done {complete : Bool} (h : turn M options g = .ok (.done complete)) :
    history M options g = [] := by
  rw [history]
  split <;> simp_all

theorem history_of_goOn (h : turn M options g = .ok (.goOn g')) :
    history M options g = g.waiting.head?.toList.map g'.deed ++ history M options g' := by
  rw [history]
  split <;> simp_all

/-- What a turn does to the tree and to the leaves that wait. -/
inductive Does (g g' : Growth) : Deed → Prop where
  | dropped {id : Nat} {rest : List Nat} (takes : g.waiting = id :: rest)
      (tree : g'.tree = g.tree) (waits : g'.waiting = rest) : Does g g' ⟨id, .dropped⟩
  | putBack {id : Nat} {rest : List Nat} (takes : g.waiting = id :: rest)
      (tree : g'.tree = g.tree) (waits : g'.waiting = rest ++ [id]) : Does g g' ⟨id, .putBack⟩
  | split {id : Nat} {rest : List Nat} {w : Word} {parts : List (List State)}
      (takes : g.waiting = id :: rest) (parts_ne : parts ≠ [])
      (tree : g'.tree = g.tree.split id w parts)
      (waits : g'.waiting = rest ++ List.range' g.tree.size parts.length) :
      Does g g' ⟨id, .split⟩

/-- A split gives the leaf children, which wait behind all others. -/
theorem commit_cases {leaf : Pending} {w : Word} (h : commit M options g leaf w = .ok g') :
    ∃ parts, parts ≠ [] ∧ g'.tree = g.tree.split leaf.node w parts ∧
      g'.waiting = g.waiting ++ List.range' g.tree.size parts.length := by
  rw [commit] at h
  split at h
  · cases h
  case h_2 blocks partition _ =>
    rw [install] at h
    split at h
    · cases h
    case isFalse hseveral =>
      split at h
      · cases h
      case h_2 parts hparts =>
        have hlen := length_of_mapM_ok hparts
        cases h
        refine ⟨parts.map (·.map Handle.mk), ?_, rfl, ?_⟩
        · rw [ne_eq, List.map_eq_nil_iff, ← List.length_eq_zero_iff]
          omega
        · have hnodes : (blocks.zipWith Pending.mk (List.range' g.tree.size blocks.length)).map
              (·.node) = List.range' g.tree.size blocks.length :=
            List.ext_getElem (by simp) fun n hn hn' => by simp
          rw [waiting, List.map_append, hnodes, waiting, List.length_map, hlen]

/-- A turn drops a leaf, splits it or puts it back. -/
theorem exists_does (h : turn M options g = .ok (.goOn g')) : ∃ d, Does g g' d := by
  have waits {leaf : Pending} {rest : List Pending} (takes : g.queue = leaf :: rest) :
      g.waiting = leaf.node :: rest.map (·.node) := by
    rw [waiting, takes, List.map_cons]
  rcases turn_cases h with hplan | ⟨next, leaf, w, hplan, hcommit⟩
  · cases plans_of_plan hplan with
    | dropped takes => exact ⟨_, .dropped (waits takes) rfl rfl⟩
    | putBack takes => exact ⟨_, .putBack (waits takes) rfl (by simp [waiting])⟩
  · obtain ⟨parts, hne, htree, hwaits⟩ := commit_cases hcommit
    cases plans_of_plan hplan with
    | split takes => exact ⟨_, .split (waits takes) hne htree hwaits⟩

namespace Consistent

theorem mem_leaves_of_waiting (h : g.Consistent M options) {id : Nat} (hid : id ∈ g.waiting) :
    id ∈ g.tree.leaves := by
  obtain ⟨leaf, hm, rfl⟩ := List.mem_map.mp hid
  exact h.queued leaf hm

theorem lt_size_of_waiting (h : g.Consistent M options) {id : Nat} (hid : id ∈ g.waiting) :
    id < g.tree.size :=
  (Arena.mem_leaves.mp (h.mem_leaves_of_waiting hid)).1

theorem nodup_waiting (h : g.Consistent M options) : g.waiting.Nodup :=
  List.pairwise_map.mpr (h.apart.imp And.right)

/-- The leaf that a turn takes has no children, and does not wait a second time. -/
theorem of_takes (h : g.Consistent M options) {id : Nat} {rest : List Nat}
    (takes : g.waiting = id :: rest) : id ∈ g.tree.leaves ∧ id ∉ rest :=
  ⟨h.mem_leaves_of_waiting (takes ▸ List.mem_cons_self),
    (List.nodup_cons.mp (takes ▸ h.nodup_waiting)).1⟩

/-- What a turn does can be told from the tree and the queue that it leads to. -/
theorem deed_eq (h : g.Consistent M options) (hd : Does g g' d) :
    g.waiting.head?.toList.map g'.deed = [d] := by
  cases hd with
  | dropped takes tree waits =>
    obtain ⟨hleaf, hrest⟩ := h.of_takes takes
    simp [takes, deed, tree, waits, hrest, (Arena.mem_leaves.mp hleaf).2]
  | putBack takes tree waits =>
    obtain ⟨hleaf, -⟩ := h.of_takes takes
    simp [takes, deed, tree, waits, (Arena.mem_leaves.mp hleaf).2]
  | @split id rest w parts takes hne tree waits =>
    obtain ⟨hleaf, -⟩ := h.of_takes takes
    have hinner : ¬ (g.tree.split id w parts).isLeaf id := fun hl =>
      ((SplittingTree.isLeaf_split hleaf w hne).mp hl).1 rfl
    simp [takes, deed, tree, hinner]

/-- A turn does one of three things, and the history notes it. -/
theorem does (h : g.Consistent M options) (hg : Growth.turn M options g = .ok (.goOn g')) :
    ∃ d, Does g g' d ∧ history M options g = d :: history M options g' := by
  obtain ⟨d, hd⟩ := exists_does hg
  exact ⟨d, hd, by rw [history_of_goOn hg, h.deed_eq hd, List.singleton_append]⟩

/-- What holds at the start and is kept by every turn holds when the work is done, where `past` are
the turns that were made. -/
theorem run_induction {P : List Deed → Growth → Prop} (h : g.Consistent M options)
    (start : P past g)
    (step : ∀ past g g' d, g.Consistent M options → g'.Consistent M options → Does g g' d →
      P past g → P (past ++ [d]) g') :
    ∃ g' complete, Growth.run M options g = .ok ⟨g'.tree, g'.successors, complete⟩ ∧
      g'.Consistent M options ∧ P (past ++ history M options g) g' := by
  induction g using Growth.run.induct M options generalizing past with
  | case1 g e he => exact absurd he (h.turn_ne_error e)
  | case2 g complete hc =>
    refine ⟨g, complete, run_of_done hc, h, ?_⟩
    rwa [history_of_done hc, List.append_nil]
  | case3 g g' hg ih =>
    obtain ⟨d, hd, hhistory⟩ := h.does hg
    have h' := h.of_goOn hg
    obtain ⟨last, complete, hrun, hlast, hP⟩ := ih h' (step past g g' d h h' hd start)
    refine ⟨last, complete, (run_of_goOn hg).trans hrun, hlast, ?_⟩
    rwa [hhistory, List.append_cons]

end Consistent

namespace Does

theorem mem_waiting (hd : Does g g' d) : d.node ∈ g.waiting := by
  cases hd with
  | dropped takes | putBack takes | split takes => exact takes ▸ List.mem_cons_self

theorem depth_eq (hd : Does g g' d) {id : Nat} (hid : id < g.tree.size) :
    g'.tree.depth id = g.tree.depth id := by
  cases hd with
  | dropped _ tree | putBack _ tree => rw [tree]
  | split _ _ tree => rw [tree, SplittingTree.depth_split_of_lt hid]

end Does

/-- What the history tells about the tree: the inner nodes are those that were split, and the
children of a node come before those of a node that was split later. -/
structure Chronicle (past : List Deed) (g : Growth) : Prop where
  known : ∀ d ∈ past, d.node < g.tree.size
  split_iff : ∀ id, ⟨id, .split⟩ ∈ past ↔ ¬ g.tree.isLeaf id
  children_lt : ∀ a b, [⟨a, .split⟩, ⟨b, .split⟩] <+ past →
    ∀ c ∈ g.tree.children a, ∀ d ∈ g.tree.children b, c < d

namespace Chronicle

theorem start (h : g.tree.children = fun _ => []) : Chronicle [] g where
  known := by simp
  split_iff id := by simp [Arena.isLeaf_iff, h]
  children_lt a b hab := by simp at hab

theorem known_concat (h : Chronicle past g) (hd : d.node < g.tree.size) :
    ∀ e ∈ past ++ [d], e.node < g.tree.size :=
  List.forall_mem_append.mpr ⟨h.known, List.forall_mem_singleton.mpr hd⟩

/-- Only a split adds to what the history tells. -/
theorem keep (h : Chronicle past g) (hid : id < g.tree.size) (tree : g'.tree = g.tree) {fate : Fate}
    (hfate : fate ≠ .split) : Chronicle (past ++ [⟨id, fate⟩]) g' := by
  constructor
  · exact tree ▸ h.known_concat hid
  · intro a
    rw [tree, ← h.split_iff]
    simp [hfate.symm]
  · intro a b hab
    rw [tree]
    rcases (sublist_concat_iff (l := [_])).mp hab with hab | ⟨-, heq⟩
    · exact h.children_lt a b hab
    · exact absurd (congrArg Deed.fate heq).symm hfate

/-- The children of the leaf that is split come last. -/
theorem split (h : Chronicle past g) (hid : id ∈ g.tree.leaves) {w : Word}
    {parts : List (List State)} (hne : parts ≠ []) (tree : g'.tree = g.tree.split id w parts) :
    Chronicle (past ++ [⟨id, .split⟩]) g' := by
  obtain ⟨hlt, hl⟩ := Arena.mem_leaves.mp hid
  constructor
  · rw [tree, SplittingTree.size_split]
    exact fun e he => Nat.lt_add_right _ (h.known_concat hlt e he)
  · intro a
    rw [tree, SplittingTree.isLeaf_split hid w hne, not_and_or, ← h.split_iff]
    simp [or_comm]
  · intro a b hab c hc d hd
    have before (hsplit : ⟨a, .split⟩ ∈ past) : c ∈ g.tree.children a := by
      have ha : a ≠ id := by
        rintro rfl
        exact (h.split_iff a).mp hsplit hl
      rwa [tree, SplittingTree.children_split hid, if_neg ha] at hc
    rcases (sublist_concat_iff (l := [_])).mp hab with hab | ⟨ha, heq⟩
    · have hb : ⟨b, .split⟩ ∈ past := hab.subset (by simp)
      have hne : b ≠ id := by
        rintro rfl
        exact (h.split_iff b).mp hb hl
      rw [tree, SplittingTree.children_split hid, if_neg hne] at hd
      exact h.children_lt a b hab c (before (hab.subset (by simp))) d hd
    · obtain rfl : b = id := congrArg Deed.node heq
      have hclt := Arena.lt_size_of_mem_children (before (List.singleton_sublist.mp ha))
      rw [tree, SplittingTree.children_split hid, if_pos rfl] at hd
      exact hclt.trans_le (List.mem_range'_1.mp hd).1

/-- The history tells the truth after every turn. -/
theorem step (h : Chronicle past g) (hg : g.Consistent M options) (hd : Does g g' d) :
    Chronicle (past ++ [d]) g' := by
  have hlt := hg.lt_size_of_waiting hd.mem_waiting
  have hleaf := hg.mem_leaves_of_waiting hd.mem_waiting
  cases hd with
  | dropped _ tree => exact h.keep hlt tree nofun
  | putBack _ tree => exact h.keep hlt tree nofun
  | split _ hne tree => exact h.split hleaf hne tree

end Chronicle

/-- The work starts with the root, which has no children and waits. -/
theorem exists_start (M : Machine) (options : SplittingOptions) (seed : UInt64) :
    ∃ g, start M options seed = .ok g ∧ g.Consistent M options ∧
      g.tree = .ofSize M.stateCount ∧ g.waiting = [Arena.root] := by
  obtain ⟨g, hg, hstart⟩ := start_consistent M options seed
  have hstart : start M options seed = .ok g := hstart options.checkFineness
  obtain ⟨block, -, hmade⟩ := bind_eq_ok.mp hstart
  cases hmade
  exact ⟨_, hstart, hg, rfl, rfl⟩

end Growth

/-- All turns of the work for a machine. -/
def SplittingTree.history (M : Machine) (options : SplittingOptions) (seed : UInt64) : List Deed :=
  match Growth.start M options seed with
  | .error _ => []
  | .ok g => g.history M options

theorem SplittingTree.history_of_start {seed : UInt64} {g : Growth}
    (h : Growth.start M options seed = .ok g) : history M options seed = g.history M options := by
  rw [history, h]

end StateIdentification
