import StateIdentification.Proofs.GrowthHistory
import StateIdentification.Proofs.TurnByTurn

/-!
# The order in which nodes are numbered

The nodes of a splitting tree are numbered as they are created, and leaves wait in a queue to be
split. The work goes in rounds: in every round, each leaf of the queue has one turn. So a node is
created in the round that is given by its depth, and one round later for each time that a node above
it was put back. The numbers ascend with these rounds. They ascend with the depth, as those of a
breadth-first traversal do, unless a leaf that was put back is overtaken, which means that a deeper
leaf is split before it.

## Main definitions

- `Arena.NumberedByDepth`: no node lies deeper than a node with a greater number.
- `SplittingTree.round`: the round in which a node is created.
- `SplittingTree.Overtaken`: a leaf that was put back is split after a deeper leaf.
- `Rounds`: what a queue that is worked off in rounds promises.

## Main results

- `Rounds.join`: one turn of a queue that is worked off in rounds.
- `Growth.InRounds.step`, `Growth.ByDepth.step`: one turn of the work.
- `SplittingTree.ofMachine_numbering`: the numbers of the nodes in the tree of a machine.
- `SplittingTree.not_numberedByDepth_laggard`: a tree whose numbers do not go by depth.
-/

namespace StateIdentification

open scoped List

/-- No node lies deeper than a node that is listed after it. -/
def Arena.NumberedByDepth {α : Type} (t : Arena α) : Prop :=
  t.ids.Pairwise fun a b => t.depth a ≤ t.depth b

theorem Arena.numberedByDepth_iff {α : Type} {t : Arena α} :
    t.NumberedByDepth ↔ ∀ a b, a < b → b < t.size → t.depth a ≤ t.depth b := by
  rw [NumberedByDepth, List.pairwise_iff_getElem]
  simp only [ids, List.length_range, List.getElem_range]
  exact ⟨fun h a b hab hb => h a b (hab.trans hb) hb hab, fun h a b _ hb hab => h a b hab hb⟩

/-- How often one of the nodes was put back. -/
def putBacks (past : List Deed) (nodes : List Nat) : Nat :=
  past.countP fun d => d.fate = .putBack ∧ d.node ∈ nodes

namespace SplittingTree

/-- The round in which a node is created: one for every level, and one more for each time that a
node above it was put back. -/
def round (past : List Deed) (t : SplittingTree) (id : Nat) : Nat :=
  t.depth id + putBacks past (t.ancestors id)

/-- The round in which a leaf has its next turn. -/
def due (past : List Deed) (t : SplittingTree) (id : Nat) : Nat :=
  t.depth id + putBacks past (t.ancestors id ++ [id])

/-- A leaf is put back, then a deeper leaf is split, and then the first one. -/
def Overtaken (past : List Deed) (t : SplittingTree) : Prop :=
  ∃ a b, [⟨a, .putBack⟩, ⟨b, .split⟩, ⟨a, .split⟩] <+ past ∧ t.depth a < t.depth b

end SplittingTree

/-- A queue that is worked off in rounds: the nodes that wait have their next turn in the round
`now` or in the one after it, and no node with a number below `size` was created later than that. -/
structure Rounds (round due : Nat → Nat) (size : Nat) (waiting : List Nat) (now : Nat) : Prop where
  ascending : ∀ a b, a < b → b < size → round a ≤ round b
  queue : waiting.Pairwise fun a b => due a ≤ due b
  next : ∀ a ∈ waiting, now ≤ due a ∧ due a ≤ now + 1
  reached : ∀ a < size, round a ≤ now + 1

namespace Rounds

variable {round due round' due' : Nat → Nat} {size size' now id : Nat} {rest new : List Nat}

/-- The first node of the queue tells which round it is. -/
theorem advance (h : Rounds round due size (id :: rest) now) :
    Rounds round due size (id :: rest) (due id) := by
  obtain ⟨hfirst, -⟩ := List.pairwise_cons.mp h.queue
  obtain ⟨hnow, hdue⟩ := h.next id List.mem_cons_self
  refine ⟨h.ascending, h.queue, fun a ha => ?_, fun a ha => (h.reached a ha).trans (by omega)⟩
  have hlate := (h.next a ha).2
  rcases List.mem_cons.mp ha with rfl | hrest
  · omega
  · have := hfirst a hrest
    omega

/-- Whatever joins the queue in a turn, and whatever is created in it, belongs to the next round. -/
theorem join (h : Rounds round due size (id :: rest) now)
    (round_old : ∀ a < size, round' a = round a)
    (round_new : ∀ a, size ≤ a → a < size' → round' a = now + 1)
    (due_old : ∀ a ∈ rest, due' a = due a) (due_new : ∀ a ∈ new, due' a = now + 1) :
    Rounds round' due' size' (rest ++ new) now := by
  have next_rest {a : Nat} (ha : a ∈ rest) : now ≤ due' a ∧ due' a ≤ now + 1 := by
    rw [due_old a ha]
    exact h.next a (List.mem_cons_of_mem _ ha)
  have reached {a : Nat} (ha : a < size') : round' a ≤ now + 1 := by
    rcases Nat.lt_or_ge a size with hlt | hge
    · exact round_old a hlt ▸ h.reached a hlt
    · exact (round_new a hge ha).le
  refine ⟨fun a b hab hb => ?_, List.pairwise_append.mpr ⟨?_, ?_, fun a ha b hb => ?_⟩,
    fun a ha => ?_, fun a => reached⟩
  · rcases Nat.lt_or_ge b size with hlt | hge
    · rw [round_old a (hab.trans hlt), round_old b hlt]
      exact h.ascending a b hab hlt
    · exact (reached (hab.trans hb)).trans (round_new b hge hb).ge
  · refine (List.pairwise_cons.mp h.queue).2.imp_of_mem fun {a b} ha hb hle => ?_
    rwa [due_old a ha, due_old b hb]
  · refine List.pairwise_of_forall_mem_list fun a ha b hb => ?_
    rw [due_new a ha, due_new b hb]
  · rw [due_new b hb]
    exact (next_rest ha).2
  · rcases List.mem_append.mp ha with ha | ha
    · exact next_rest ha
    · rw [due_new a ha]
      exact ⟨Nat.le_succ now, Nat.le_refl _⟩

end Rounds

variable {M : Machine} {options : SplittingOptions} {past : List Deed} {d : Deed}

theorem putBacks_concat (past : List Deed) (d : Deed) (nodes : List Nat) :
    putBacks (past ++ [d]) nodes =
      putBacks past nodes + if d.fate = .putBack ∧ d.node ∈ nodes then 1 else 0 := by
  simp [putBacks, List.countP_append, List.countP_singleton]

namespace SplittingTree

variable {t : SplittingTree} {id c : Nat} {w : Word} {parts : List (List State)}

/-- If a leaf of the two lowest levels is split, then its children may have the greatest numbers. -/
theorem numberedByDepth_split (h : t.NumberedByDepth)
    (hle : ∀ c < t.size, t.depth c ≤ t.depth id + 1) : (t.split id w parts).NumberedByDepth := by
  rw [Arena.numberedByDepth_iff] at h ⊢
  intro a b hab hb
  rw [size_split] at hb
  rcases Nat.lt_or_ge b t.size with hlt | hge
  · rw [depth_split_of_lt (hab.trans hlt), depth_split_of_lt hlt]
    exact h a b hab hlt
  · rw [depth_split_of_mem (List.mem_range'_1.mpr ⟨hge, hb⟩)]
    rcases Nat.lt_or_ge a t.size with halt | hage
    · exact depth_split_of_lt halt id w parts ▸ hle a halt
    · exact (depth_split_of_mem (List.mem_range'_1.mpr ⟨hage, hab.trans hb⟩) id w).le

/-- The turn of a leaf changes the round of no node, as the leaf lies above none. -/
theorem round_concat (h : t.Divides M) (hd : d.node ∈ t.leaves) (hc : c < t.size) :
    t.round (past ++ [d]) c = t.round past c := by
  simp [round, putBacks_concat, h.rooted.notMem_ancestors hd hc]

/-- Only a leaf that is put back is due later than before. -/
theorem due_concat (hd : d.fate ≠ .putBack) : t.due (past ++ [d]) c = t.due past c := by
  simp [due, putBacks_concat, hd]

theorem due_concat_of_ne (h : t.Divides M) (hd : d.node ∈ t.leaves) (hc : c < t.size)
    (hne : d.node ≠ c) : t.due (past ++ [d]) c = t.due past c := by
  simp [due, putBacks_concat, h.rooted.notMem_ancestors hd hc, hne]

theorem due_concat_putBack : t.due (past ++ [⟨c, .putBack⟩]) c = t.due past c + 1 := by
  simp [due, putBacks_concat, Nat.add_assoc]

theorem round_split (h : t.Divides M) (hid : id ∈ t.leaves) (hc : c < t.size) :
    (t.split id w parts).round past c = t.round past c := by
  rw [round, round, depth_split_of_lt hc, split, h.rooted.ancestors_grow hid _ _ hc]

theorem due_split (h : t.Divides M) (hid : id ∈ t.leaves) (hc : c < t.size) :
    (t.split id w parts).due past c = t.due past c := by
  rw [due, due, depth_split_of_lt hc, split, h.rooted.ancestors_grow hid _ _ hc]

/-- The children of a node are created in the round after its last turn. -/
theorem round_child (h : t.Divides M) (hc : c ∈ t.children id) :
    t.round past c = t.due past id + 1 := by
  rw [round, due, h.depth_child hc, h.rooted.ancestors_child hc]
  omega

/-- A leaf that had no turn yet is due in the round in which it was created. -/
theorem due_eq_round (h : ∀ d ∈ past, d.node ≠ id) : t.due past id = t.round past id := by
  rw [due, round, Nat.add_left_cancel_iff]
  refine List.countP_congr fun d hd => ?_
  simp [h d hd]

/-- Overtaking cannot be undone by further turns. -/
theorem Overtaken.mono {t' : SplittingTree} {past' : List Deed} (h : t.Overtaken past)
    (hpast : past <+ past') (hdepth : ∀ d ∈ past, t'.depth d.node = t.depth d.node) :
    t'.Overtaken past' := by
  obtain ⟨a, b, hsub, hlt⟩ := h
  have ha := hdepth ⟨a, .putBack⟩ (hsub.subset (by simp))
  have hb := hdepth ⟨b, .split⟩ (hsub.subset (by simp))
  exact ⟨a, b, hsub.trans hpast, by rwa [ha, hb]⟩

end SplittingTree

section

variable [RandomSource]

namespace Growth

variable {g g' : Growth}

/-- The work goes in rounds. -/
def InRounds (past : List Deed) (g : Growth) : Prop :=
  ∃ now, Rounds (g.tree.round past) (g.tree.due past) g.tree.size g.waiting now

namespace InRounds

/-- The new leaves were created in the next round, and have their next turn in it. -/
theorem split (h : InRounds past g) (hp : Chronicle past g) (hg : g.Consistent M options)
    (hg' : g'.Consistent M options) {id : Nat} {rest : List Nat} {w : Word}
    {parts : List (List State)} (takes : g.waiting = id :: rest)
    (tree : g'.tree = g.tree.split id w parts)
    (waits : g'.waiting = rest ++ List.range' g.tree.size parts.length) :
    InRounds (past ++ [⟨id, .split⟩]) g' := by
  obtain ⟨now, h⟩ := h
  have hid : id ∈ g.waiting := takes ▸ List.mem_cons_self
  have hleaf := hg.mem_leaves_of_waiting hid
  have hlt := hg.lt_size_of_waiting hid
  have due_old {c : Nat} (hc : c < g.tree.size) :
      g'.tree.due (past ++ [⟨id, .split⟩]) c = g.tree.due past c := by
    rw [tree, SplittingTree.due_split hg.divides hleaf hc, SplittingTree.due_concat (by simp)]
  have round_new {c : Nat} (hc : c ∈ List.range' g.tree.size parts.length) :
      g'.tree.round (past ++ [⟨id, .split⟩]) c = g.tree.due past id + 1 := by
    have hchild : c ∈ g'.tree.children id := by
      rwa [tree, SplittingTree.children_split hleaf, if_pos rfl]
    rw [SplittingTree.round_child hg'.divides hchild, due_old hlt]
  rw [takes] at h
  refine ⟨g.tree.due past id, ?_⟩
  rw [waits]
  refine h.advance.join (fun c hc => ?_) (fun c hge hc => ?_)
    (fun c hc => due_old (hg.lt_size_of_waiting (takes ▸ List.mem_cons_of_mem _ hc)))
    (fun c hc => ?_)
  · rw [tree, SplittingTree.round_split hg.divides hleaf hc,
      SplittingTree.round_concat hg.divides hleaf hc]
  · rw [tree, SplittingTree.size_split] at hc
    exact round_new (List.mem_range'_1.mpr ⟨hge, hc⟩)
  · have hnew : ∀ e ∈ past ++ [⟨id, .split⟩], e.node ≠ c := fun e he =>
      ((hp.known_concat hlt e he).trans_le (List.mem_range'_1.mp hc).1).ne
    rw [SplittingTree.due_eq_round hnew, round_new hc]

/-- Every turn of the work is one of a queue that is worked off in rounds. -/
theorem step (h : InRounds past g) (hp : Chronicle past g) (hg : g.Consistent M options)
    (hg' : g'.Consistent M options) (hd : Does g g' d) : InRounds (past ++ [d]) g' := by
  have hleaf := hg.mem_leaves_of_waiting hd.mem_waiting
  have round_old {c : Nat} (hc : c < g.tree.size) :
      g.tree.round (past ++ [d]) c = g.tree.round past c :=
    SplittingTree.round_concat hg.divides hleaf hc
  cases hd with
  | @dropped id rest takes tree waits =>
    obtain ⟨now, h⟩ := h
    rw [takes] at h
    refine ⟨g.tree.due past id, ?_⟩
    rw [tree, waits, ← List.append_nil rest]
    refine h.advance.join (fun c => round_old) (fun c hge hc => ?_) (fun c _ => ?_) (by simp)
    · omega
    · exact SplittingTree.due_concat nofun
  | @putBack id rest takes tree waits =>
    obtain ⟨-, hrest⟩ := hg.of_takes takes
    obtain ⟨now, h⟩ := h
    rw [takes] at h
    refine ⟨g.tree.due past id, ?_⟩
    rw [tree, waits]
    refine h.advance.join (fun c => round_old) (fun c hge hc => ?_) (fun c hc => ?_)
      (fun c hc => ?_)
    · omega
    · have hlt := hg.lt_size_of_waiting (takes ▸ List.mem_cons_of_mem id hc)
      have hne : id ≠ c := fun heq => hrest (heq ▸ hc)
      exact SplittingTree.due_concat_of_ne hg.divides hleaf hlt hne
    · rw [List.mem_singleton.mp hc]
      exact SplittingTree.due_concat_putBack
  | split takes hne tree waits => exact h.split hp hg hg' takes tree waits

end InRounds

/-- As long as no leaf is overtaken, the numbers of the nodes go by depth: only leaves that were put
back wait behind deeper ones, or after deeper ones were split. -/
structure ByDepth (past : List Deed) (g : Growth) : Prop where
  numbered : g.tree.NumberedByDepth
  queue : g.waiting.Pairwise fun a b => g.tree.depth b < g.tree.depth a → ⟨b, .putBack⟩ ∈ past
  passed : ∀ a ∈ g.waiting, ∀ b, ⟨b, .split⟩ ∈ past → g.tree.depth a < g.tree.depth b →
    [⟨a, .putBack⟩, ⟨b, .split⟩] <+ past

namespace ByDepth

/-- Only leaves of the two lowest levels are split. -/
theorem depth_le (h : ByDepth past g) (hp : Chronicle past g) (hg : g.Consistent M options)
    {id : Nat} (hid : id ∈ g.waiting) (hno : ¬ g.tree.Overtaken (past ++ [⟨id, .split⟩])) {c : Nat}
    (hc : c < g.tree.size) : g.tree.depth c ≤ g.tree.depth id + 1 := by
  rcases Nat.eq_zero_or_pos c with rfl | hpos
  · have hroot : g.tree.depth 0 = 0 := hg.divides.depth_root
    omega
  · obtain ⟨p, hpc, -⟩ := hg.divides.rooted c hpos hc
    rw [hg.divides.depth_child hpc]
    refine Nat.succ_le_succ (Nat.not_lt.mp fun hlt => hno ⟨id, p, ?_, hlt⟩)
    have hsplit := (hp.split_iff p).mpr (Arena.not_isLeaf_of_mem hpc)
    exact (h.passed id hid p hsplit hlt).append (.refl [_])

/-- A turn that splits no leaf changes the order of the queue only. -/
theorem keep (h : ByDepth past g) {id : Nat} {fate : Fate} (hfate : fate ≠ .split)
    (tree : g'.tree = g.tree) (waits : g'.waiting ⊆ g.waiting)
    (queue : g'.waiting.Pairwise fun a b =>
      g.tree.depth b < g.tree.depth a → ⟨b, .putBack⟩ ∈ past ++ [⟨id, fate⟩]) :
    ByDepth (past ++ [⟨id, fate⟩]) g' := by
  refine ⟨tree ▸ h.numbered, tree ▸ queue, fun a ha b hb hlt => ?_⟩
  have hb : ⟨b, .split⟩ ∈ past := by simpa [hfate.symm] using hb
  rw [tree] at hlt
  exact (h.passed a (waits ha) b hb hlt).trans (List.sublist_append_left _ _)

/-- The children of the leaf that is split lie as deep as the deepest nodes. -/
theorem split (h : ByDepth past g) (hp : Chronicle past g) (hg : g.Consistent M options)
    {id : Nat} {rest : List Nat} {w : Word} {parts : List (List State)}
    (takes : g.waiting = id :: rest) (tree : g'.tree = g.tree.split id w parts)
    (waits : g'.waiting = rest ++ List.range' g.tree.size parts.length)
    (hno : ¬ g.tree.Overtaken (past ++ [⟨id, .split⟩])) :
    ByDepth (past ++ [⟨id, .split⟩]) g' := by
  have hid : id ∈ g.waiting := takes ▸ List.mem_cons_self
  have hle {c : Nat} (hc : c < g.tree.size) := h.depth_le hp hg hid hno hc
  have old {c : Nat} (hc : c < g.tree.size) : g'.tree.depth c = g.tree.depth c := by
    rw [tree, SplittingTree.depth_split_of_lt hc]
  have new {c : Nat} (hc : c ∈ List.range' g.tree.size parts.length) :
      g'.tree.depth c = g.tree.depth id + 1 := by
    rw [tree, SplittingTree.depth_split_of_mem hc]
  have lt_of_rest {c : Nat} (hc : c ∈ rest) : c < g.tree.size :=
    hg.lt_size_of_waiting (takes ▸ List.mem_cons_of_mem id hc)
  obtain ⟨hfirst, hqueue⟩ := List.pairwise_cons.mp (takes ▸ h.queue)
  constructor
  · exact tree ▸ SplittingTree.numberedByDepth_split h.numbered fun c => hle
  · rw [waits]
    refine List.pairwise_append.mpr ⟨hqueue.imp_of_mem fun {a b} ha hb hput hlt => ?_, ?_,
      fun a ha b hb hlt => ?_⟩
    · rw [old (lt_of_rest ha), old (lt_of_rest hb)] at hlt
      exact List.mem_append_left _ (hput hlt)
    · refine List.pairwise_of_forall_mem_list fun a ha b hb hlt => ?_
      rw [new ha, new hb] at hlt
      exact absurd hlt (Nat.lt_irrefl _)
    · rw [new hb, old (lt_of_rest ha)] at hlt
      exact absurd hlt (hle (lt_of_rest ha)).not_gt
  · -- A leaf that is overtaken by the leaf of this turn waited behind it, so it was put back.
    intro a ha b hb hlt
    have hbsize : b < g.tree.size := hp.known_concat (hg.lt_size_of_waiting hid) _ hb
    have hb : ⟨b, .split⟩ ∈ past ∨ b = id := by simpa using hb
    rcases List.mem_append.mp (waits ▸ ha) with hrest | hnew
    · rw [old (lt_of_rest hrest), old hbsize] at hlt
      rcases hb with hb | rfl
      · have hpair := h.passed a (takes ▸ List.mem_cons_of_mem _ hrest) b hb hlt
        exact hpair.trans (List.sublist_append_left _ _)
      · have hput := hfirst a hrest hlt
        exact (List.singleton_sublist.mpr hput).append (.refl [_])
    · rw [new hnew, old hbsize] at hlt
      exact absurd hlt (hle hbsize).not_gt

/-- As long as no leaf is overtaken, the numbers of the nodes go by depth after every turn. -/
theorem step (h : ByDepth past g) (hp : Chronicle past g) (hg : g.Consistent M options)
    (hd : Does g g' d) (hno : ¬ g.tree.Overtaken (past ++ [d])) : ByDepth (past ++ [d]) g' := by
  cases hd with
  | @dropped id rest takes tree waits =>
    have hqueue := (List.pairwise_cons.mp (takes ▸ h.queue)).2
    refine h.keep nofun tree (by simp [waits, takes]) ?_
    rw [waits]
    exact hqueue.imp fun hput hdeep => List.mem_append_left _ (hput hdeep)
  | @putBack id rest takes tree waits =>
    have hqueue := (List.pairwise_cons.mp (takes ▸ h.queue)).2
    refine h.keep nofun tree (by simp [waits, takes]) ?_
    rw [waits]
    refine List.pairwise_append.mpr ⟨?_, List.pairwise_singleton _ _, fun a _ b hb _ => ?_⟩
    · exact hqueue.imp fun hput hdeep => List.mem_append_left _ (hput hdeep)
    · rw [List.mem_singleton.mp hb]
      exact List.mem_append_right _ List.mem_cons_self
  | split takes hne tree waits => exact h.split hp hg takes tree waits hno

end ByDepth

/-- If the numbers of the nodes go by depth, then no leaf was overtaken: its children would have
greater numbers than those of the deeper leaf, which lie deeper. -/
theorem Chronicle.not_overtaken (hp : Chronicle past g) (hg : g.Consistent M options)
    (h : g.tree.NumberedByDepth) : ¬ g.tree.Overtaken past := by
  rintro ⟨a, b, hsub, hlt⟩
  have parent {e : Nat} (he : ⟨e, .split⟩ ∈ past) : ∃ c, c ∈ g.tree.children e :=
    List.exists_mem_of_ne_nil _ (mt Arena.isLeaf_iff.mpr ((hp.split_iff e).mp he))
  obtain ⟨c, hc⟩ := parent (hsub.subset (by simp) : ⟨a, .split⟩ ∈ past)
  obtain ⟨d, hd⟩ := parent (hsub.subset (by simp) : ⟨b, .split⟩ ∈ past)
  have hdc : d < c := hp.children_lt b a ((List.sublist_cons_self _ _).trans hsub) d hd c hc
  have hle := Arena.numberedByDepth_iff.mp h d c hdc (Arena.lt_size_of_mem_children hc)
  rw [hg.divides.depth_child hc, hg.divides.depth_child hd] at hle
  omega

/-- What holds of the numbers of the nodes after every turn. -/
structure Numbering (past : List Deed) (g : Growth) : Prop where
  chronicle : Chronicle past g
  rounds : InRounds past g
  byDepth : ¬ g.tree.Overtaken past → ByDepth past g

namespace Numbering

/-- At the start the root is the only node, and it waits. -/
theorem start (hg : g.Consistent M options) (htree : g.tree = .ofSize M.stateCount)
    (hwaiting : g.waiting = [Arena.root]) : Numbering [] g := by
  have hsize : g.tree.size = 1 := htree ▸ rfl
  have hdepth : g.tree.depth Arena.root = 0 := hg.divides.depth_root
  have hdue : g.tree.due [] Arena.root = 0 := hdepth
  refine ⟨.start ?_, ⟨0, ⟨?_, ?_, ?_, ?_⟩⟩, fun _ => ⟨Arena.numberedByDepth_iff.mpr ?_, ?_, ?_⟩⟩
  · exact htree ▸ funext (Arena.children_single _)
  · intro a b hab hb
    omega
  · exact hwaiting ▸ List.pairwise_singleton _ _
  · simp [hwaiting, hdue]
  · intro a ha
    obtain rfl : a = Arena.root := Nat.lt_one_iff.mp (hsize ▸ ha)
    exact hdepth.trans_le (Nat.zero_le 1)
  · intro a b hab hb
    omega
  · exact hwaiting ▸ List.pairwise_singleton _ _
  · simp

/-- The numbering stays as it should be in every turn. -/
theorem step (h : Numbering past g) (hg : g.Consistent M options) (hg' : g'.Consistent M options)
    (hd : Does g g' d) : Numbering (past ++ [d]) g' := by
  refine ⟨h.chronicle.step hg hd, h.rounds.step h.chronicle hg hg' hd, fun hno => ?_⟩
  have hlt := hg.lt_size_of_waiting hd.mem_waiting
  have hbefore : ¬ g.tree.Overtaken (past ++ [d]) := fun hover =>
    hno (hover.mono (.refl _) fun e he => hd.depth_eq (h.chronicle.known_concat hlt e he))
  have hpast : ¬ g.tree.Overtaken past := fun hover =>
    hbefore (hover.mono (List.sublist_append_left _ _) fun _ _ => rfl)
  exact (h.byDepth hpast).step h.chronicle hg hd hbefore

end Numbering

end Growth

/-- The numbers of the nodes ascend with the rounds in which the nodes are created. They ascend with
the depth if and only if no leaf that was put back is overtaken by a deeper one. -/
theorem SplittingTree.ofMachine_numbering (M : Machine) (options : SplittingOptions)
    (seed : UInt64) :
    ∃ r, ofMachine M options seed = .ok r ∧
      (∀ a b, a < b → b < r.tree.size →
        r.tree.round (history M options seed) a ≤ r.tree.round (history M options seed) b) ∧
      (r.tree.NumberedByDepth ↔ ¬ r.tree.Overtaken (history M options seed)) := by
  obtain ⟨g, hstart, hg, htree, hwaiting⟩ := Growth.exists_start M options seed
  have hnumbering : Growth.Numbering [] g := .start hg htree hwaiting
  obtain ⟨g', complete, hrun, hg', h⟩ :=
    hg.run_induction hnumbering fun _ _ _ _ hg hg' hd h => h.step hg hg' hd
  obtain ⟨now, hrounds⟩ := h.rounds
  rw [history_of_start hstart]
  refine ⟨_, (congrArg (· >>= Growth.run M options) hstart).trans hrun, hrounds.ascending, ?_⟩
  exact ⟨h.chronicle.not_overtaken hg', fun hno => (h.byDepth hno).numbered⟩

end

/-- The numbers of the nodes need not go by depth. The leaf of the last two states is put back and
then overtaken, so its children have greater numbers than two deeper nodes. -/
theorem SplittingTree.not_numberedByDepth_laggard :
    ∃ r, ofMachine laggard .hopcroft 0 = .ok r ∧
      r.tree.ids.map r.tree.depth = [0, 1, 1, 2, 2, 3, 3, 2, 2] ∧ ¬ r.tree.NumberedByDepth := by
  obtain ⟨r, hof, hdepths⟩ : ∃ r, ofMachine laggard .hopcroft 0 = .ok r ∧
      r.tree.ids.map r.tree.depth = [0, 1, 1, 2, 2, 3, 3, 2, 2] :=
    exists_of_runFor 12 (by decide +kernel)
  refine ⟨r, hof, hdepths, ?_⟩
  rw [Arena.NumberedByDepth, ← List.pairwise_map, hdepths]
  decide

end StateIdentification
