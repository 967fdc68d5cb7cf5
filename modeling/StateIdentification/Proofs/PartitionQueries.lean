import StateIdentification.Proofs.PartitionRun

/-!
# What a partition answers

The queries of a partition follow from the lists that it stands for: which blocks are in use, what
their members are, and how many. In which block an element is found is known of all elements that
are in lists, and it changes only for elements that are moved.

## Main definitions

- `Partition.Lists`: a block in use, its members, and their number.
- `Partition.AgreeAt`: two partitions give the same answers about a block.
- `Partition.Refuses`: a request is refused and changes nothing.

## Main results

- `Partition.Holds.lists_iff`, `Partition.Holds.agreeAt`, `Partition.Holds.liveBlocks_eq`: the
  answers about blocks.
- `Partition.find_addBlocks`, `Partition.find_splice`: elements that are not moved.
- `Partition.size_blocks_performAll`: the handles that are known stay so.
-/

namespace StateIdentification.Partition

/-- The block is in use, it has the given members, and it counts them. -/
structure Lists (p : Partition) (b : Nat) (es : List Nat) : Prop where
  members : p.members b = .ok es
  size : p.size b = .ok es.length

/-- Both partitions answer alike when they are asked about a block. -/
structure AgreeAt (p q : Partition) (b : Nat) : Prop where
  members : q.members b = p.members b
  size : q.size b = p.size b

/-- The request is refused for the reason, and the partition stays as it is. -/
def Refuses (p : Partition) (r : Request) (reason : PartitionError) : Prop :=
  (match r with
    | .refine b code range => p.refineBounded b code range = .error reason
    | .merge target others => p.merge target others = .error reason) ∧
  p.perform r = p

variable {p q : Partition} {contents old new : List (Option (List Nat))} {b e f : Nat}
  {es : List Nat}

theorem refuses_refine {code : Nat → Nat} {range : Nat} {reason : PartitionError}
    (h : p.refineBounded b code range = .error reason) : p.Refuses (.refine b code range) reason :=
  ⟨h, by rw [perform, h]⟩

theorem refuses_merge {target : Nat} {others : List Nat} {reason : PartitionError}
    (h : p.merge target others = .error reason) : p.Refuses (.merge target others) reason :=
  ⟨h, by rw [perform, h]⟩

namespace Holds

theorem lists_iff (h : p.Holds contents) : p.Lists b es ↔ contents[b]? = some (some es) := by
  exact ⟨fun hlists => h.members_eq_ok_iff.mp hlists.members,
    fun hb => ⟨h.members hb, h.size_eq hb⟩⟩

/-- A block that stands for the same list before and after a change answers alike. -/
theorem agreeAt (h : p.Holds old) (h' : q.Holds new) (heq : (new[b]?).join = (old[b]?).join) :
    p.AgreeAt q b := by
  have live_iff {r : Partition} {contents : List (Option (List Nat))} (h : r.Holds contents) :
      r.isLive b ↔ ∃ es, (contents[b]?).join = some es := by
    simp only [h.isLive_iff, Option.join_eq_some_iff]
  by_cases hlive : p.isLive b
  · obtain ⟨es, hes⟩ := (live_iff h).mp hlive
    have hp := h.lists_iff.mpr (Option.join_eq_some_iff.mp hes)
    have hq := h'.lists_iff.mpr (Option.join_eq_some_iff.mp (heq.trans hes))
    exact ⟨hq.members.trans hp.members.symm, hq.size.trans hp.size.symm⟩
  · have hdead : ¬ q.isLive b := by
      rwa [live_iff h', heq, ← live_iff h]
    have hp := rejects_of_not_isLive hlive
    have hq := rejects_of_not_isLive hdead
    exact ⟨hq.members.trans hp.members.symm, hq.size.trans hp.size.symm⟩

/-- The blocks in use are those that stand for a list. -/
theorem liveBlocks_eq (h : p.Holds contents) :
    p.liveBlocks = (List.range contents.length).filter fun b => ((contents[b]?).join).isSome := by
  rw [liveBlocks, h.size_blocks]
  refine List.filter_congr fun b _ => ?_
  rw [Bool.eq_iff_iff, h.isLive_iff, Option.isSome_iff_exists]
  simp only [Option.join_eq_some_iff]

theorem find_eq (h : p.Holds contents) (hb : contents[b]? = some (some es)) (he : e ∈ es) :
    p.find e = .ok b := by
  rw [find, h.owner hb he]

end Holds

theorem find_congr (hsize : q.universeSize = p.universeSize)
    (heq : q.blockOf[e]? = p.blockOf[e]?) : q.find e = p.find e := by
  rw [find, find, heq, hsize]

/-- An element stays where it is if another one is appended to a block. -/
theorem find_append (hne : f ≠ e) (b : Nat) : (p.append b e).find f = p.find f := by
  cases hb : p.blocks[b]? with
  | none => simp only [append, hb]
  | some block => exact find_congr (universeSize_append p b e) (blockOf_append_of_ne hb hne)

/-- An element stays where it is if a new block takes other elements. -/
theorem find_addBlock (hf : f ∉ es) : (p.addBlock es).find f = p.find f := by
  have fold (b : Nat) (q : Partition) :
      (es.foldl (fun q e => q.append b e) q).find f = q.find f := by
    induction es generalizing q with
    | nil => rfl
    | cons e es ih =>
      obtain ⟨hne, hes⟩ := List.ne_and_not_mem_of_not_mem_cons hf
      rw [List.foldl_cons, ih hes, find_append hne]
  exact fold p.blocks.size _

theorem find_addBlocks {parts : List (List Nat)} (hf : ∀ es ∈ parts, f ∉ es) :
    (parts.foldl addBlock p).find f = p.find f := by
  induction parts generalizing p with
  | nil => rfl
  | cons es parts ih =>
    obtain ⟨hes, hparts⟩ := List.forall_mem_cons.mp hf
    rw [List.foldl_cons, ih hparts, find_addBlock hes]

/-- An element stays where it is unless it is a member of the block that is put behind another. -/
theorem find_splice {target source : Nat}
    (hf : source ≠ target → ∀ es, p.members source = .ok es → f ∉ es) :
    (p.splice target source).find f = p.find f := by
  by_cases hlive : p.isLive source
  case neg => rw [splice_of_not_isLive hlive]
  by_cases heq : source = target
  case pos => rw [heq, splice_self]
  refine find_congr (universeSize_splice p target source) ?_
  cases ht : p.blocks[target]? with
  | none => simp [splice, ht]
  | some t =>
    obtain ⟨s, hs, hslive⟩ : ∃ s, p.blocks[source]? = some s ∧ s.live := by
      simpa [isLive, Option.any_eq_true] using hlive
    have hmembers : p.members source = .ok (p.memberList s) := by
      simp [members, liveBlock, hs, hslive, Except.map]
    rw [splice_eq ht hs hslive heq, getElem?_setAll, if_neg (hf heq _ hmembers)]

section Blocks

variable {range target : Nat} {code : Nat → Nat} {bs others : List Nat}

@[simp]
theorem size_blocks_splice (p : Partition) (target source : Nat) :
    (p.splice target source).blocks.size = p.blocks.size := by
  rw [splice]
  split
  case h_1 => split <;> simp
  case h_2 => rfl

theorem size_blocks_of_merge (h : p.merge target others = .ok (b, q)) :
    q.blocks.size = p.blocks.size := by
  have fold (others : List Nat) (p : Partition) :
      (others.foldl (splice target) p).blocks.size = p.blocks.size := by
    induction others generalizing p with
    | nil => rfl
    | cons source others ih => rw [List.foldl_cons, ih, size_blocks_splice]
  rw [(eq_of_merge h).2, fold others p]

/-- Wherever a split stops, the handles that were known are known. -/
theorem size_blocks_of_refineBounded {answer : Except TableOverflow (List Nat)}
    (h : p.refineBounded b code range = .ok (answer, q)) : p.blocks.size ≤ q.blocks.size := by
  rw [refineBounded] at h
  split at h
  · cases h
  case h_2 es hes =>
    split at h
    · cases h
    · split at h
      · cases h
        exact Nat.le_refl _
      · split at h <;> cases h
        · exact Nat.le_of_eq (size_blocks_retire p b).symm
        · have hscan := Scan.size_blocks_foldl (.start (p.retire b) range) code es
          rwa [Scan.start, size_blocks_retire] at hscan

/-- No request makes a handle unknown again. -/
theorem size_blocks_perform (p : Partition) (r : Request) :
    p.blocks.size ≤ (p.perform r).blocks.size := by
  cases r with
  | refine b code range =>
    rw [perform]
    cases h : p.refineBounded b code range with
    | error reason => exact Nat.le_refl _
    | ok answer => exact size_blocks_of_refineBounded h
  | merge target others =>
    rw [perform]
    cases h : p.merge target others with
    | error reason => exact Nat.le_refl _
    | ok answer => exact Nat.le_of_eq (size_blocks_of_merge h).symm

theorem size_blocks_performAll (p : Partition) (requests : List Request) :
    p.blocks.size ≤ (p.performAll requests).blocks.size := by
  induction requests generalizing p with
  | nil => exact Nat.le_refl _
  | cons r requests ih => exact Nat.le_trans (size_blocks_perform p r) (ih (p.perform r))

end Blocks

end StateIdentification.Partition
