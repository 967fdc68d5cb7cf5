import StateIdentification.Proofs.PartitionQueries

/-!
# What a merge answers

The target of a merge takes the members of the other blocks behind its own, block after block. A
block that is named again has been taken already, and the target does not take itself. If a block is
not in use, nothing happens.

## Main definitions

- `Partition.Merges`: a block takes the members of others.
- `Partition.MergeContract`: what a merge promises.

## Main results

- `Partition.splicedAll_filter`: a block that has been taken need not be named again.
- `Partition.getElem?_splicedAll`: what becomes of each list.
- `Partition.Holds.merges`: what the answers are if blocks are merged.
- `Partition.performAll_mergeContract`: after any requests, a merge keeps its promise.
-/

namespace StateIdentification.Partition

/-- The target takes the members of the other blocks, which go out of use. -/
structure Merges (p q : Partition) (target : Nat) (others : List Nat) : Prop where
  /-- The blocks come in the order in which they are named first. -/
  target_lists : ∀ lists : Nat → List Nat, (∀ b ∈ target :: others, p.members b = .ok (lists b)) →
    q.Lists target (lists target ++ (others.eraseDups.filter (· ≠ target)).flatMap lists)
  moved : ∀ b ∈ others, ∀ es, p.members b = .ok es → ∀ e ∈ es, q.find e = .ok target
  notMoved : ∀ e, (∀ b ∈ others, b ≠ target → ∀ es, p.members b = .ok es → e ∉ es) →
    q.find e = p.find e
  liveBlocks_eq : q.liveBlocks = p.liveBlocks.filter fun c => c = target ∨ c ∉ others
  others : ∀ c ∉ target :: others, p.AgreeAt q c

/-- What is promised of a request to merge blocks. -/
structure MergeContract (p : Partition) (target : Nat) (others : List Nat) : Prop where
  /-- The first block that is not in use is reported. -/
  stale : ∀ before b after, target :: others = before ++ b :: after →
    (∀ c ∈ before, p.isLive c) → ¬ p.isLive b → p.Refuses (.merge target others) (.staleBlock b)
  live : (∀ b ∈ target :: others, p.isLive b) →
    ∃ q, p.merge target others = .ok (target, q) ∧ p.Merges q target others

section Lists

variable {contents : List (Option (List Nat))} {target source b c : Nat} {es fs : List Nat}

theorem spliced_eq_self (h : contents[source]? = some none ∨ source = target) :
    spliced target contents source = contents := by
  rw [spliced]
  split
  case h_1 hs =>
    refine if_pos (h.resolve_left fun hnone => ?_)
    rw [hs] at hnone
    cases hnone
  case h_2 => rfl

/-- The lists after one of two different blocks is put behind the other. -/
theorem getElem?_spliced (ht : contents[target]? = some (some es))
    (hs : contents[source]? = some (some fs)) (hne : source ≠ target) (b : Nat) :
    (spliced target contents source)[b]? =
      if b = source then some none
      else if b = target then some (some (es ++ fs))
      else contents[b]? := by
  obtain ⟨htarget, -⟩ := List.getElem?_eq_some_iff.mp ht
  obtain ⟨hsource, -⟩ := List.getElem?_eq_some_iff.mp hs
  unfold spliced
  rw [ht, hs]
  grind

/-- Blocks other than the target do not get new lists. -/
theorem getElem?_of_spliced (hne : b ≠ target)
    (h : (spliced target contents source)[b]? = some (some es)) :
    contents[b]? = some (some es) := by
  rw [spliced] at h
  split at h
  case h_1 =>
    split at h
    case isTrue => exact h
    case isFalse =>
      rcases entry_set h with ⟨-, heq⟩ | ⟨-, h⟩
      · cases heq
      · rwa [List.getElem?_set_ne hne.symm] at h
  case h_2 => exact h

/-- A block that has been taken, or is the target itself, makes no difference if it is named. -/
theorem splicedAll_filter (h : contents[source]? = some none ∨ source = target)
    (others : List Nat) :
    others.foldl (spliced target) contents =
      (others.filter (!· == source)).foldl (spliced target) contents := by
  induction others generalizing contents with
  | nil => rfl
  | cons b others ih =>
    by_cases hb : b = source
    · rw [List.foldl_cons, hb, spliced_eq_self h, ih h, List.filter_cons_of_neg (by simp)]
    · have hnext : (spliced target contents b)[source]? = some none ∨ source = target :=
        h.imp_left (evolves_spliced contents target b).retired
      rw [List.filter_cons_of_pos (by simpa using hb), List.foldl_cons, List.foldl_cons, ih hnext]

/-- The target has the lists of all other blocks behind its own, these blocks have none, and the
remaining lists are unchanged. The induction takes all mentions of the first block at once. -/
theorem getElem?_splicedAll {lists : Nat → List Nat} {others : List Nat}
    (ht : contents[target]? = some (some es))
    (hlists : ∀ b ∈ others, b ≠ target → contents[b]? = some (some (lists b))) (c : Nat) :
    (others.foldl (spliced target) contents)[c]? =
      if c = target then
        some (some (es ++ (others.eraseDups.filter (· ≠ target)).flatMap lists))
      else if c ∈ others then some none
      else contents[c]? := by
  induction others using inductionOnFirst (fun b : Nat => b) generalizing contents es with
  | nil =>
    by_cases hc : c = target
    · simp [hc, ht]
    · simp [hc]
  | cons source others ih =>
    have hrest : ∀ b ∈ others.filter (!· == source), b ≠ target →
        contents[b]? = some (some (lists b)) :=
      fun b hb => hlists b (List.mem_cons_of_mem _ (List.mem_filter.mp hb).1)
    rw [List.foldl_cons, List.eraseDups_cons]
    by_cases hsource : source = target
    · rw [spliced_eq_self (.inr hsource), splicedAll_filter (.inr hsource), ih ht hrest,
        List.filter_cons_of_neg (by simpa using hsource)]
      by_cases hc : c = target
      · rw [if_pos hc, if_pos hc]
      · have hcs : c ≠ source := hsource ▸ hc
        simp [hc, hcs]
    · have hs := hlists source List.mem_cons_self hsource
      have hnext := getElem?_spliced ht hs hsource
      have hgone : (spliced target contents source)[source]? = some none := by
        rw [hnext, if_pos rfl]
      have hjoined :
          (spliced target contents source)[target]? = some (some (es ++ lists source)) := by
        rw [hnext, if_neg (Ne.symm hsource), if_pos rfl]
      have hrest' : ∀ b ∈ others.filter (!· == source), b ≠ target →
          (spliced target contents source)[b]? = some (some (lists b)) := by
        intro b hb hbt
        have hbs : b ≠ source := by simpa using (List.mem_filter.mp hb).2
        rw [hnext, if_neg hbs, if_neg hbt, hrest b hb hbt]
      rw [splicedAll_filter (.inl hgone), ih hjoined hrest',
        List.filter_cons_of_pos (by simpa using hsource), List.flatMap_cons, List.append_assoc]
      by_cases hc : c = target
      · rw [if_pos hc, if_pos hc]
      · by_cases hcs : c = source
        · simp [hcs, hgone, hsource]
        · simp [hc, hcs, hnext]

end Lists

namespace Holds

variable {p q : Partition} {contents : List (Option (List Nat))} {target e : Nat}
  {others es : List Nat}

/-- Blocks that are put behind the target move only their members. -/
theorem find_spliceAll (h : p.Holds contents) (ht : contents[target]? = some (some es))
    (he : ∀ b ∈ others, b ≠ target → ∀ es, p.members b = .ok es → e ∉ es) :
    (others.foldl (Partition.splice target) p).find e = p.find e := by
  induction others generalizing p contents es with
  | nil => rfl
  | cons source others ih =>
    obtain ⟨hsource, hothers⟩ := List.forall_mem_cons.mp he
    obtain ⟨fs, hfs⟩ := getElem?_spliced_target ht source
    have hnext := h.splice ht source
    rw [List.foldl_cons, ih hnext hfs fun b hb hne gs hgs => ?_, find_splice hsource]
    exact hothers b hb hne gs
      (h.members (getElem?_of_spliced hne (hnext.members_eq_ok_iff.mp hgs)))

/-- If all blocks are in use, the target takes the members of the others. -/
theorem merges (h : p.Holds contents) (hlive : ∀ b ∈ target :: others, p.isLive b) :
    ∃ q, p.merge target others = .ok (target, q) ∧ p.Merges q target others := by
  obtain ⟨q, hq, h'⟩ := h.merge hlive
  obtain ⟨ts, ht⟩ := h.isLive_iff.mp (hlive target List.mem_cons_self)
  have hlists : ∀ b ∈ others, contents[b]? = some (some (listAt contents b)) := by
    intro b hb
    obtain ⟨es, hes⟩ := h.isLive_iff.mp (hlive b (List.mem_cons_of_mem target hb))
    rw [listAt_eq hes, hes]
  have hnew := getElem?_splicedAll ht fun b hb _ => hlists b hb
  refine ⟨q, hq, fun lists hall => ?_, fun b hb es hes e he => ?_, fun e he => ?_, ?_,
    fun c hc => h.agreeAt h' ?_⟩
  · obtain ⟨htarget, hothers⟩ := List.forall_mem_cons.mp hall
    have hentry := getElem?_splicedAll (h.members_eq_ok_iff.mp htarget)
      (fun b hb _ => h.members_eq_ok_iff.mp (hothers b hb)) target
    rw [if_pos rfl] at hentry
    exact h'.lists_iff.mpr hentry
  · have hb' := h.members_eq_ok_iff.mp hes
    refine h'.find_eq ((hnew target).trans (if_pos rfl)) (List.mem_append.mpr ?_)
    by_cases hbt : b = target
    · rw [hbt, ht] at hb'
      cases hb'
      exact .inl he
    · refine .inr (List.mem_flatMap.mpr ⟨b, ?_, listAt_eq hb' ▸ he⟩)
      simpa [hbt] using hb
  · rw [(eq_of_merge hq).2, h.find_spliceAll ht he]
  · rw [h'.liveBlocks_eq, h.liveBlocks_eq, ← h'.size_blocks, size_blocks_of_merge hq,
      h.size_blocks, List.filter_filter]
    refine List.filter_congr fun c _ => ?_
    rw [hnew c]
    by_cases hct : c = target
    · simp [hct, ht]
    · by_cases hco : c ∈ others <;> simp [hct, hco]
  · obtain ⟨hct, hco⟩ := List.ne_and_not_mem_of_not_mem_cons hc
    rw [hnew c, if_neg hct, if_neg hco]

end Holds

/-- After any requests to the coarsest partition, granted or refused, a merge keeps its promise. -/
theorem performAll_mergeContract (size : Nat) (requests : List Request) (target : Nat)
    (others : List Nat) :
    ((coarsest size).performAll requests).MergeContract target others := by
  obtain ⟨contents, h, -⟩ := (holds_coarsest size).performAll requests
  refine ⟨fun before b after heq hbefore hb => refuses_merge ?_, h.merges⟩
  have hfind : (target :: others).find? (!((coarsest size).performAll requests).isLive ·) =
      some b := by
    refine List.find?_eq_some_iff_append.mpr ⟨by simpa using hb, before, after, heq, ?_⟩
    simpa using hbefore
  rw [merge, hfind]

/-- The target is named among the others, and one of them twice. -/
example :
    (((coarsest 3).performAll [.refine 0 id 3]).merge 1 [3, 1, 2, 3]).map (·.2.members 1) =
      .ok (.ok [0, 2, 1]) := by
  decide

end StateIdentification.Partition
