import StateIdentification.Proofs.PartitionContents

/-!
# Merging blocks

To put one list behind another, only the last link of the one and the first link back of the other
are changed. In terms of the lists that a partition stands for, the members of one block move behind
those of another one, and the block that they come from stands for nothing.

## Main definitions

- `Partition.spliced`: what becomes of the lists if one block is put behind another one.

## Main results

- `Partition.Holds.splice`, `Partition.Holds.merge`: putting one or several blocks behind another.
-/

namespace StateIdentification.Partition

/-- After the entries of some elements are set, exactly these are new. -/
theorem getElem?_setAll (numbers : Array Nat) (es : List Nat) (b f : Nat) :
    (es.foldl (·.setIfInBounds · b) numbers)[f]? =
      if f ∈ es then numbers[f]?.map fun _ => b else numbers[f]? := by
  induction es generalizing numbers with
  | nil => simp
  | cons e es ih =>
    rw [List.foldl_cons, ih]
    grind

section Splice

variable {p : Partition} {target source f : Nat} {t s : Block} {es fs : List Nat}

theorem splice_self (p : Partition) (target : Nat) : p.splice target target = p := by
  rw [splice]
  split <;> simp

theorem splice_of_not_isLive (hlive : ¬ p.isLive source) : p.splice target source = p := by
  rw [splice]
  split
  case h_1 t s _ hs => rw [if_pos (.inr (by simpa [isLive, hs] using hlive))]
  case h_2 => rfl

@[simp]
theorem universeSize_splice (p : Partition) (target source : Nat) :
    (p.splice target source).universeSize = p.universeSize := by
  have fold (fs : List Nat) (numbers : Array Nat) :
      (fs.foldl (·.setIfInBounds · target) numbers).size = numbers.size := by
    induction fs generalizing numbers with
    | nil => rfl
    | cons f fs ih => rw [List.foldl_cons, ih, Array.size_setIfInBounds]
  rw [splice]
  split
  case h_1 => split <;> simp [universeSize, fold]
  case h_2 => rfl

/-- The block behind whose last member the members of another block are put. -/
def joined (t s : Block) : Block :=
  { t with head := t.head.or s.head, tail := s.tail.or t.tail, size := t.size + s.size }

variable (ht : p.blocks[target]? = some t) (hs : p.blocks[source]? = some s) (hlive : s.live)
  (hne : source ≠ target)

include ht hs hlive hne

theorem splice_eq : p.splice target source =
    { next := match t.tail, s.head with
        | some last, some e => p.next.setIfInBounds last (some e)
        | _, _ => p.next
      prev := match s.head with
        | none => p.prev
        | some e => p.prev.setIfInBounds e t.tail
      blockOf := (p.memberList s).foldl (·.setIfInBounds · target) p.blockOf
      blocks := (p.blocks.setIfInBounds target (joined t s)).setIfInBounds source
        { s with live := false } } := by
  rw [splice, ht, hs]
  exact if_neg (by simp [hne, hlive])

theorem next_splice_of_ne (hf : t.tail ≠ some f) :
    (p.splice target source).next[f]? = p.next[f]? := by
  rw [splice_eq ht hs hlive hne]
  grind

theorem prev_splice_of_ne (hf : s.head ≠ some f) :
    (p.splice target source).prev[f]? = p.prev[f]? := by
  rw [splice_eq ht hs hlive hne]
  grind

theorem getElem?_blocks_splice (c : Nat) : (p.splice target source).blocks[c]? =
    if c = source then some { s with live := false }
    else if c = target then some (joined t s)
    else p.blocks[c]? := by
  obtain ⟨htarget, -⟩ := Array.getElem?_eq_some_iff.mp ht
  obtain ⟨hsource, -⟩ := Array.getElem?_eq_some_iff.mp hs
  rw [splice_eq ht hs hlive hne]
  grind

/-- The lists of both blocks are joined. -/
theorem Linked.splice (h : p.Linked t es) (h' : p.Linked s fs) (nodup : es.Nodup)
    (nodup' : fs.Nodup) (apart : ∀ e ∈ es, e ∉ fs) :
    (p.splice target source).Linked (joined t s) (es ++ fs) := by
  constructor
  · rw [joined, h.head, h'.head, List.head?_append]
  · rw [joined, h.tail, h'.tail, List.getLast?_append]
  · rw [joined, h.size, h'.size, List.length_append]
  · refine chain_append.mpr ⟨?_, h'.next.congr fun e he => ?_⟩
    · -- the last member of the first list is linked to the first one of the second list
      rw [splice_eq ht hs hlive hne, h.tail, h'.head]
      cases hlast : es.getLast? with
      | none =>
        rw [List.getLast?_eq_none_iff.mp hlast]
        trivial
      | some last =>
        cases fs.head? with
        | none => exact h.next
        | some e => exact h.next.relink nodup hlast (some e)
    · exact next_splice_of_ne ht hs hlive hne fun htail =>
        apart e (List.mem_of_getLast? (h.tail ▸ htail)) he
  · rw [List.reverse_append]
    refine chain_append.mpr ⟨?_, h.prev.congr fun e he => ?_⟩
    · rw [splice_eq ht hs hlive hne, h.tail, h'.head]
      cases hfirst : fs.head? with
      | none =>
        rw [List.head?_eq_none_iff.mp hfirst]
        trivial
      | some e =>
        rw [List.head?_reverse, Option.or_none]
        refine h'.prev.relink ((List.reverse_perm fs).nodup_iff.mpr nodup') ?_ _
        rw [List.getLast?_reverse, hfirst]
    · refine prev_splice_of_ne ht hs hlive hne fun hhead => ?_
      exact apart e (List.mem_reverse.mp he) (List.mem_of_head? (h'.head ▸ hhead))

end Splice

/-- The lists after the members of one block are put behind those of another one. -/
def spliced (target : Nat) (contents : List (Option (List Nat))) (source : Nat) :
    List (Option (List Nat)) :=
  match contents[target]?, contents[source]? with
  | some (some es), some (some fs) =>
    if source = target then contents else (contents.set target (some (es ++ fs))).set source none
  | _, _ => contents

namespace Holds

variable {p : Partition} {contents : List (Option (List Nat))} {target source : Nat}
  {es fs : List Nat}

/-- The members of a live block are put behind those of another one. -/
theorem splice_of_ne (h : p.Holds contents) (ht : contents[target]? = some (some es))
    (hs : contents[source]? = some (some fs)) (hne : source ≠ target) :
    (p.splice target source).Holds ((contents.set target (some (es ++ fs))).set source none) := by
  obtain ⟨t, htb, htlive, htl⟩ := h.linked ht
  obtain ⟨s, hsb, hslive, hsl⟩ := h.linked hs
  have apart : ∀ e ∈ es, e ∉ fs := fun e he hf => hne (h.disjoint hs ht hf he)
  have hsplice := splice_eq htb hsb hslive hne
  have hblocks := getElem?_blocks_splice htb hsb hslive hne
  have hblockOf (e : Nat) : (p.splice target source).blockOf[e]? =
      if e ∈ fs then p.blockOf[e]?.map fun _ => target else p.blockOf[e]? := by
    rw [hsplice, getElem?_setAll, hsl.memberList]
  constructor
  · rw [universeSize_splice, ← h.size_next, hsplice]
    dsimp only
    split <;> simp
  · rw [universeSize_splice, ← h.size_prev, hsplice]
    dsimp only
    split <;> simp
  · simpa [hsplice] using h.size_blocks
  · intro c gs hc
    rcases entry_set hc with ⟨-, heq⟩ | ⟨hcs, hc⟩
    · cases heq
    · rcases entry_set hc with ⟨rfl, heq⟩ | ⟨hct, hc⟩
      · cases heq
        refine ⟨joined t s, ?_, htlive,
          htl.splice htb hsb hslive hne hsl (h.nodup ht) (h.nodup hs) apart⟩
        rw [hblocks, if_neg (Ne.symm hcs), if_pos rfl]
      · obtain ⟨other, hother, hlive, hlinked⟩ := h.linked hc
        refine ⟨other, ?_, hlive, hlinked.congr (fun g hg => ?_) fun g hg => ?_⟩
        · rw [hblocks, if_neg (Ne.symm hcs), if_neg (Ne.symm hct), hother]
        · exact next_splice_of_ne htb hsb hslive hne fun htail =>
            hct (h.disjoint ht hc (List.mem_of_getLast? (htl.tail ▸ htail)) hg)
        · exact prev_splice_of_ne htb hsb hslive hne fun hhead =>
            hcs (h.disjoint hs hc (List.mem_of_head? (hsl.head ▸ hhead)) hg)
  · intro c gs hc
    rcases entry_set hc with ⟨-, heq⟩ | ⟨-, hc⟩
    · cases heq
    · rcases entry_set hc with ⟨-, heq⟩ | ⟨-, hc⟩
      · cases heq
        exact List.nodup_append.mpr ⟨h.nodup ht, h.nodup hs, fun e he f hf heq =>
          apart e he (heq ▸ hf)⟩
      · exact h.nodup hc
  · intro c g gs hc hg
    rw [hblockOf]
    rcases entry_set hc with ⟨-, heq⟩ | ⟨hcs, hc⟩
    · cases heq
    · rcases entry_set hc with ⟨rfl, heq⟩ | ⟨-, hc⟩
      · cases heq
        rcases List.mem_append.mp hg with hg | hg
        · rw [if_neg (apart g hg), h.owner ht hg]
        · rw [if_pos hg, h.owner hs hg, Option.map_some]
      · rw [if_neg fun hf => hcs (h.disjoint hs hc hf hg), h.owner hc hg]
  · intro c hc
    rw [hblocks]
    rcases entry_set hc with ⟨rfl, -⟩ | ⟨hcs, hc⟩
    · exact ⟨{ s with live := false }, by rw [if_pos rfl], by simp⟩
    · rcases entry_set hc with ⟨-, heq⟩ | ⟨hct, hc⟩
      · cases heq
      · rw [if_neg (Ne.symm hcs), if_neg (Ne.symm hct)]
        exact h.retired hc

/-- Putting a block behind a live one does to the partition what it does to the lists. -/
theorem splice (h : p.Holds contents) (ht : contents[target]? = some (some es)) (source : Nat) :
    (p.splice target source).Holds (spliced target contents source) := by
  rw [spliced, ht]
  split
  case h_1 ht' hs =>
    cases ht'
    split
    case isTrue heq => rwa [heq, splice_self]
    case isFalse hne => exact h.splice_of_ne ht hs hne
  case h_2 hno =>
    rwa [splice_of_not_isLive]
    rw [h.isLive_iff]
    rintro ⟨fs, hs⟩
    exact hno es fs rfl hs

end Holds

theorem getElem?_spliced_target {contents : List (Option (List Nat))} {target : Nat}
    {es : List Nat} (ht : contents[target]? = some (some es)) (source : Nat) :
    ∃ fs, (spliced target contents source)[target]? = some (some fs) := by
  rw [spliced, ht]
  split
  case h_1 =>
    split
    case isTrue => exact ⟨es, ht⟩
    case isFalse hne =>
      obtain ⟨hlt, -⟩ := List.getElem?_eq_some_iff.mp ht
      rw [List.getElem?_set_ne hne, List.getElem?_set_self hlt]
      exact ⟨_, rfl⟩
  case h_2 => exact ⟨es, ht⟩

namespace Holds

variable {p : Partition} {contents : List (Option (List Nat))} {target : Nat} {es : List Nat}

theorem spliceAll (h : p.Holds contents) (ht : contents[target]? = some (some es))
    (others : List Nat) :
    (others.foldl (Partition.splice target) p).Holds (others.foldl (spliced target) contents) := by
  induction others generalizing p contents es with
  | nil => exact h
  | cons source others ih =>
    obtain ⟨fs, hfs⟩ := getElem?_spliced_target ht source
    exact ih (h.splice ht source) hfs

/-- Live blocks are merged by putting the members of each behind those of the target. -/
theorem merge (h : p.Holds contents) {others : List Nat}
    (hlive : ∀ b ∈ target :: others, p.isLive b) :
    ∃ q, p.merge target others = .ok (target, q) ∧
      q.Holds (others.foldl (spliced target) contents) := by
  obtain ⟨es, ht⟩ := h.isLive_iff.mp (hlive target List.mem_cons_self)
  have hfind : (target :: others).find? (!p.isLive ·) = none := by
    simpa [List.find?_eq_none] using hlive
  exact ⟨_, by rw [Partition.merge, hfind], h.spliceAll ht others⟩

end Holds

end StateIdentification.Partition
