import Mathlib.Data.List.Nodup
import StateIdentification.Proofs.PartitionStep

/-!
# Partitions under any requests

Blocks are split and merged in any order, and requests may be refused. Whatever is requested, the
lists of the live blocks stay linked and apart from each other, and a block that is out of use stays
so. All elements are in live blocks as long as no table of codes was too large, and only so long.

## Main definitions

- `Partition.performAll`: what a sequence of requests makes of a partition.
- `Partition.WithinLimit`: no request of a sequence needs a table that does not fit.
- `Partition.Intact`: what the answers of a partition promise.
- `Partition.Retired`: blocks that are out of use.

## Main results

- `Partition.Holds.performAll`: what a sequence of requests makes of the lists.
- `Partition.Holds.intact_iff`: a partition is intact if all elements are in lists.
- `Partition.performAll_intact_iff`: which sequences of requests leave a partition intact.
- `Partition.not_intact_of_large_table`: one that does not.
-/

namespace StateIdentification.Partition

/-- The partition after a sequence of requests. -/
def performAll (p : Partition) (requests : List Request) : Partition := requests.foldl perform p

/-- No request of the sequence needs a table that does not fit. -/
def WithinLimit (p : Partition) (requests : List Request) : Prop :=
  ∀ earlier r later, requests = earlier ++ r :: later → ¬ (p.performAll earlier).Overflows r

/-- The blocks of a partition are lists of its elements, with every element in one of them. -/
structure Intact (p : Partition) (size : Nat) : Prop where
  universeSize_eq : p.universeSize = size
  /-- The members of the live blocks together are the elements, each of them once. -/
  covers : ∃ lists : Nat → List Nat, (∀ b ∈ p.liveBlocks, p.members b = .ok (lists b)) ∧
    (p.liveBlocks.flatMap lists).Perm (List.range size)
  /-- An element is found in the live block that has it as a member. -/
  found : ∀ e < size, ∃ b ∈ p.liveBlocks, ∃ es, p.find e = .ok b ∧ p.members b = .ok es ∧ e ∈ es
  /-- The links of a live block run through its members in both directions, and there are as many
  of them as the block counts. -/
  linked : ∀ b ∈ p.liveBlocks, ∃ block es, p.blocks[b]? = some block ∧ p.members b = .ok es ∧
    p.size b = .ok es.length ∧ p.Linked block es
  populated : 0 < size → ∀ b ∈ p.liveBlocks, p.members b ≠ .ok []

/-- The block was in use once and is no longer. -/
def Retired (p : Partition) (b : Nat) : Prop := b < p.blocks.size ∧ ¬ p.isLive b

theorem withinLimit_cons {p : Partition} {r : Request} {requests : List Request} :
    p.WithinLimit (r :: requests) ↔ ¬ p.Overflows r ∧ (p.perform r).WithinLimit requests := by
  constructor
  · intro h
    refine ⟨h [] r requests rfl, fun earlier x later heq => ?_⟩
    exact h (r :: earlier) x later (by rw [heq, List.cons_append])
  · rintro ⟨hfirst, hrest⟩ earlier x later heq
    cases earlier with
    | nil =>
      obtain ⟨rfl, -⟩ := List.cons.inj heq
      exact hfirst
    | cons y earlier =>
      obtain ⟨rfl, htail⟩ := List.cons.inj heq
      exact hrest earlier x later htail

theorem mem_liveBlocks {p : Partition} {b : Nat} : b ∈ p.liveBlocks ↔ p.isLive b := by
  rw [liveBlocks, List.mem_filter, List.mem_range, and_iff_right_iff_imp]
  refine fun hlive => Nat.lt_of_not_le fun hle => ?_
  rw [isLive, Array.getElem?_eq_none hle] at hlive
  cases hlive

theorem universeSize_coarsest (size : Nat) : (coarsest size).universeSize = size := by
  rw [coarsest, Holds.universeSize_addBlock, universeSize, Array.size_replicate]

/-- The list of a block, which is empty if the block is not in use. -/
def listAt (contents : List (Option (List Nat))) (b : Nat) : List Nat := (contents[b]?.join).getD []

theorem listAt_eq {contents : List (Option (List Nat))} {b : Nat} {es : List Nat}
    (hb : contents[b]? = some (some es)) : listAt contents b = es := by
  rw [listAt, hb]
  rfl

namespace Holds

variable {p : Partition} {contents : List (Option (List Nat))} {size : Nat}

/-- Whatever is requested, blocks stay lists, and all elements stay in them if no table is too
large. -/
theorem performAll (h : p.Holds contents) (requests : List Request) :
    ∃ new, (p.performAll requests).Holds new ∧
      (p.performAll requests).universeSize = p.universeSize ∧ Evolves contents new ∧
      ((∀ e, Placed contents e → Placed new e) ↔ p.WithinLimit requests) := by
  induction requests generalizing p contents with
  | nil =>
    exact ⟨contents, h, rfl, .refl contents, iff_of_true (fun _ => id) (by simp [WithinLimit])⟩
  | cons r requests ih =>
    obtain ⟨mid, hmid⟩ := h.outcome r
    obtain ⟨new, hnew, hsize, hevolves, hkept⟩ := ih hmid.holds
    refine ⟨new, hnew, hsize.trans hmid.universeSize_eq, hmid.evolves.trans hevolves, ?_⟩
    rw [withinLimit_cons, ← hmid.kept_iff, ← hkept]
    constructor
    · intro hall
      exact ⟨fun e he => hevolves.placed (hall e he),
        fun e he => hall e (hmid.evolves.placed he)⟩
    · rintro ⟨hfirst, hrest⟩ e he
      exact hrest e (hfirst e he)

theorem exists_list (h : p.Holds contents) {b : Nat} (hb : b ∈ p.liveBlocks) :
    ∃ es, contents[b]? = some (some es) ∧ listAt contents b = es := by
  obtain ⟨es, hes⟩ := h.isLive_iff.mp (mem_liveBlocks.mp hb)
  exact ⟨es, hes, listAt_eq hes⟩

/-- If all elements are in lists, the live blocks have each of them once. -/
theorem perm_liveBlocks (h : p.Holds contents) (hsize : p.universeSize = size)
    (hall : ∀ e < size, Placed contents e) :
    (p.liveBlocks.flatMap (listAt contents)).Perm (List.range size) := by
  refine (List.perm_ext_iff_of_nodup ?_ List.nodup_range).mpr fun e => ?_
  · refine List.nodup_flatMap.mpr ⟨fun b hb => ?_, ?_⟩
    · obtain ⟨es, hes, heq⟩ := h.exists_list hb
      exact heq ▸ h.nodup hes
    · refine (List.nodup_range.filter _).imp_of_mem fun {b c} hb hc hne e heb hec => ?_
      obtain ⟨es, hes, heq⟩ := h.exists_list hb
      obtain ⟨fs, hfs, heq'⟩ := h.exists_list hc
      exact hne (h.disjoint hes hfs (heq ▸ heb) (heq' ▸ hec))
  · rw [List.mem_flatMap, List.mem_range]
    constructor
    · rintro ⟨b, hb, he⟩
      obtain ⟨es, hes, heq⟩ := h.exists_list hb
      exact hsize ▸ h.mem_universe hes (heq ▸ he)
    · intro he
      obtain ⟨es, hes, hmem⟩ := hall e he
      obtain ⟨b, hb⟩ := List.getElem?_of_mem hes
      exact ⟨b, mem_liveBlocks.mpr (h.isLive_iff.mpr ⟨es, hb⟩), listAt_eq hb ▸ hmem⟩

/-- A partition without empty blocks is intact exactly if all elements are in lists. -/
theorem intact_iff (h : p.Holds contents) (hsize : p.universeSize = size)
    (hpopulated : 0 < size → some [] ∉ contents) :
    p.Intact size ↔ ∀ e < size, Placed contents e := by
  constructor
  · intro hintact e he
    obtain ⟨b, -, es, -, hes, hmem⟩ := hintact.found e he
    exact .of_getElem? (h.members_eq_ok_iff.mp hes) hmem
  · intro hall
    refine ⟨hsize, ⟨_, fun b hb => ?_, h.perm_liveBlocks hsize hall⟩, fun e he => ?_,
      fun b hb => ?_, fun hpos b hb hnil => ?_⟩
    · obtain ⟨es, hes, heq⟩ := h.exists_list hb
      rw [h.members hes, heq]
    · obtain ⟨es, hes, hmem⟩ := hall e he
      obtain ⟨b, hb⟩ := List.getElem?_of_mem hes
      refine ⟨b, mem_liveBlocks.mpr (h.isLive_iff.mpr ⟨es, hb⟩), es, ?_, h.members hb, hmem⟩
      rw [find, h.owner hb hmem]
    · obtain ⟨es, hes, -⟩ := h.exists_list hb
      obtain ⟨block, hblock, -, hlinked⟩ := h.linked hes
      exact ⟨block, es, hblock, h.members hes, h.size_eq hes, hlinked⟩
    · exact hpopulated hpos (List.mem_of_getElem? (h.members_eq_ok_iff.mp hnil))

theorem retired_iff (h : p.Holds contents) {b : Nat} :
    p.Retired b ↔ contents[b]? = some none := by
  rw [Retired, h.isLive_iff, h.size_blocks]
  match hb : contents[b]? with
  | none => simpa using List.getElem?_eq_none_iff.mp hb
  | some entry =>
    obtain ⟨hlt, -⟩ := List.getElem?_eq_some_iff.mp hb
    cases entry <;> simp [hlt]

end Holds

/-- After any requests to the coarsest partition, granted or refused, the partition is intact
exactly if none of them needed a table that does not fit. Whether or not it is, a block that went
out of use at any time is rejected from then on. -/
theorem performAll_intact_iff (size : Nat) (requests : List Request) :
    (((coarsest size).performAll requests).Intact size ↔
        (coarsest size).WithinLimit requests) ∧
      ∀ earlier later, requests = earlier ++ later → ∀ b,
        ((coarsest size).performAll earlier).Retired b →
          ((coarsest size).performAll requests).Rejects b := by
  constructor
  · have hstart := holds_coarsest size
    have husize := universeSize_coarsest size
    obtain ⟨contents, hholds, hsize, hevolves, hkept⟩ := hstart.performAll requests
    have hplaced (e : Nat) : Placed [some (List.range size)] e ↔ e < size := by
      simp [Placed]
    rw [hholds.intact_iff (hsize.trans husize) ?_, ← hkept]
    · simp only [hplaced]
    · intro hpos
      refine hevolves.populated ?_
      simpa using Nat.ne_of_gt hpos
  · rintro earlier later rfl b hretired
    obtain ⟨before, hbefore, -⟩ := (holds_coarsest size).performAll earlier
    obtain ⟨after, hafter, -, hevolves, -⟩ := hbefore.performAll later
    have hretired := hafter.retired_iff.mpr (hevolves.retired (hbefore.retired_iff.mp hretired))
    rw [performAll, List.foldl_append]
    exact rejects_of_not_isLive hretired.2

/-- A table for `2 ^ 61` codes is too large. The block of three elements is out of use when this
turns out, and no block has them any more. -/
theorem not_intact_of_large_table :
    ¬ ((coarsest 3).performAll [.refine 0 (· % 2) 2305843009213693952]).Intact 3 := by
  have hnone :
      ((coarsest 3).performAll [.refine 0 (· % 2) 2305843009213693952]).liveBlocks = [] := by
    decide
  intro hintact
  obtain ⟨lists, -, hperm⟩ := hintact.covers
  rw [hnone] at hperm
  simpa using hperm.length_eq

end StateIdentification.Partition
