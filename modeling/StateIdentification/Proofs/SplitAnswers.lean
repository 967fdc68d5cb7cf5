import Mathlib.Data.List.Forall2
import StateIdentification.Proofs.PartitionQueries

/-!
# What a split answers

The answer to a request to split a block, and all answers of the partition from then on, follow from
the members of the block and their codes. The block gives way to one new block for every code that
occurs. All other blocks and elements stay as they are, and so does the whole partition if the
request is refused.

## Main definitions

- `Partition.UsedIn`: the handles that were in use at some time of a run.
- `Partition.Replaces`: a block gives way to new blocks.
- `Partition.RefineContract`: what a split promises.

## Main results

- `Partition.Holds.replaces`: what the answers are if a block is split.
- `Partition.performAll_refineContract_iff`: after any requests, a split keeps its promise if and
  only if its table of codes fits.
- `Partition.not_refineContract_of_large_table`: a split that does not.
-/

namespace StateIdentification.Partition

/-- The block is in use at some time of a run. -/
def UsedIn (p : Partition) (requests : List Request) (b : Nat) : Prop :=
  ∃ earlier later, requests = earlier ++ later ∧ (p.performAll earlier).isLive b

/-- A block with the members `es` gives way to new blocks, one for every code of a member. -/
structure Replaces (p q : Partition) (used : Nat → Prop) (b : Nat) (es : List Nat)
    (code : Nat → Nat) (handles : List Nat) : Prop where
  unused : ∀ h ∈ handles, ¬ used h
  nodup : handles.Nodup
  /-- The block goes out of use, and the new ones come behind all others. -/
  liveBlocks_eq : q.liveBlocks = p.liveBlocks.filter (· ≠ b) ++ handles
  /-- The codes are taken in the order in which they occur first. The members with a code are those
  of its block, and they keep their order. -/
  parts : List.Forall₂
    (fun h k => q.Lists h (es.filter (code · == k)) ∧ ∀ e ∈ es, code e = k → q.find e = .ok h)
    handles (es.map code).eraseDups
  others : ∀ c ∉ handles, c ≠ b → p.AgreeAt q c
  elsewhere : ∀ e ∉ es, q.find e = p.find e

/-- What is promised of a request to split a block. -/
structure RefineContract (p : Partition) (used : Nat → Prop) (b : Nat) (code : Nat → Nat)
    (range : Nat) : Prop where
  stale : ¬ p.isLive b → p.Refuses (.refine b code range) (.staleBlock b)
  /-- The first member whose code is out of range is reported. -/
  outOfRange : ∀ before e after, p.members b = .ok (before ++ e :: after) →
    (∀ f ∈ before, code f < range) → range ≤ code e →
      p.Refuses (.refine b code range) (.codeOutOfRange e (code e) range)
  /-- A block whose members all have the same code stays as it is. -/
  uniform : ∀ es, p.members b = .ok es → (∀ e ∈ es, code e < range) →
    (∀ e ∈ es, ∀ f ∈ es, code e = code f) → p.refineBounded b code range = .ok (.ok [b], p)
  several : ∀ es, p.members b = .ok es → (∀ e ∈ es, code e < range) →
    (∃ e ∈ es, ∃ f ∈ es, code e ≠ code f) →
      ∃ handles q, p.refineBounded b code range = .ok (.ok handles, q) ∧
        p.Replaces q used b es code handles

variable {p q : Partition} {b e range : Nat} {code : Nat → Nat} {bs : List Nat}

/-- A handle that was ever in use is known. -/
theorem UsedIn.lt_size_blocks {requests : List Request} (h : p.UsedIn requests b) :
    b < (p.performAll requests).blocks.size := by
  obtain ⟨earlier, later, rfl, hlive⟩ := h
  have hlt : b < (p.performAll earlier).blocks.size := by
    have hmem := mem_liveBlocks.mpr hlive
    exact List.mem_range.mp (List.mem_filter.mp hmem).1
  rw [performAll, List.foldl_append]
  exact Nat.lt_of_lt_of_le hlt (size_blocks_performAll _ later)

/-- Splitting a block moves only its members. -/
theorem find_of_refine (h : p.refine b code range = .ok (bs, q))
    (he : ∀ es, p.members b = .ok es → e ∉ es) : q.find e = p.find e := by
  obtain ⟨es, hes, -, ⟨-, -, rfl⟩ | ⟨-, -, rfl⟩⟩ := refine_cases h
  · rfl
  · refine (find_addBlocks (p := p.retire b) fun part hpart hmem => ?_).trans rfl
    obtain ⟨f, -, rfl⟩ := mem_classes.mp hpart
    exact he es hes (List.mem_filter.mp hmem).1

section Lists

variable {contents : List (Option (List Nat))} {parts : List (List Nat)} {b c i : Nat}

theorem getElem?_split_of_lt (hc : c < contents.length) :
    (contents.set b none ++ parts.map some)[c]? = if c = b then some none else contents[c]? := by
  rw [List.getElem?_append_left (by rwa [List.length_set]), List.getElem?_set]
  grind

theorem getElem?_split_part :
    (contents.set b none ++ parts.map some)[contents.length + i]? = (parts[i]?).map some := by
  rw [List.getElem?_append_right (by simp)]
  simp

end Lists

namespace Holds

variable {p q : Partition} {contents : List (Option (List Nat))} {parts : List (List Nat)}
  {b : Nat} {es : List Nat} {code : Nat → Nat} {range : Nat}

/-- The blocks in use after one of them gave way to new ones. -/
theorem liveBlocks_split (h : p.Holds contents)
    (h' : q.Holds (contents.set b none ++ parts.map some)) :
    q.liveBlocks =
      p.liveBlocks.filter (· ≠ b) ++ List.range' contents.length parts.length := by
  rw [h'.liveBlocks_eq, h.liveBlocks_eq, List.length_append, List.length_set, List.length_map,
    List.range_eq_range', List.range_eq_range', ← List.range'_append_1, List.filter_append,
    List.filter_filter, Nat.zero_add]
  congr 1
  · refine List.filter_congr fun c hc => ?_
    rw [getElem?_split_of_lt (by simpa using hc)]
    by_cases hcb : c = b <;> simp [hcb]
  · refine List.filter_eq_self.mpr fun c hc => ?_
    obtain ⟨i, hi, rfl⟩ := List.mem_range'.mp hc
    simp [hi]

/-- The new blocks have the members with the codes that occur, one code after the other. -/
theorem forall₂_parts (h : q.Holds (contents.set b none ++ (classes es code).map some)) :
    List.Forall₂
      (fun h k => q.Lists h (es.filter (code · == k)) ∧ ∀ e ∈ es, code e = k → q.find e = .ok h)
      (List.range' contents.length (classes es code).length) (es.map code).eraseDups := by
  rw [List.forall₂_iff_get]
  refine ⟨by simp [classes], fun i _ hi => ?_⟩
  have hpart : (classes es code)[i]? =
      some (es.filter (code · == (es.map code).eraseDups[i])) := by
    simp [classes, hi]
  have hnew : (contents.set b none ++ (classes es code).map some)[contents.length + i]? =
      some (some (es.filter (code · == (es.map code).eraseDups[i]))) := by
    rw [getElem?_split_part, hpart, Option.map_some]
  rw [List.get_eq_getElem, List.get_eq_getElem, List.getElem_range', Nat.one_mul]
  refine ⟨h.lists_iff.mpr hnew, fun e he hcode => h.find_eq hnew ?_⟩
  exact List.mem_filter.mpr ⟨he, beq_iff_eq.mpr hcode⟩

/-- A block whose members have several codes gives way to blocks for the classes of its members. -/
theorem replaces (h : p.Holds contents) (hb : contents[b]? = some (some es))
    (hq : p.refine b code range = .ok (List.range' contents.length (classes es code).length, q))
    (h' : q.Holds (contents.set b none ++ (classes es code).map some)) {used : Nat → Prop}
    (hused : ∀ c, used c → c < contents.length) :
    p.Replaces q used b es code (List.range' contents.length (classes es code).length) where
  unused c hc hold := Nat.not_le.mpr (hused c hold) (List.mem_range'_1.mp hc).1
  nodup := List.nodup_range'
  liveBlocks_eq := h.liveBlocks_split h'
  parts := h'.forall₂_parts
  others c hnew hne := by
    refine h.agreeAt h' ?_
    rcases Nat.lt_or_ge c contents.length with hlt | hge
    · rw [getElem?_split_of_lt hlt, if_neg hne]
    · obtain ⟨i, rfl⟩ := Nat.exists_eq_add_of_le hge
      have hi : (classes es code).length ≤ i := by
        simpa using hnew
      rw [getElem?_split_part, List.getElem?_eq_none hge, List.getElem?_eq_none hi]
      rfl
  elsewhere e he := by
    refine find_of_refine hq fun fs hfs => ?_
    rw [h.members hb] at hfs
    exact Except.ok.inj hfs ▸ he

/-- A request whose table of codes does not fit is stopped when its block is out of use already. -/
theorem refineBounded_of_overflows (h : p.Holds contents)
    (hover : p.Overflows (.refine b code range)) :
    p.refineBounded b code range = .ok (.error ⟨range, numberWidth⟩, p.retire b) := by
  obtain ⟨hnofit, es, hes, hrange, hseveral⟩ := hover
  have htwo := two_le_length_classes.mpr hseveral
  obtain ⟨q, hq, -⟩ := h.refine (h.members_eq_ok_iff.mp hes) hrange htwo
  have hlong : ¬ (List.range' contents.length (classes es code).length).length ≤ 1 := by
    rw [List.length_range']
    exact Nat.not_le.mpr htwo
  rw [h.refineBounded_eq, hq]
  simp only [Except.map, hlong, hnofit, or_self, if_false]

/-- A partition that stands for lists keeps the promise of a split unless the table of codes does
not fit. -/
theorem refineContract_iff (h : p.Holds contents) {used : Nat → Prop}
    (hused : ∀ c, used c → c < contents.length) :
    p.RefineContract used b code range ↔ ¬ p.Overflows (.refine b code range) := by
  constructor
  · intro hcontract hover
    obtain ⟨-, es, hes, hrange, hseveral⟩ := id hover
    obtain ⟨handles, q, hq, -⟩ := hcontract.several es hes hrange hseveral
    rw [h.refineBounded_of_overflows hover] at hq
    cases hq
  · intro hover
    constructor
    · exact fun hdead => refuses_refine ((rejects_of_not_isLive hdead).refine code range)
    · intro before e after hes hbefore he
      have hfind : (before ++ e :: after).find? (fun f => range ≤ code f) = some e := by
        refine List.find?_eq_some_iff_append.mpr ⟨by simpa using he, before, after, rfl, ?_⟩
        simpa using hbefore
      refine refuses_refine ?_
      rw [h.refineBounded_eq, h.refine_of_find? (h.members_eq_ok_iff.mp hes) hfind]
      rfl
    · intro es hes hrange hsame
      have hone : ¬ 2 ≤ (classes es code).length := by
        rw [two_le_length_classes]
        rintro ⟨e, he, f, hf, hne⟩
        exact hne (hsame e he f hf)
      rw [h.refineBounded_eq, h.refine_of_same (h.members_eq_ok_iff.mp hes) hrange hone]
      rfl
    · intro es hes hrange hseveral
      have hb := h.members_eq_ok_iff.mp hes
      obtain ⟨q, hq, h'⟩ := h.refine hb hrange (two_le_length_classes.mpr hseveral)
      have hfits : TableFits range numberWidth := by
        by_contra hnofit
        exact hover ⟨hnofit, es, hes, hrange, hseveral⟩
      refine ⟨_, q, ?_, h.replaces hb hq h' hused⟩
      rw [h.refineBounded_eq, hq]
      simp only [Except.map, hfits, or_true, if_true]

end Holds

/-- After any requests to the coarsest partition, granted or refused, a split keeps its promise
exactly if its table of codes fits or is not needed. Otherwise no block takes the place of the one
that goes out of use. -/
theorem performAll_refineContract_iff (size : Nat) (requests : List Request) (b : Nat)
    (code : Nat → Nat) (range : Nat) :
    let p := (coarsest size).performAll requests
    (p.RefineContract ((coarsest size).UsedIn requests) b code range ↔
        ¬ p.Overflows (.refine b code range)) ∧
      (p.Overflows (.refine b code range) →
        p.refineBounded b code range = .ok (.error ⟨range, numberWidth⟩, p.retire b)) := by
  intro p
  obtain ⟨contents, h, -⟩ := (holds_coarsest size).performAll requests
  refine ⟨h.refineContract_iff fun c hused => ?_, h.refineBounded_of_overflows⟩
  exact h.size_blocks ▸ hused.lt_size_blocks

/-- A table for `2 ^ 61` codes is too large. The block of two elements with the codes `0` and `1`
goes out of use, and there are no new blocks. -/
theorem not_refineContract_of_large_table :
    ¬ (coarsest 2).RefineContract ((coarsest 2).UsedIn []) 0 id 2305843009213693952 := by
  intro hcontract
  obtain ⟨handles, q, hq, -⟩ := hcontract.several [0, 1] rfl (by decide) (by decide)
  have hstopped : (coarsest 2).refineBounded 0 id 2305843009213693952 =
      .ok (.error ⟨2305843009213693952, numberWidth⟩, (coarsest 2).retire 0) := by
    decide
  rw [hstopped] at hq
  cases hq

end StateIdentification.Partition
