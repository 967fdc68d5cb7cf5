import Mathlib.Logic.Basic
import StateIdentification.Proofs.PartitionMerge
import StateIdentification.Proofs.PartitionScan

/-!
# One request to a partition

A request to split or to merge blocks is refused if it names a block that is not in use, or if a
code is out of range. Otherwise all elements stay in blocks, with one exception: a block whose table
of codes does not fit is taken out of use although no block takes its place, and its members are in
no block from then on.

## Main definitions

- `Partition.Request`, `Partition.perform`: what may be requested, and what it makes of a partition.
- `Partition.Overflows`: the requests whose table of codes does not fit.
- `Partition.Rejects`: requests for a block are refused.
- `Partition.Placed`, `Partition.Evolves`: which elements are in blocks, and what no request undoes.
- `Partition.Outcome`: what a request makes of the lists that a partition stands for.

## Main results

- `Partition.rejects_of_not_isLive`: blocks that are not in use.
- `Partition.Holds.outcome`: every request has an outcome.
-/

namespace StateIdentification.Partition

/-- A change that is requested of a partition. -/
inductive Request where
  | refine (block : Nat) (code : Nat → Nat) (range : Nat)
  | merge (target : Nat) (others : List Nat)

/-- The partition after a request, which may be refused. -/
def perform (p : Partition) : Request → Partition
  | .refine b code range =>
    match p.refineBounded b code range with
    | .ok (_, q) => q
    | .error _ => p
  | .merge target others =>
    match p.merge target others with
    | .ok (_, q) => q
    | .error _ => p

/-- The request is to split a block whose members have several codes, all of them in range, and the
table of codes does not fit. -/
def Overflows (p : Partition) : Request → Prop
  | .refine b code range =>
    ¬ TableFits range numberWidth ∧ ∃ es, p.members b = .ok es ∧ (∀ e ∈ es, code e < range) ∧
      ∃ e ∈ es, ∃ f ∈ es, code e ≠ code f
  | .merge _ _ => False

/-- Every request for a block is refused, as the block is not in use. If blocks are to be merged,
the first one that is not in use is reported. -/
structure Rejects (p : Partition) (b : Nat) : Prop where
  size : p.size b = .error (.staleBlock b)
  members : p.members b = .error (.staleBlock b)
  refine : ∀ code range, p.refineBounded b code range = .error (.staleBlock b)
  merge : ∀ target others, b ∈ target :: others →
    ∃ c, (target :: others).find? (!p.isLive ·) = some c ∧
      p.merge target others = .error (.staleBlock c)

theorem rejects_of_not_isLive {p : Partition} {b : Nat} (h : ¬ p.isLive b) : p.Rejects b := by
  refine ⟨?_, members_of_not_isLive h, fun code range => ?_, fun target others hb => ?_⟩
  · rw [size, liveBlock_of_not_isLive h]
    rfl
  · rw [refineBounded, members_of_not_isLive h]
  · obtain ⟨c, hc⟩ : ∃ c, (target :: others).find? (!p.isLive ·) = some c :=
      Option.isSome_iff_exists.mp (List.find?_isSome.mpr ⟨b, hb, by simpa using h⟩)
    exact ⟨c, hc, by rw [Partition.merge, hc]⟩

section Lists

variable {old mid new contents : List (Option (List Nat))} {b e target source : Nat}
  {es fs : List Nat}

/-- The element is in the list of a block that is in use. -/
def Placed (contents : List (Option (List Nat))) (e : Nat) : Prop :=
  ∃ es, some es ∈ contents ∧ e ∈ es

theorem Placed.of_getElem? (hb : contents[b]? = some (some es)) (he : e ∈ es) : Placed contents e :=
  ⟨es, List.mem_of_getElem? hb, he⟩

/-- If an entry is replaced, the elements of all other entries stay where they are. -/
theorem Placed.set_or (h : Placed contents e) (b : Nat) (entry : Option (List Nat)) :
    Placed (contents.set b entry) e ∨ ∃ es, contents[b]? = some (some es) ∧ e ∈ es := by
  obtain ⟨es, hes, he⟩ := h
  obtain ⟨c, hc⟩ := List.getElem?_of_mem hes
  by_cases hbc : b = c
  · exact .inr ⟨es, hbc ▸ hc, he⟩
  · exact .inl (.of_getElem? ((List.getElem?_set_ne hbc).trans hc) he)

/-- What no request undoes: an element without a block does not get one, lists with members do not
become empty, and a block that is out of use stays so. -/
structure Evolves (old new : List (Option (List Nat))) : Prop where
  placed : ∀ {e : Nat}, Placed new e → Placed old e
  populated : some [] ∉ old → some [] ∉ new
  retired : ∀ {b : Nat}, old[b]? = some none → new[b]? = some none

theorem Evolves.refl (contents : List (Option (List Nat))) : Evolves contents contents :=
  ⟨id, id, id⟩

theorem Evolves.trans (h : Evolves old mid) (h' : Evolves mid new) : Evolves old new :=
  ⟨h.placed ∘ h'.placed, h'.populated ∘ h.populated, h'.retired ∘ h.retired⟩

/-- A block is taken out of use. -/
theorem evolves_retire (contents : List (Option (List Nat))) (b : Nat) :
    Evolves contents (contents.set b none) where
  placed := by
    rintro e ⟨es, hes, he⟩
    exact ⟨es, (List.mem_or_eq_of_mem_set hes).resolve_right (by simp), he⟩
  populated hne hmem := hne ((List.mem_or_eq_of_mem_set hmem).resolve_right (by simp))
  retired {c} hc := by
    rw [List.getElem?_set]
    grind

/-- A block is replaced by the classes of its members. -/
theorem evolves_split (hb : contents[b]? = some (some es)) (code : Nat → Nat) :
    Evolves contents (contents.set b none ++ (classes es code).map some) where
  placed := by
    rintro e ⟨fs, hfs, he⟩
    rcases List.mem_append.mp hfs with hfs | hfs
    · exact (evolves_retire contents b).placed ⟨fs, hfs, he⟩
    · obtain ⟨_, hfs, heq⟩ := List.mem_map.mp hfs
      cases heq
      obtain ⟨f, -, rfl⟩ := mem_classes.mp hfs
      exact .of_getElem? hb (List.mem_filter.mp he).1
  populated hne hmem := by
    rcases List.mem_append.mp hmem with hmem | hmem
    · exact (evolves_retire contents b).populated hne hmem
    · obtain ⟨_, hfs, heq⟩ := List.mem_map.mp hmem
      cases heq
      exact ne_nil_of_mem_classes hfs rfl
  retired hc := by
    have hc := (evolves_retire contents b).retired hc
    obtain ⟨hlt, -⟩ := List.getElem?_eq_some_iff.mp hc
    rwa [List.getElem?_append_left hlt]

/-- Splitting a block keeps all of its members. -/
theorem Placed.split (h : Placed contents e) (hb : contents[b]? = some (some es))
    (code : Nat → Nat) : Placed (contents.set b none ++ (classes es code).map some) e := by
  rcases h.set_or b none with ⟨fs, hfs, he⟩ | ⟨fs, hfs, he⟩
  · exact ⟨fs, List.mem_append_left _ hfs, he⟩
  · obtain rfl : es = fs := by simpa [hb] using hfs
    exact ⟨_, List.mem_append_right _ (List.mem_map_of_mem (mem_classes.mpr ⟨e, he, rfl⟩)),
      List.mem_filter.mpr ⟨he, by simp⟩⟩

/-- A block is put behind another one. -/
theorem evolves_spliced (contents : List (Option (List Nat))) (target source : Nat) :
    Evolves contents (spliced target contents source) := by
  rw [spliced]
  split
  case h_1 es fs ht hs =>
    split
    case isTrue => exact .refl contents
    case isFalse hne =>
      refine Evolves.trans ⟨?_, ?_, ?_⟩ (evolves_retire _ source)
      · rintro e ⟨gs, hgs, he⟩
        rcases List.mem_or_eq_of_mem_set hgs with hgs | heq
        · exact ⟨gs, hgs, he⟩
        · cases heq
          exact (List.mem_append.mp he).elim (.of_getElem? ht) (.of_getElem? hs)
      · intro hne hmem
        rcases List.mem_or_eq_of_mem_set hmem with hmem | heq
        · exact hne hmem
        · have hnil : es = [] := (List.append_eq_nil_iff.mp (Option.some.inj heq).symm).1
          exact hne (hnil ▸ List.mem_of_getElem? ht)
      · intro c hc
        have hct : target ≠ c := by grind
        rwa [List.getElem?_set_ne hct]
  case h_2 => exact .refl contents

/-- Putting a block behind another one keeps all members of both. -/
theorem Placed.spliced (h : Placed contents e) (target source : Nat) :
    Placed (spliced target contents source) e := by
  rw [Partition.spliced]
  split
  case h_1 es fs ht hs =>
    split
    case isTrue => exact h
    case isFalse hne =>
      have htarget : ((contents.set target (some (es ++ fs))).set source none)[target]? =
          some (some (es ++ fs)) := by
        obtain ⟨hlt, -⟩ := List.getElem?_eq_some_iff.mp ht
        rw [List.getElem?_set_ne hne, List.getElem?_set_self hlt]
      have joined {f : Nat} (hf : f ∈ es ++ fs) := Placed.of_getElem? htarget hf
      rcases h.set_or target (some (es ++ fs)) with h | ⟨gs, hgs, he⟩
      · rcases h.set_or source none with h | ⟨gs, hgs, he⟩
        · exact h
        · rw [List.getElem?_set_ne (Ne.symm hne), hs] at hgs
          cases hgs
          exact joined (List.mem_append_right es he)
      · rw [ht] at hgs
        cases hgs
        exact joined (List.mem_append_left fs he)
  case h_2 => exact h

theorem evolves_splicedAll (contents : List (Option (List Nat))) (target : Nat)
    (others : List Nat) : Evolves contents (others.foldl (spliced target) contents) := by
  induction others generalizing contents with
  | nil => exact .refl contents
  | cons source others ih => exact (evolves_spliced contents target source).trans (ih _)

theorem Placed.splicedAll (h : Placed contents e) (target : Nat) (others : List Nat) :
    Placed (others.foldl (Partition.spliced target) contents) e := by
  induction others generalizing contents with
  | nil => exact h
  | cons source others ih => exact ih (h.spliced target source)

end Lists

theorem universeSize_addBlocks (p : Partition) (parts : List (List Nat)) :
    (parts.foldl addBlock p).universeSize = p.universeSize := by
  induction parts generalizing p with
  | nil => rfl
  | cons fs parts ih => rw [List.foldl_cons, ih, Holds.universeSize_addBlock]

theorem universeSize_of_refine {p q : Partition} {b range : Nat} {code : Nat → Nat} {bs : List Nat}
    (h : p.refine b code range = .ok (bs, q)) : q.universeSize = p.universeSize := by
  obtain ⟨es, -, -, ⟨-, -, rfl⟩ | ⟨-, -, rfl⟩⟩ := refine_cases h
  · rfl
  · exact universeSize_addBlocks _ _

theorem universeSize_of_merge {p q : Partition} {target b : Nat} {others : List Nat}
    (h : p.merge target others = .ok (b, q)) : q.universeSize = p.universeSize := by
  have fold (others : List Nat) (p : Partition) :
      (others.foldl (splice target) p).universeSize = p.universeSize := by
    induction others generalizing p with
    | nil => rfl
    | cons source others ih => rw [List.foldl_cons, ih, universeSize_splice]
  rw [(eq_of_merge h).2, fold others p]

/-- What a request makes of a partition and of the lists that it stands for. -/
structure Outcome (p : Partition) (r : Request) (old new : List (Option (List Nat))) : Prop where
  holds : (p.perform r).Holds new
  universeSize_eq : (p.perform r).universeSize = p.universeSize
  evolves : Evolves old new
  /-- No element loses its block unless a table does not fit. -/
  kept_iff : (∀ e, Placed old e → Placed new e) ↔ ¬ p.Overflows r

namespace Holds

variable {p : Partition} {contents : List (Option (List Nat))} {b : Nat} {es : List Nat}

theorem overflows_refine_iff (h : p.Holds contents) (hb : contents[b]? = some (some es))
    {code : Nat → Nat} {range : Nat} :
    p.Overflows (.refine b code range) ↔
      ¬ TableFits range numberWidth ∧ (∀ e ∈ es, code e < range) ∧
        2 ≤ (classes es code).length := by
  rw [Overflows, two_le_length_classes]
  simp [h.members hb]

/-- If a block is taken out of use, its members are in no other block. -/
theorem not_placed_retire (h : p.Holds contents) (hb : contents[b]? = some (some es)) {e : Nat}
    (he : e ∈ es) : ¬ Placed (contents.set b none) e := by
  rintro ⟨fs, hfs, hef⟩
  obtain ⟨c, hc⟩ := List.getElem?_of_mem hfs
  rcases entry_set hc with ⟨-, heq⟩ | ⟨hne, hc⟩
  · cases heq
  · exact hne (h.disjoint hb hc he hef)

/-- A request that is refused or has nothing to change. -/
theorem outcome_of_unchanged (h : p.Holds contents) {r : Request} (heq : p.perform r = p)
    (hno : ¬ p.Overflows r) : p.Outcome r contents contents where
  holds := heq.symm ▸ h
  universeSize_eq := by rw [heq]
  evolves := .refl contents
  kept_iff := iff_of_true (fun _ => id) hno

/-- A block whose members have several codes is split, or it is taken out of use as the table of
codes does not fit. -/
theorem outcome_of_several (h : p.Holds contents) (hb : contents[b]? = some (some es))
    {code : Nat → Nat} {range : Nat} (hrange : ∀ e ∈ es, code e < range)
    (hseveral : 2 ≤ (classes es code).length) :
    ∃ new, p.Outcome (.refine b code range) contents new := by
  obtain ⟨q, hq, hholds⟩ := h.refine hb hrange hseveral
  have hlong : ¬ (List.range' contents.length (classes es code).length).length ≤ 1 := by
    rw [List.length_range']
    exact Nat.not_le.mpr hseveral
  by_cases hfits : TableFits range numberWidth
  · have hperform : p.perform (.refine b code range) = q := by
      rw [perform, h.refineBounded_eq, hq]
      simp only [Except.map, hfits, or_true, if_true]
    refine ⟨_, hperform.symm ▸ hholds, ?_, evolves_split hb code, ?_⟩
    · rw [hperform, universeSize_of_refine hq]
    · refine iff_of_true (fun e he => he.split hb code) fun hover => ?_
      exact ((h.overflows_refine_iff hb).mp hover).1 hfits
  · have hperform : p.perform (.refine b code range) = p.retire b := by
      rw [perform, h.refineBounded_eq, hq]
      simp only [Except.map, hlong, hfits, or_self, if_false]
    refine ⟨_, hperform.symm ▸ h.retire hb, ?_, evolves_retire contents b, ?_⟩
    · rw [hperform]
      rfl
    · refine iff_of_false (fun hkept => ?_) ?_
      · obtain ⟨e, he⟩ : ∃ e, e ∈ es := by
          refine List.exists_mem_of_ne_nil es ?_
          rintro rfl
          simp [classes] at hseveral
        exact h.not_placed_retire hb he (hkept e (.of_getElem? hb he))
      · exact not_not_intro ((h.overflows_refine_iff hb).mpr ⟨hfits, hrange, hseveral⟩)

theorem outcome_refine (h : p.Holds contents) (b : Nat) (code : Nat → Nat) (range : Nat) :
    ∃ new, p.Outcome (.refine b code range) contents new := by
  by_cases hlive : p.isLive b
  case neg =>
    have hrejects := rejects_of_not_isLive hlive
    refine ⟨contents, h.outcome_of_unchanged (by rw [perform, hrejects.refine]) ?_⟩
    rintro ⟨-, es, hes, -⟩
    rw [hrejects.members] at hes
    cases hes
  obtain ⟨es, hb⟩ := h.isLive_iff.mp hlive
  by_cases hrange : ∀ e ∈ es, code e < range
  case neg =>
    obtain ⟨e, hfind⟩ : ∃ e, es.find? (fun e => range ≤ code e) = some e :=
      Option.isSome_iff_exists.mp (List.find?_isSome.mpr (by simpa using hrange))
    refine ⟨contents, h.outcome_of_unchanged ?_ ?_⟩
    · rw [perform, h.refineBounded_eq, h.refine_of_find? hb hfind]
      rfl
    · exact fun hover => hrange ((h.overflows_refine_iff hb).mp hover).2.1
  by_cases hseveral : 2 ≤ (classes es code).length
  case neg =>
    refine ⟨contents, h.outcome_of_unchanged ?_ ?_⟩
    · rw [perform, h.refineBounded_eq, h.refine_of_same hb hrange hseveral]
      rfl
    · exact fun hover => hseveral ((h.overflows_refine_iff hb).mp hover).2.2
  exact h.outcome_of_several hb hrange hseveral

theorem outcome_merge (h : p.Holds contents) (target : Nat) (others : List Nat) :
    ∃ new, p.Outcome (.merge target others) contents new := by
  by_cases hlive : ∀ b ∈ target :: others, p.isLive b
  case neg =>
    obtain ⟨b, hb, hdead⟩ : ∃ b ∈ target :: others, ¬ p.isLive b := by
      simpa only [not_forall, exists_prop] using hlive
    obtain ⟨c, -, hc⟩ := (rejects_of_not_isLive hdead).merge target others hb
    exact ⟨contents, h.outcome_of_unchanged (by rw [perform, hc]) id⟩
  obtain ⟨q, hq, hholds⟩ := h.merge hlive
  have hperform : p.perform (.merge target others) = q := by rw [perform, hq]
  refine ⟨_, hperform.symm ▸ hholds, ?_, evolves_splicedAll contents target others,
    iff_of_true (fun e he => he.splicedAll target others) id⟩
  rw [hperform, universeSize_of_merge hq]

/-- Every request, granted or refused, has an outcome. -/
theorem outcome (h : p.Holds contents) (r : Request) : ∃ new, p.Outcome r contents new := by
  cases r with
  | refine b code range => exact h.outcome_refine b code range
  | merge target others => exact h.outcome_merge target others

end Holds

end StateIdentification.Partition
