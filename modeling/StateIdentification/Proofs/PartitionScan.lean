import Mathlib.Data.List.Induction
import Mathlib.Data.List.Nodup
import StateIdentification.Memory.Partition
import StateIdentification.Proofs.PartitionContents

/-!
# Splitting a block in one scan

The members of a block are gone through once, and each is put behind the last one of the new block
for its code. Elements that go to different blocks change different links, so the scan comes to the
same partition as if the new blocks were made one after the other.

## Main results

- `Partition.append_append_comm`, `Partition.append_foldl_addBlock`: appending to different blocks.
- `Partition.Scan.has_foldl`: what a scan has made.
- `Partition.Holds.refineBounded_eq`: splitting within the table limit.
-/

namespace StateIdentification

section Classes

variable {α : Type u} {κ : Type v} [BEq κ] [LawfulBEq κ] {xs : List α} {x : α} {value : α → κ}

theorem eraseDups_concat_of_mem {ks : List κ} {k : κ} (h : k ∈ ks) :
    (ks ++ [k]).eraseDups = ks.eraseDups := by
  rw [List.eraseDups_append]
  simp [List.removeAll, h]

theorem eraseDups_concat_of_notMem {ks : List κ} {k : κ} (h : k ∉ ks) :
    (ks ++ [k]).eraseDups = ks.eraseDups ++ [k] := by
  rw [List.eraseDups_append]
  simp [List.removeAll, h, List.eraseDups_cons]

/-- An element with a value that has occurred joins the class of this value. -/
theorem classes_concat_of_mem (h : value x ∈ xs.map value) :
    classes (xs ++ [x]) value =
      (classes xs value).modify ((xs.map value).eraseDups.idxOf (value x)) (· ++ [x]) := by
  have hkeys : ((xs ++ [x]).map value).eraseDups = (xs.map value).eraseDups := by
    rw [List.map_append, List.map_singleton, eraseDups_concat_of_mem h]
  have hnodup := nodup_eraseDups (xs.map value)
  rw [classes, hkeys, classes]
  refine List.ext_getElem? fun n => ?_
  rw [List.getElem?_modify, List.getElem?_map, List.getElem?_map]
  cases hk : (xs.map value).eraseDups[n]? with
  | none => rfl
  | some k =>
    obtain ⟨hn, rfl⟩ := List.getElem?_eq_some_iff.mp hk
    by_cases heq : (xs.map value).eraseDups.idxOf (value x) = n
    · have hvalue : (xs.map value).eraseDups[n] = value x := by
        simp [← heq]
      simp [heq, hvalue]
    · have hvalue : value x ≠ (xs.map value).eraseDups[n] := by
        intro h
        rw [h, hnodup.idxOf_getElem] at heq
        exact heq rfl
      simp [heq, hvalue]

/-- An element with a new value has a class of its own. -/
theorem classes_concat_of_notMem (h : value x ∉ xs.map value) :
    classes (xs ++ [x]) value = classes xs value ++ [[x]] := by
  have hkeys : ((xs ++ [x]).map value).eraseDups = (xs.map value).eraseDups ++ [value x] := by
    rw [List.map_append, List.map_singleton, eraseDups_concat_of_notMem h]
  have hold : ∀ k ∈ (xs.map value).eraseDups,
      (xs ++ [x]).filter (value · == k) = xs.filter (value · == k) := by
    intro k hk
    have hne : value x ≠ k := fun heq => h (heq ▸ List.mem_eraseDups.mp hk)
    simp [hne]
  have hnew : xs.filter (value · == value x) = [] := by
    simpa using h
  rw [classes, hkeys, List.map_append, List.map_congr_left hold, ← classes, List.map_singleton,
    List.filter_append, hnew]
  simp

end Classes

namespace Partition

variable {p : Partition} {b c e f : Nat} {block other : Block} {fs : List Nat}

@[simp]
theorem size_blocks_append (p : Partition) (b e : Nat) :
    (p.append b e).blocks.size = p.blocks.size := by
  rw [append]
  split <;> simp

@[simp]
theorem size_blocks_retire (p : Partition) (b : Nat) :
    (p.retire b).blocks.size = p.blocks.size := by
  rw [retire, Array.size_modify]

theorem size_blocks_addBlocks (p : Partition) (parts : List (List Nat)) :
    (parts.foldl addBlock p).blocks.size = p.blocks.size + parts.length := by
  induction parts generalizing p with
  | nil => rfl
  | cons es parts ih =>
    rw [List.foldl_cons, ih, blocks_addBlock, Array.size_push, List.length_cons, Nat.add_assoc,
      Nat.add_comm 1]

/-- Elements that go to different blocks may be appended in any order. -/
theorem append_append_comm (hb : p.blocks[b]? = some block) (hc : p.blocks[c]? = some other)
    (hbc : b ≠ c) (hef : e ≠ f) (hf : block.tail ≠ some f) (he : other.tail ≠ some e)
    (htails : ∀ last, block.tail = some last → other.tail ≠ some last) :
    (p.append b e).append c f = (p.append c f).append b e := by
  have hc' : (p.append b e).blocks[c]? = some other := by
    rw [getElem?_blocks_append hb, if_neg hbc, hc]
  have hb' : (p.append c f).blocks[b]? = some block := by
    rw [getElem?_blocks_append hc, if_neg (Ne.symm hbc), hb]
  rw [append, hc', append.eq_def (p.append c f), hb']
  simp only [append, hb, hc, Partition.mk.injEq]
  refine ⟨?_, ?_, ?_, ?_⟩
  · -- the links of the two elements and of the two former ends are all different
    cases hblock : block.tail with
    | none =>
      cases hother : other.tail with
      | none => exact Array.setIfInBounds_comm none none hef
      | some last =>
        have hlast : last ≠ e := fun heq => he (heq ▸ hother)
        rw [Array.setIfInBounds_comm (some f) none hlast, Array.setIfInBounds_comm none none hef]
    | some end₁ =>
      have hend₁ : end₁ ≠ f := fun heq => hf (heq ▸ hblock)
      rw [Array.setIfInBounds_comm (some e) none hend₁, Array.setIfInBounds_comm none none hef]
      cases hother : other.tail with
      | none => rfl
      | some end₂ =>
        have hend₂ : end₂ ≠ e := fun heq => he (heq ▸ hother)
        have hends : end₁ ≠ end₂ := fun heq => htails end₁ hblock (heq ▸ hother)
        rw [Array.setIfInBounds_comm (some f) none hend₂]
        exact Array.setIfInBounds_comm (some e) (some f) hends
  · exact Array.setIfInBounds_comm _ _ hef
  · exact Array.setIfInBounds_comm _ _ hef
  · exact Array.setIfInBounds_comm _ _ hbc

/-- An element is appended to a block before or after others are appended to another one. -/
theorem append_foldl_append (hb : p.blocks[b]? = some block) (hc : p.blocks[c]? = some other)
    (hbc : b ≠ c) (he : e ∉ fs) (hfs : ∀ last, block.tail = some last → last ∉ fs)
    (hother : other.tail ≠ some e)
    (htails : ∀ last, block.tail = some last → other.tail ≠ some last) :
    (fs.foldl (fun q f => q.append c f) p).append b e =
      fs.foldl (fun q f => q.append c f) (p.append b e) := by
  induction fs generalizing p other with
  | nil => rfl
  | cons f fs ih =>
    simp only [List.mem_cons, not_or] at he hfs
    obtain ⟨hef, he⟩ := he
    have hc' : (p.append c f).blocks[c]? = some { other with
        head := other.head.or (some f), tail := some f, size := other.size + 1 } := by
      rw [getElem?_blocks_append hc, if_pos rfl]
    have hb' : (p.append c f).blocks[b]? = some block := by
      rw [getElem?_blocks_append hc, if_neg (Ne.symm hbc), hb]
    have hcomm : (p.append b e).append c f = (p.append c f).append b e :=
      append_append_comm hb hc hbc hef (fun h => (hfs f h).1 rfl) hother htails
    rw [List.foldl_cons, List.foldl_cons, hcomm]
    refine ih hb' hc' he (fun last hlast => (hfs last hlast).2) ?_ fun last hlast => ?_
    · exact fun h => hef (Option.some.inj h).symm
    · exact fun h => (hfs last hlast).1 (Option.some.inj h).symm

/-- An element is appended to a block before or after another block is made. -/
theorem append_addBlock (hb : p.blocks[b]? = some block) (he : e ∉ fs)
    (hfs : ∀ last, block.tail = some last → last ∉ fs) :
    (p.addBlock fs).append b e = (p.append b e).addBlock fs := by
  have hlt := (Array.getElem?_eq_some_iff.mp hb).1
  let opened : Partition := { p with blocks := p.blocks.push .empty }
  have hb' : opened.blocks[b]? = some block := by
    rw [Array.getElem?_push, if_neg (Nat.ne_of_lt hlt), hb]
  have hnew : opened.blocks[p.blocks.size]? = some .empty := by
    rw [Array.getElem?_push, if_pos rfl]
  have hopened : opened.append b e =
      { p.append b e with blocks := (p.append b e).blocks.push .empty } := by
    simp only [append, hb, hb', Partition.mk.injEq]
    refine ⟨rfl, rfl, rfl, ?_⟩
    simp [opened, Array.setIfInBounds, hlt, Nat.lt_succ_of_lt hlt, Array.set_push]
  rw [addBlock, append_foldl_append hb' hnew (Nat.ne_of_lt hlt) he hfs (by simp [Block.empty])
    (by simp [Block.empty]), hopened, addBlock, size_blocks_append]

/-- An element is appended to a block before or after other blocks are made. -/
theorem append_foldl_addBlock {parts : List (List Nat)} (hb : p.blocks[b]? = some block)
    (he : ∀ fs ∈ parts, e ∉ fs)
    (hparts : ∀ last, block.tail = some last → ∀ fs ∈ parts, last ∉ fs) :
    (parts.foldl addBlock p).append b e = parts.foldl addBlock (p.append b e) := by
  induction parts generalizing p with
  | nil => rfl
  | cons fs parts ih =>
    simp only [List.forall_mem_cons] at he hparts
    have hb' : (p.addBlock fs).blocks[b]? = some block := by
      rw [blocks_addBlock, Array.getElem?_push,
        if_neg (Nat.ne_of_lt (Array.getElem?_eq_some_iff.mp hb).1), hb]
    rw [List.foldl_cons, ih hb' he.2 fun last hlast => (hparts last hlast).2, List.foldl_cons,
      append_addBlock hb he.1 fun last hlast => (hparts last hlast).1]

/-- The list of a new block gets longer by appending to it after all blocks are made. -/
theorem append_foldl_addBlock_new {parts : List (List Nat)} {k : Nat} (hk : k < parts.length)
    (hnodup : (parts.flatten ++ [e]).Nodup) :
    (parts.foldl addBlock p).append (p.blocks.size + k) e =
      (parts.modify k (· ++ [e])).foldl addBlock p := by
  induction parts generalizing p k with
  | nil => simp at hk
  | cons fs parts ih =>
    obtain ⟨hfs, hrest, hapart⟩ : fs.Nodup ∧ (parts.flatten ++ [e]).Nodup ∧
        ∀ f ∈ fs, f ∉ parts.flatten ++ [e] := by
      rwa [List.flatten_cons, List.append_assoc, List.nodup_append', List.Disjoint] at hnodup
    have hblocks := blocks_addBlock p fs
    cases k with
    | zero =>
      have hnew : (p.addBlock fs).blocks[p.blocks.size]? =
          some ⟨fs.head?, fs.getLast?, fs.length, true⟩ := by
        rw [hblocks, Array.getElem?_push, if_pos rfl]
      have he (gs : List Nat) (hgs : gs ∈ parts) : e ∉ gs := fun h =>
        (List.nodup_append'.mp hrest).2.2 (List.mem_flatten_of_mem hgs h)
          (List.mem_singleton_self e)
      have hlast (last : Nat) (h : fs.getLast? = some last) (gs : List Nat) (hgs : gs ∈ parts) :
          last ∉ gs := fun hin =>
        hapart last (List.mem_of_getLast? h)
          (List.mem_append_left _ (List.mem_flatten_of_mem hgs hin))
      rw [List.foldl_cons, Nat.add_zero, append_foldl_addBlock hnew he hlast]
      simp [addBlock]
    | succ k =>
      have hsize : p.blocks.size + (k + 1) = (p.addBlock fs).blocks.size + k := by
        rw [hblocks, Array.size_push, Nat.add_right_comm, Nat.add_assoc]
      rw [List.foldl_cons, hsize, ih (Nat.lt_of_succ_lt_succ hk) hrest, List.modify_succ_cons,
        List.foldl_cons]

/-- A scan has gone through some elements: their classes are in new blocks, and the table tells
which one is for which code. -/
structure Scan.Has (s : Scan) (p : Partition) (code : Nat → Nat) (range : Nat) (es : List Nat) :
    Prop where
  partition_eq : s.partition = (classes es code).foldl addBlock p
  created_eq : s.created = List.range' p.blocks.size (classes es code).length
  size_blockFor : s.blockFor.size = range
  getElem?_blockFor : ∀ k < range, s.blockFor[k]? =
    some (if k ∈ es.map code then some (p.blocks.size + (es.map code).eraseDups.idxOf k) else none)

namespace Scan

variable {s : Scan} {code : Nat → Nat} {range : Nat} {es : List Nat}

theorem has_start (p : Partition) (code : Nat → Nat) (range : Nat) :
    (start p range).Has p code range [] where
  partition_eq := rfl
  created_eq := rfl
  size_blockFor := Array.size_replicate
  getElem?_blockFor k hk := by simp [start, hk]

theorem step_of_some (h : s.blockFor[code e]? = some (some b)) :
    s.step code e = ⟨s.partition.append b e, s.blockFor, s.created⟩ := by
  rw [Scan.step, h]
  rfl

theorem step_of_none (h : s.blockFor[code e]? = some none) :
    s.step code e = ⟨s.partition.addBlock [e],
      s.blockFor.setIfInBounds (code e) (some s.partition.blocks.size),
      s.created ++ [s.partition.blocks.size]⟩ := by
  rw [Scan.step, h]
  rfl

/-- The scan appends an element to the block for its code. -/
theorem Has.step_of_mem (h : s.Has p code range es) (hnodup : (es ++ [e]).Nodup)
    (hrange : code e < range) (hmem : code e ∈ es.map code) :
    (s.step code e).Has p code range (es ++ [e]) := by
  have hentry := h.getElem?_blockFor (code e) hrange
  have hclasses := classes_concat_of_mem hmem
  have hlt : (es.map code).eraseDups.idxOf (code e) < (classes es code).length := by
    rw [length_classes]
    exact List.idxOf_lt_length_iff.mpr (List.mem_eraseDups.mpr hmem)
  have hparts : ((classes es code).flatten ++ [e]).Nodup :=
    ((perm_flatten_classes es code).append_right [e]).nodup_iff.mpr hnodup
  have happend := append_foldl_addBlock_new (p := p) hlt hparts
  rw [if_pos hmem] at hentry
  rw [step_of_some hentry]
  refine ⟨?_, ?_, h.size_blockFor, fun k hk => ?_⟩
  · rw [hclasses, ← happend, ← h.partition_eq]
  · rw [hclasses, List.length_modify, h.created_eq]
  · have hsame : k ∈ es.map code ++ [code e] ↔ k ∈ es.map code := by
      rw [List.mem_append, List.mem_singleton]
      exact ⟨fun h => h.elim id fun heq => heq ▸ hmem, .inl⟩
    rw [List.map_append, List.map_singleton, eraseDups_concat_of_mem hmem]
    simp only [hsame]
    exact h.getElem?_blockFor k hk

/-- The scan makes a block for a code that is new. -/
theorem Has.step_of_notMem (h : s.Has p code range es) (hrange : code e < range)
    (hmem : code e ∉ es.map code) : (s.step code e).Has p code range (es ++ [e]) := by
  have hentry := h.getElem?_blockFor (code e) hrange
  have hclasses := classes_concat_of_notMem hmem
  have hcreated : s.partition.blocks.size = p.blocks.size + (classes es code).length := by
    rw [h.partition_eq, size_blocks_addBlocks]
  rw [if_neg hmem] at hentry
  rw [step_of_none hentry]
  refine ⟨?_, ?_, ?_, fun k hk => ?_⟩
  · rw [hclasses, List.foldl_append, ← h.partition_eq]
    rfl
  · rw [hclasses, List.length_append, List.length_singleton, List.range'_concat, Nat.one_mul,
      ← hcreated, h.created_eq]
  · rw [Array.size_setIfInBounds, h.size_blockFor]
  · have hindex : (classes es code).length = (es.map code).eraseDups.length := by
      rw [length_classes]
      rfl
    have hnew : code e ∉ (es.map code).eraseDups := mt List.mem_eraseDups.mp hmem
    rw [List.map_append, List.map_singleton, eraseDups_concat_of_notMem hmem,
      Array.getElem?_setIfInBounds, List.idxOf_append]
    by_cases heq : code e = k
    · subst heq
      simp [h.size_blockFor, hk, hnew, hcreated, hindex]
    · rw [if_neg heq, h.getElem?_blockFor k hk]
      by_cases hkmem : k ∈ es.map code
      · simp [hkmem, List.mem_eraseDups.mpr hkmem]
      · have hkno : k ∉ es.map code ++ [code e] := by simp [hkmem, Ne.symm heq]
        rw [if_neg hkmem, if_neg hkno]

/-- The scan goes through a further element. -/
theorem Has.step (h : s.Has p code range es) (hnodup : (es ++ [e]).Nodup)
    (hrange : code e < range) : (s.step code e).Has p code range (es ++ [e]) := by
  by_cases hmem : code e ∈ es.map code
  · exact h.step_of_mem hnodup hrange hmem
  · exact h.step_of_notMem hrange hmem

/-- A scan of all members makes the blocks of their classes. -/
theorem has_foldl (p : Partition) (hnodup : es.Nodup) (hrange : ∀ e ∈ es, code e < range) :
    (es.foldl (step code) (start p range)).Has p code range es := by
  induction es using List.reverseRecOn with
  | nil => exact has_start p code range
  | append_singleton es e ih =>
    rw [List.foldl_append]
    have hbefore := ih hnodup.of_append_left fun f hf => hrange f (List.mem_append_left _ hf)
    exact hbefore.step hnodup (hrange e (by simp))

theorem size_blocks_step (s : Scan) (code : Nat → Nat) (e : Nat) :
    s.partition.blocks.size ≤ (s.step code e).partition.blocks.size := by
  rw [Scan.step]
  split
  · exact Nat.le_of_eq (size_blocks_append s.partition _ e).symm
  · dsimp only
    rw [blocks_addBlock, Array.size_push]
    exact Nat.le_succ _

theorem size_blocks_foldl (s : Scan) (code : Nat → Nat) (es : List Nat) :
    s.partition.blocks.size ≤ (es.foldl (Scan.step code) s).partition.blocks.size := by
  induction es generalizing s with
  | nil => exact Nat.le_refl _
  | cons e es ih => exact Nat.le_trans (size_blocks_step s code e) (ih (s.step code e))

end Scan

/-- All elements have the same code if they have one class or none. -/
theorem uniform_iff {code : Nat → Nat} {es : List Nat} :
    uniform code es ↔ ¬ 2 ≤ (classes es code).length := by
  rw [two_le_length_classes]
  cases es with
  | nil => simp [uniform]
  | cons first rest =>
    simp only [uniform, List.all_eq_true, beq_iff_eq, ne_eq, not_exists, not_and, not_not]
    constructor
    · intro hall
      have hfirst : ∀ e ∈ first :: rest, code e = code first := by simpa using hall
      exact fun e he f hf => (hfirst e he).trans (hfirst f hf).symm
    · intro hsame e he
      exact hsame e (List.mem_cons_of_mem _ he) first List.mem_cons_self

/-- Within the table limit a block is split as without it. If the table of codes does not fit, a
block whose members have several codes is taken out of use. -/
theorem Holds.refineBounded_eq {contents : List (Option (List Nat))} (h : p.Holds contents)
    (b : Nat) (code : Nat → Nat) (range : Nat) :
    p.refineBounded b code range = (p.refine b code range).map fun (blocks, q) =>
      if blocks.length ≤ 1 ∨ TableFits range numberWidth then (.ok blocks, q)
      else (.error ⟨range, numberWidth⟩, p.retire b) := by
  rw [refineBounded, Partition.refine]
  cases hes : p.members b with
  | error e => rfl
  | ok es =>
    cases hfind : es.find? (fun e => range ≤ code e) with
    | some e => simp only [hfind, Except.map]
    | none =>
      have hrange : ∀ e ∈ es, code e < range := by simpa [List.find?_eq_none] using hfind
      have hnodup := h.nodup (h.members_eq_ok_iff.mp hes)
      simp only [hfind]
      by_cases hseveral : 2 ≤ (classes es code).length
      case neg =>
        have hone : (classes es code).length ≤ 1 := Nat.le_of_lt_succ (Nat.not_le.mp hseveral)
        simp only [uniform_iff.mpr hseveral, hone, if_true, Except.map, List.length_singleton,
          Nat.le_refl, true_or]
      have hlong : ¬ (classes es code).length ≤ 1 := Nat.not_le.mpr hseveral
      have hnot : ¬ uniform code es := mt uniform_iff.mp (not_not_intro hseveral)
      have hscan := Scan.has_foldl (p.retire b) hnodup hrange
      by_cases hfits : TableFits range numberWidth
      · simp only [hnot, hlong, hfits, requireTable_of_fits, Except.map, if_false, or_true, if_true,
          hscan.partition_eq, hscan.created_eq, Bool.false_eq_true, size_blocks_retire]
      · simp only [hnot, hlong, hfits, requireTable_of_not_fits hfits, Except.map, if_false,
          List.length_range', or_self, Bool.false_eq_true]

end Partition

end StateIdentification
