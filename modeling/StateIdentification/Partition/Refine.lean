import StateIdentification.Counting
import StateIdentification.Partition.Basic

/-!
# Splitting and merging blocks

## Main definitions

- `Partition.refine`: splits a block by the codes of its members.
- `Partition.merge`: moves the members of several blocks into one.
- `Partition.room`: how often blocks can still be split.
-/

namespace StateIdentification.Partition

/-- Takes a block out of use. -/
def retire (p : Partition) (b : Nat) : Partition :=
  { p with blocks := p.blocks.modify b ({ · with live := false }) }

/-- Splits a block by the codes of its members, which have to be below `range`. There is one new
block for every code that occurs, in the order in which the codes occur first, and the members keep
their order. A block whose members all have the same code stays as it is. -/
def refine (p : Partition) (b : Nat) (code : Nat → Nat) (range : Nat) :
    Except PartitionError (List Nat × Partition) :=
  match p.members b with
  | .error e => .error e
  | .ok es =>
    match es.find? fun e => range ≤ code e with
    | some e => .error (.codeOutOfRange e (code e) range)
    | none =>
      let parts := classes es code
      if parts.length ≤ 1 then .ok ([b], p)
      else .ok (List.range' p.blocks.size parts.length, parts.foldl addBlock (p.retire b))

/-- Puts the list of the live block `source` behind the list of `target`, and takes `source` out of
use. Nothing happens if `source` is `target` or out of use. -/
def splice (target : Nat) (p : Partition) (source : Nat) : Partition :=
  match p.blocks[target]?, p.blocks[source]? with
  | some t, some s =>
    if source = target ∨ ¬ s.live then p
    else
      { next := match t.tail, s.head with
          | some last, some e => p.next.setIfInBounds last (some e)
          | _, _ => p.next
        prev := match s.head with
          | none => p.prev
          | some e => p.prev.setIfInBounds e t.tail
        blockOf := (p.memberList s).foldl (·.setIfInBounds · target) p.blockOf
        blocks := (p.blocks.setIfInBounds target
          { t with head := t.head.or s.head, tail := s.tail.or t.tail, size := t.size + s.size })
            |>.setIfInBounds source { s with live := false } }
  | _, _ => p

/-- Moves the members of `others` behind those of `target`, in the given order. All blocks have to
be live, and those of `others` are taken out of use unless they are the target. -/
def merge (p : Partition) (target : Nat) (others : List Nat) :
    Except PartitionError (Nat × Partition) :=
  match (target :: others).find? (!p.isLive ·) with
  | some b => .error (.staleBlock b)
  | none => .ok (target, others.foldl (splice target) p)

/-- A split that is not refused leaves the block as it is, or puts new blocks in its place. -/
theorem refine_cases {p q : Partition} {b range : Nat} {code : Nat → Nat} {bs : List Nat}
    (h : p.refine b code range = .ok (bs, q)) :
    ∃ es, p.members b = .ok es ∧ (∀ e ∈ es, code e < range) ∧
      ((classes es code).length ≤ 1 ∧ bs = [b] ∧ q = p ∨
        2 ≤ (classes es code).length ∧
          bs = List.range' p.blocks.size (classes es code).length ∧
          q = (classes es code).foldl addBlock (p.retire b)) := by
  rw [refine] at h
  split at h
  · cases h
  case h_2 es hes =>
    split at h
    · cases h
    case h_2 hfind =>
      refine ⟨es, hes, by simpa [List.find?_eq_none] using hfind, ?_⟩
      dsimp only at h
      split at h <;> cases h
      case isTrue hone => exact .inl ⟨hone, rfl, rfl⟩
      case isFalse hseveral => exact .inr ⟨Nat.not_le.mp hseveral, rfl, rfl⟩

theorem eq_of_merge {p q : Partition} {target b : Nat} {others : List Nat}
    (h : p.merge target others = .ok (b, q)) : b = target ∧ q = others.foldl (splice target) p := by
  rw [merge] at h
  split at h <;> cases h
  exact ⟨rfl, rfl⟩

/-- How often a block can still be split into blocks with members. -/
def blockRoom (block : Block) : Nat := if block.live then block.size - 1 else 0

/-- How often blocks can still be split into blocks with members. -/
def room (p : Partition) : Nat := total blockRoom p.blocks.toList

theorem length_walk_le (links : Array (Option Nat)) (steps : Nat) (start : Option Nat) :
    (walk links steps start).length ≤ steps := by
  fun_induction walk <;> simp_all

theorem room_addBlock (p : Partition) (es : List Nat) :
    (p.addBlock es).room = p.room + (es.length - 1) := by
  simp [room, blocks_addBlock, blockRoom]

theorem room_retire {p : Partition} {b : Nat} {block : Block} (h : p.blocks[b]? = some block)
    (hl : block.live) : (p.retire b).room + (block.size - 1) = p.room := by
  have hb : p.blocks.toList[b]? = some block := by simpa using h
  have htotal := total_set blockRoom hb { block with live := false }
  have hretire : (p.retire b).blocks.toList =
      p.blocks.toList.set b { block with live := false } := by
    have hlt := (List.getElem?_eq_some_iff.mp hb).1
    refine List.ext_getElem? fun c => ?_
    rw [retire, Array.toList_modify, List.getElem?_modify, List.getElem?_set]
    by_cases hbc : b = c
    · subst hbc
      simp only [hb, hlt, if_true, Option.map_eq_map, Option.map_some]
    · simp only [hbc, if_false, Option.map_eq_map, Option.map_id']
  simpa [room, hretire, blockRoom, hl] using htotal

/-- A live block with members makes room for one more split if it gets one more member. -/
theorem room_append {p : Partition} {b : Nat} {block : Block} (h : p.blocks[b]? = some block)
    (hl : block.live) (hpos : 0 < block.size) (e : Nat) : (p.append b e).room = p.room + 1 := by
  have hb : p.blocks.toList[b]? = some block := by simpa using h
  have htotal := total_set blockRoom hb
    { block with head := block.head.or (some e), tail := some e, size := block.size + 1 }
  simp only [room, append, h, Array.toList_setIfInBounds, blockRoom, hl, if_true] at htotal ⊢
  omega

/-- Only a block in use has members. -/
theorem exists_of_members {p : Partition} {b : Nat} {es : List Nat} (h : p.members b = .ok es) :
    ∃ block, p.blocks[b]? = some block ∧ block.live ∧ p.memberList block = es := by
  rw [members, liveBlock] at h
  cases hb : p.blocks[b]? with
  | none => simp [hb, Except.map] at h
  | some block =>
    by_cases hlive : block.live
    · simp only [hb, hlive, if_true, Except.map] at h
      exact ⟨block, rfl, hlive, Except.ok.inj h⟩
    · simp [hb, hlive, Except.map] at h

/-- A split takes up room. -/
theorem room_refine_lt {p q : Partition} {b range : Nat} {code : Nat → Nat} {bs : List Nat}
    (h : p.refine b code range = .ok (bs, q)) (hs : 2 ≤ bs.length) : q.room < p.room := by
  have fold (parts : List (List Nat)) (q : Partition) (hp : ∀ es ∈ parts, es ≠ []) :
      (parts.foldl addBlock q).room + parts.length = q.room + total List.length parts := by
    induction parts generalizing q with
    | nil => simp
    | cons es parts ih =>
      have := ih (q.addBlock es) fun fs hf => hp fs (List.mem_cons_of_mem _ hf)
      have := List.length_pos_iff.mpr (hp es List.mem_cons_self)
      simp only [List.foldl_cons, List.length_cons, total, room_addBlock] at *
      omega
  obtain ⟨es, hes, -, ⟨-, rfl, -⟩ | ⟨hseveral, -, rfl⟩⟩ := refine_cases h
  · simp at hs
  · obtain ⟨block, hb, hlive, rfl⟩ := exists_of_members hes
    have hparts := fold (classes (p.memberList block) code) (p.retire b)
      fun es he => ne_nil_of_mem_classes he
    have hretire := room_retire hb hlive
    have htotal := total_length_classes (p.memberList block) code
    have hle : (p.memberList block).length ≤ block.size := length_walk_le ..
    omega

end StateIdentification.Partition
