import StateIdentification.Memory.TableLimit
import StateIdentification.Partition.Refine

/-!
# Partitions within the table limit

A partition keeps a table with an entry for every element. To split a block, a table with an entry
for every code that is allowed is needed in addition: its members are gone through once, and the
table tells in which block an element with a code belongs.

## Main definitions

- `Partition.coarsestBounded`: the partition into one block.
- `Partition.Scan`: how far a block has been split.
- `Partition.refineBounded`: splits a block by the codes of its members.
-/

namespace StateIdentification.Partition

/-- The partition of the numbers below `size` into one block, if its tables fit. -/
def coarsestBounded (size : Nat) : Except TableOverflow Partition := do
  requireTable size numberWidth
  return coarsest size

/-- A block that is being split: the partition so far, the new block for every code that has
occurred, and the new blocks in order of creation. -/
structure Scan where
  partition : Partition
  blockFor : Array (Option Nat)
  created : List Nat

namespace Scan

/-- The scan that has seen no element yet. -/
def start (p : Partition) (range : Nat) : Scan := ⟨p, Array.replicate range none, []⟩

/-- Puts an element behind the last one of the block for its code. The block is created if the code
has not occurred before. -/
def step (code : Nat → Nat) (s : Scan) (e : Nat) : Scan :=
  match s.blockFor[code e]?.join with
  | some b => { s with partition := s.partition.append b e }
  | none =>
    { partition := s.partition.addBlock [e]
      blockFor := s.blockFor.setIfInBounds (code e) (some s.partition.blocks.size)
      created := s.created ++ [s.partition.blocks.size] }

end Scan

/-- Whether all elements have the same code. -/
def uniform (code : Nat → Nat) : List Nat → Bool
  | [] => true
  | first :: rest => rest.all (code · == code first)

/-- Splits a block by the codes of its members. The block is taken out of use before the table of
codes is made. If that table does not fit, no block takes its place, and its members keep its
number. A block that stays as it is takes no table. -/
def refineBounded (p : Partition) (b : Nat) (code : Nat → Nat) (range : Nat) :
    Except PartitionError (Except TableOverflow (List Nat) × Partition) :=
  match p.members b with
  | .error e => .error e
  | .ok es =>
    match es.find? fun e => range ≤ code e with
    | some e => .error (.codeOutOfRange e (code e) range)
    | none =>
      if uniform code es then .ok (.ok [b], p)
      else
        match requireTable range numberWidth with
        | .error overflow => .ok (.error overflow, p.retire b)
        | .ok _ =>
          let scan := es.foldl (Scan.step code) (.start (p.retire b) range)
          .ok (.ok scan.created, scan.partition)

namespace Scan

/-- The blocks of the table are in use and have members. -/
def Fills (s : Scan) : Prop :=
  ∀ c b : Nat, s.blockFor[c]? = some (some b) →
    ∃ block, s.partition.blocks[b]? = some block ∧ block.live ∧ 0 < block.size

theorem fills_start (p : Partition) (range : Nat) : (start p range).Fills := by
  intro c b h
  simp [start, Array.getElem?_replicate] at h

theorem Fills.step {s : Scan} (h : s.Fills) (code : Nat → Nat) (e : Nat) :
    (s.step code e).Fills := by
  intro c b hc
  rw [Scan.step] at hc ⊢
  cases hentry : s.blockFor[code e]?.join with
  | some last =>
    obtain ⟨block, hblock, hlive, hpos⟩ := h _ _ (Option.join_eq_some_iff.mp hentry)
    rw [hentry] at hc
    simp only [getElem?_blocks_append hblock]
    by_cases heq : last = b
    · exact ⟨_, if_pos heq, hlive, Nat.succ_pos _⟩
    · rw [if_neg heq]
      exact h c b hc
  | none =>
    simp only [hentry, blocks_addBlock, Array.getElem?_push] at hc ⊢
    rw [Array.getElem?_setIfInBounds] at hc
    split at hc
    · split at hc
      · obtain rfl : s.partition.blocks.size = b := Option.some.inj (Option.some.inj hc)
        exact ⟨_, if_pos rfl, rfl, Nat.one_pos⟩
      · cases hc
    · obtain ⟨block, hblock, hlive, hpos⟩ := h c b hc
      have hne := Nat.ne_of_lt (Array.getElem?_eq_some_iff.mp hblock).1
      exact ⟨block, by rw [if_neg hne, hblock], hlive, hpos⟩

/-- Every element that does not need a new block makes room for one more split. -/
theorem Fills.room_step {s : Scan} (h : s.Fills) (code : Nat → Nat) (e : Nat) :
    (s.step code e).partition.room + (s.step code e).created.length =
      s.partition.room + s.created.length + 1 := by
  rw [Scan.step]
  cases hentry : s.blockFor[code e]?.join with
  | some last =>
    obtain ⟨block, hblock, hlive, hpos⟩ := h _ _ (Option.join_eq_some_iff.mp hentry)
    simp only [room_append hblock hlive hpos, Nat.add_right_comm]
  | none => simp [room_addBlock, Nat.add_assoc]

theorem Fills.room_foldl {s : Scan} (h : s.Fills) (code : Nat → Nat) (es : List Nat) :
    (es.foldl (Scan.step code) s).partition.room + (es.foldl (Scan.step code) s).created.length =
      s.partition.room + s.created.length + es.length := by
  induction es generalizing s with
  | nil => rfl
  | cons e es ih =>
    rw [List.foldl_cons, ih (h.step code e), h.room_step code e, List.length_cons]
    omega

end Scan

/-- A split takes up room. -/
theorem room_refineBounded_lt {p q : Partition} {b range : Nat} {code : Nat → Nat} {bs : List Nat}
    (h : p.refineBounded b code range = .ok (.ok bs, q)) (hs : 2 ≤ bs.length) :
    q.room < p.room := by
  obtain ⟨es, hes, hroom⟩ : ∃ es, p.members b = .ok es ∧
      q.room + bs.length = (p.retire b).room + es.length := by
    rw [refineBounded] at h
    split at h
    · cases h
    case h_2 es hes =>
      refine ⟨es, hes, ?_⟩
      split at h
      · cases h
      · split at h
        · cases h
          simp at hs
        · split at h
          · cases h
          · cases h
            exact (Scan.fills_start (p.retire b) range).room_foldl code es
  obtain ⟨block, hb, hlive, rfl⟩ := exists_of_members hes
  have hretire := room_retire hb hlive
  have hle : (p.memberList block).length ≤ block.size := length_walk_le ..
  omega

end StateIdentification.Partition
