/-!
# Partitions of a finite universe

A partition of the numbers below a size into blocks. The members of every block form a doubly
linked list in one pool of links, so that splitting and merging only changes links.

## Main definitions

- `Partition`: the links of all elements and the ends of all blocks.
- `Partition.coarsest`: the partition into one block.
- `Partition.find`, `Partition.members`, `Partition.size`: the queries.
- `PartitionError`: why a request is refused.
-/

namespace StateIdentification

/-- Why a request to a partition is refused. -/
inductive PartitionError where
  | codeOutOfRange (element code range : Nat)
  | staleBlock (block : Nat)
  | unknownElement (element size : Nat)
deriving DecidableEq, Repr

/-- The text of the refusal. -/
def PartitionError.message : PartitionError → String
  | .codeOutOfRange element code range =>
    s!"classifier mapped element {element} to {code}, but codes must be below {range}"
  | .staleBlock block =>
    s!"block BlockId({block}) has been split or merged and may no longer be used"
  | .unknownElement element size =>
    s!"element {element} is not part of the universe of size {size}"

/-- The two ends and the length of the list of a block. A block that has been split or merged into
another one is not live. -/
structure Block where
  head : Option Nat
  tail : Option Nat
  size : Nat
  live : Bool
deriving DecidableEq, Repr

/-- A live block without members. -/
def Block.empty : Block := ⟨none, none, 0, true⟩

/-- A partition of the numbers below `blockOf.size`. -/
structure Partition where
  next : Array (Option Nat)
  prev : Array (Option Nat)
  blockOf : Array Nat
  blocks : Array Block
deriving DecidableEq, Repr

namespace Partition

/-- Puts an element behind the last member of a block. -/
def append (p : Partition) (b : Nat) (e : Nat) : Partition :=
  match p.blocks[b]? with
  | none => p
  | some block =>
    let next := p.next.setIfInBounds e none
    { next := match block.tail with
        | none => next
        | some last => next.setIfInBounds last (some e)
      prev := p.prev.setIfInBounds e block.tail
      blockOf := p.blockOf.setIfInBounds e b
      blocks := p.blocks.setIfInBounds b
        { block with head := block.head.or (some e), tail := some e, size := block.size + 1 } }

theorem getElem?_blocks_append {p : Partition} {b e : Nat} {block : Block}
    (hb : p.blocks[b]? = some block) (c : Nat) :
    (p.append b e).blocks[c]? =
      if b = c then
        some { block with head := block.head.or (some e), tail := some e, size := block.size + 1 }
      else p.blocks[c]? := by
  have := (Array.getElem?_eq_some_iff.mp hb).1
  simp only [append, hb, Array.getElem?_setIfInBounds]
  grind

/-- Creates a block and moves the given elements into it, in their order. -/
def addBlock (p : Partition) (es : List Nat) : Partition :=
  es.foldl (fun q e => q.append p.blocks.size e) { p with blocks := p.blocks.push .empty }

/-- The new block has the given elements; no other block changes. -/
theorem blocks_addBlock (p : Partition) (es : List Nat) :
    (p.addBlock es).blocks = p.blocks.push ⟨es.head?, es.getLast?, es.length, true⟩ := by
  have fold (block : Block) (q : Partition) (hq : q.blocks = p.blocks.push block) :
      (es.foldl (fun q e => q.append p.blocks.size e) q).blocks =
        p.blocks.push { block with
          head := block.head.or es.head?
          tail := es.getLast?.or block.tail
          size := block.size + es.length } := by
    induction es generalizing block q with
    | nil => simp [hq]
    | cons e es ih =>
      rw [List.foldl_cons, ih { block with
        head := block.head.or (some e), tail := some e, size := block.size + 1 }]
      · cases es <;> simp [List.getLast?_cons, Nat.add_comm 1, Nat.add_assoc]
      · have last : (p.blocks.push block)[p.blocks.size]? = some block := by simp
        simp only [append, hq, last]
        simp [Array.setIfInBounds, Array.set_push]
  simpa [addBlock, Block.empty] using fold .empty { p with blocks := p.blocks.push .empty } rfl

/-- The partition of the numbers below `size` into one block, in ascending order. -/
def coarsest (size : Nat) : Partition :=
  addBlock
    { next := Array.replicate size none
      prev := Array.replicate size none
      blockOf := Array.replicate size 0
      blocks := #[] }
    (List.range size)

/-- The number of elements. -/
def universeSize (p : Partition) : Nat := p.blockOf.size

/-- Whether the block exists and is in use. -/
def isLive (p : Partition) (b : Nat) : Bool := p.blocks[b]?.any (·.live)

/-- The live blocks in order of creation. -/
def liveBlocks (p : Partition) : List Nat := (List.range p.blocks.size).filter p.isLive

/-- The number of live blocks. -/
def blockCount (p : Partition) : Nat := p.liveBlocks.length

/-- The data of a block, which has to be live. -/
def liveBlock (p : Partition) (b : Nat) : Except PartitionError Block :=
  match p.blocks[b]? with
  | some block => if block.live then .ok block else .error (.staleBlock b)
  | none => .error (.staleBlock b)

/-- The elements that are found by following at most `steps` links. -/
def walk (links : Array (Option Nat)) : Nat → Option Nat → List Nat
  | 0, _ | _, none => []
  | steps + 1, some e => e :: walk links steps (links[e]?.join)

/-- The members of the block in the order of its list. -/
def memberList (p : Partition) (block : Block) : List Nat := walk p.next block.size block.head

/-- The members of a live block. -/
def members (p : Partition) (b : Nat) : Except PartitionError (List Nat) :=
  (p.liveBlock b).map p.memberList

/-- The first `count` members of a live block, and how many there are behind them. -/
def firstMembers (p : Partition) (b : Nat) (count : Nat) :
    Except PartitionError (List Nat × Nat) :=
  (p.members b).map fun es => (es.take count, es.length - count)

/-- The number of members of a live block. -/
def size (p : Partition) (b : Nat) : Except PartitionError Nat :=
  (p.liveBlock b).map (·.size)

/-- The block that contains an element. -/
def find (p : Partition) (e : Nat) : Except PartitionError Nat :=
  match p.blockOf[e]? with
  | some b => .ok b
  | none => .error (.unknownElement e p.universeSize)

end Partition

end StateIdentification
