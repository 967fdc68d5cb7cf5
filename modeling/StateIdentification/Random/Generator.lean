import StateIdentification.Random.Source

/-!
# A small random number generator

The state of the generator is one 64-bit word. Every draw adds an odd constant to it, so all
2^64 states come up before the first one does again, and mixes the new state by a long product.

## Main definitions

- `ProductGenerator`: the state, made from a seed by `ProductGenerator.ofSeed`.
- `ProductGenerator.next`: a random 64-bit word.
- `ProductGenerator.below`: a number below a bound, each with the same probability.
- `ProductGenerator.shuffle`: a list in random order.
-/

namespace StateIdentification

/-- A random number generator. -/
structure ProductGenerator where
  state : UInt64
deriving DecidableEq, Repr

namespace ProductGenerator

/-- The number of 64-bit words. -/
def wordCount : Nat := UInt64.size

/-- The generator that starts in the given state. -/
def ofSeed (seed : UInt64) : ProductGenerator := ⟨seed⟩

/-- The next random word: the two halves of the product of the state with a scrambled copy of it
are combined by exclusive or. -/
def next (g : ProductGenerator) : UInt64 × ProductGenerator :=
  let state := g.state + 0x2d358dccaa6c78a5
  let product := state.toNat * (state ^^^ 0x8bb84b93962eacc9).toNat
  (UInt64.ofNat product ^^^ UInt64.ofNat (product / wordCount), ⟨state⟩)

/-- Draws words until the lower half of their product with `bound` reaches `threshold`, and gives
the upper half. -/
def drawUntil (bound threshold : Nat) : Nat → ProductGenerator → Nat × ProductGenerator
  | 0, g => (g.next.1.toNat * bound / wordCount, g.next.2)
  | tries + 1, g =>
    let product := g.next.1.toNat * bound
    if product % wordCount < threshold then drawUntil bound threshold tries g.next.2
    else (product / wordCount, g.next.2)

/-- A number below `bound`. Products whose lower half falls below the remainder of `wordCount` are
drawn again, which leaves equally many words for every number. After `wordCount` draws the words
repeat, so that many tries are enough. -/
def below (g : ProductGenerator) (bound : Nat) : Nat × ProductGenerator :=
  drawUntil bound ((wordCount - bound) % bound) wordCount g

/-- Exchanges the element at `i` with a random one that is not behind it. -/
def exchange {α : Type} (drawn : Array α × ProductGenerator) (i : Nat) :
    Array α × ProductGenerator :=
  let draw := drawn.2.below (i + 1)
  (drawn.1.swapIfInBounds i draw.1, draw.2)

/-- The list in random order: from the second to the last, each element is exchanged with one that
is not behind it. -/
def shuffle {α : Type} (g : ProductGenerator) (xs : List α) : List α × ProductGenerator :=
  let drawn := (List.range' 1 (xs.length - 1)).foldl exchange (xs.toArray, g)
  (drawn.1.toList, drawn.2)

theorem drawUntil_lt {bound : Nat} (h : 0 < bound) (threshold tries : Nat) (g : ProductGenerator) :
    (drawUntil bound threshold tries g).1 < bound := by
  have lt (w : UInt64) : w.toNat * bound / wordCount < bound :=
    Nat.div_lt_of_lt_mul (Nat.mul_lt_mul_of_pos_right w.toNat_lt h)
  fun_induction drawUntil <;> grind

/-- A drawn number lies below its bound. -/
theorem below_lt (g : ProductGenerator) {bound : Nat} (h : 0 < bound) : (g.below bound).1 < bound :=
  drawUntil_lt h _ _ g

theorem exchange_perm {α : Type} (drawn : Array α × ProductGenerator) (i : Nat) :
    (exchange drawn i).1.toList.Perm drawn.1.toList := by
  simp only [exchange, Array.swapIfInBounds]
  split
  · split
    · exact Array.perm_iff_toList_perm.mp (Array.swap_perm _ _)
    · exact .refl _
  · exact .refl _

/-- Shuffling keeps every element as often as it was there. -/
theorem shuffle_perm {α : Type} (g : ProductGenerator) (xs : List α) :
    (g.shuffle xs).1.Perm xs := by
  have fold (js : List Nat) (drawn : Array α × ProductGenerator) :
      (js.foldl exchange drawn).1.toList.Perm drawn.1.toList := by
    induction js generalizing drawn with
    | nil => exact .refl _
    | cons j js ih => exact (ih _).trans (exchange_perm drawn j)
  exact fold _ _

end ProductGenerator

/-- The source of the generators that mix by a long product. -/
instance : RandomSource where
  Generator := ProductGenerator
  ofSeed := ProductGenerator.ofSeed
  next := ProductGenerator.next
  below := ProductGenerator.below
  shuffle := ProductGenerator.shuffle
  below_lt := ProductGenerator.below_lt
  shuffle_perm := ProductGenerator.shuffle_perm

end StateIdentification
