/-!
# Sources of random numbers

What is asked of random numbers: words, numbers below a bound, and lists in random order, drawn one
after the other from a generator that is made from a seed. Only the laws of a source are known of
its draws. The numbers themselves may come up in any order, and need not be random at all.

## Main definitions

- `RandomSource`: a source of random numbers with its laws.
-/

namespace StateIdentification

/-- A source of random numbers. A draw gives the generator for the draws after it as well. -/
class RandomSource where
  /-- The states of the source. -/
  Generator : Type
  /-- The generator that a seed stands for. -/
  ofSeed : UInt64 → Generator
  /-- A word. -/
  next : Generator → UInt64 × Generator
  /-- A number below a bound. -/
  below : Generator → Nat → Nat × Generator
  /-- A list in another order. -/
  shuffle {α : Type} : Generator → List α → List α × Generator
  /-- A drawn number lies below its bound. -/
  below_lt (g : Generator) {bound : Nat} : 0 < bound → (below g bound).1 < bound
  /-- Shuffling keeps every element as often as it was there. -/
  shuffle_perm {α : Type} (g : Generator) (xs : List α) : (shuffle g xs).1.Perm xs

end StateIdentification
