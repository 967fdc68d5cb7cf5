/-!
# The size limit of tables

A table lies in one piece of memory, and the largest distance between two places in memory is
`tableLimit` bytes. A construction that needs a larger table is refused before it starts. The limit
depends on the sizes alone, so that a construction within it does what it does without a limit.

## Main definitions

- `TableFits`: a table with entries of a given width stays within the limit.
- `TableOverflow`: a table that does not.
- `requireTable`: refuses a table that is too large.
-/

namespace StateIdentification

/-- The largest size of a table in bytes. -/
def tableLimit : Nat := UInt64.size / 2 - 1

/-- The width of a number or a handle in bytes. -/
def numberWidth : Nat := 8

/-- The width of a pair of handles in bytes. -/
def pairWidth : Nat := 2 * numberWidth

/-- The width of a transition that may be missing in bytes: a pair, and a mark if it is there. -/
def transitionWidth : Nat := pairWidth + numberWidth

/-- The width of a word in bytes: its place, its length and the room that is reserved for it. -/
def wordWidth : Nat := 3 * numberWidth

/-- A table with `entries` entries of `width` bytes that exceeds the limit. -/
structure TableOverflow where
  entries : Nat
  width : Nat
deriving DecidableEq, Repr

/-- A table with `entries` entries of `width` bytes stays within the limit. -/
def TableFits (entries width : Nat) : Prop := entries * width ≤ tableLimit

instance (entries width : Nat) : Decidable (TableFits entries width) :=
  Nat.decLe (entries * width) tableLimit

/-- Refuses a table that exceeds the limit. -/
def requireTable (entries width : Nat) : Except TableOverflow Unit :=
  if TableFits entries width then .ok () else .error ⟨entries, width⟩

/-- A smaller table with narrower entries fits as well. -/
theorem TableFits.mono {entries width entries' width' : Nat} (h : TableFits entries width)
    (he : entries' ≤ entries) (hw : width' ≤ width) : TableFits entries' width' :=
  Nat.le_trans (Nat.mul_le_mul he hw) h

/-- The entries of a table that fits can be counted. -/
theorem TableFits.lt {entries width : Nat} (h : TableFits entries width) (hw : 0 < width) :
    entries < UInt64.size :=
  Nat.lt_of_le_of_lt (Nat.le_trans (Nat.le_mul_of_pos_right entries hw) h) (by decide)

@[simp]
theorem requireTable_eq_ok {entries width : Nat} {u : Unit} :
    requireTable entries width = .ok u ↔ TableFits entries width := by
  simp [requireTable]

theorem requireTable_of_fits {entries width : Nat} (h : TableFits entries width) :
    requireTable entries width = .ok () :=
  requireTable_eq_ok.mpr h

theorem requireTable_of_not_fits {entries width : Nat} (h : ¬ TableFits entries width) :
    requireTable entries width = .error ⟨entries, width⟩ :=
  if_neg h

/-- What needs a table that fits is done without a limit. -/
theorem requireTable_bind_of_fits {α : Type} {entries width : Nat} (h : TableFits entries width)
    (f : Unit → Except TableOverflow α) : (requireTable entries width >>= f) = f () := by
  rw [requireTable_of_fits h]
  rfl

/-- What needs a table that does not fit is not done. -/
theorem requireTable_bind_of_not_fits {α : Type} {entries width : Nat}
    (h : ¬ TableFits entries width) (f : Unit → Except TableOverflow α) :
    (requireTable entries width >>= f) = .error ⟨entries, width⟩ := by
  rw [requireTable_of_not_fits h]
  rfl

end StateIdentification
