/-!
# Rectangular tables

A table with a fixed number of rows and columns, stored row by row. A table without rows or without
columns takes no space, however many columns or rows it has.

## Main definitions

- `Grid`: a rectangular table.
- `Grid.place`, `Grid.rowOf`, `Grid.columnOf`: where an entry is stored.
- `Grid.get`, `Grid.set`: reading and writing an entry.
- `Grid.ofFn`, `Grid.ofFnM`: the table whose entries are given by a function.
-/

namespace StateIdentification

/-- A table of `rows * columns` entries. -/
structure Grid (α : Type u) (rows columns : Nat) where
  cells : Vector α (rows * columns)
deriving DecidableEq, Repr

namespace Grid

variable {α : Type u} {rows columns : Nat}

/-- The place of an entry in the order of rows, then columns. -/
def place (r : Fin rows) (c : Fin columns) : Fin (rows * columns) where
  val := r * columns + c
  isLt :=
    calc r * columns + c < r * columns + columns := Nat.add_lt_add_left c.isLt _
      _ = (r + 1) * columns := (Nat.succ_mul ..).symm
      _ ≤ rows * columns := Nat.mul_le_mul_right _ r.isLt

/-- The row of a place. -/
def rowOf (p : Fin (rows * columns)) : Fin rows :=
  ⟨p / columns, Nat.div_lt_of_lt_mul (Nat.mul_comm rows columns ▸ p.isLt)⟩

/-- The column of a place. -/
def columnOf (p : Fin (rows * columns)) : Fin columns :=
  ⟨p % columns, Nat.mod_lt _ (Nat.pos_of_ne_zero fun h => absurd p.isLt (by simp [h]))⟩

@[simp]
theorem rowOf_place (r : Fin rows) (c : Fin columns) : rowOf (place r c) = r := by
  apply Fin.ext
  simp only [rowOf, place]
  rw [Nat.mul_comm, Nat.mul_add_div (Nat.zero_lt_of_lt c.isLt), Nat.div_eq_of_lt c.isLt,
    Nat.add_zero]

@[simp]
theorem columnOf_place (r : Fin rows) (c : Fin columns) : columnOf (place r c) = c := by
  apply Fin.ext
  simp only [columnOf, place]
  rw [Nat.mul_comm, Nat.mul_add_mod, Nat.mod_eq_of_lt c.isLt]

@[simp]
theorem place_rowOf_columnOf (p : Fin (rows * columns)) : place (rowOf p) (columnOf p) = p :=
  Fin.ext (Nat.div_add_mod' p columns)

theorem place_inj {r s : Fin rows} {c d : Fin columns} :
    place r c = place s d ↔ r = s ∧ c = d := by
  constructor
  · intro h
    exact ⟨by simpa using congrArg rowOf h, by simpa using congrArg columnOf h⟩
  · rintro ⟨rfl, rfl⟩
    rfl

/-- Places are in the order of rows, then columns. -/
theorem place_lt_place {r s : Fin rows} {c d : Fin columns} :
    place r c < place s d ↔ r < s ∨ r = s ∧ c < d := by
  have later_row {r s : Fin rows} (c d : Fin columns) (h : r < s) : place r c < place s d :=
    calc r * columns + c < r * columns + columns := Nat.add_lt_add_left c.isLt _
      _ = (r + 1) * columns := (Nat.succ_mul ..).symm
      _ ≤ s * columns := Nat.mul_le_mul_right _ h
      _ ≤ s * columns + d := Nat.le_add_right ..
  constructor
  · intro h
    rcases Nat.lt_trichotomy r s with hlt | heq | hgt
    · exact .inl hlt
    · obtain rfl : r = s := Fin.ext heq
      exact .inr ⟨rfl, Nat.lt_of_add_lt_add_left h⟩
    · exact absurd (later_row d c hgt) (Nat.lt_asymm h)
  · rintro (h | ⟨rfl, h⟩)
    · exact later_row c d h
    · exact Nat.add_lt_add_left h _

/-- The entry in a row and a column. -/
def get (g : Grid α rows columns) (r : Fin rows) (c : Fin columns) : α := g.cells[place r c]

/-- Changes the entry in a row and a column. -/
def set (g : Grid α rows columns) (r : Fin rows) (c : Fin columns) (x : α) :
    Grid α rows columns :=
  ⟨g.cells.set (place r c) x⟩

/-- The table whose entries are all the same. -/
def replicate (rows columns : Nat) (x : α) : Grid α rows columns :=
  ⟨Vector.replicate (rows * columns) x⟩

/-- The table with the given entries. -/
def ofFn (f : Fin rows → Fin columns → α) : Grid α rows columns :=
  ⟨Vector.ofFn fun p => f (rowOf p) (columnOf p)⟩

/-- The table with the given entries, which are computed in the order of rows, then columns. -/
def ofFnM {m : Type u → Type v} [Monad m] (f : Fin rows → Fin columns → m α) :
    m (Grid α rows columns) :=
  Grid.mk <$> Vector.ofFnM fun p => f (rowOf p) (columnOf p)

@[simp]
theorem get_replicate (x : α) (r : Fin rows) (c : Fin columns) :
    (replicate rows columns x).get r c = x := by
  simp [get, replicate]

@[simp]
theorem get_ofFn (f : Fin rows → Fin columns → α) (r : Fin rows) (c : Fin columns) :
    (ofFn f).get r c = f r c := by
  simp only [get, ofFn, Fin.getElem_fin, Vector.getElem_ofFn, Fin.eta, rowOf_place, columnOf_place]

/-- A write changes one entry only. -/
theorem get_set (g : Grid α rows columns) (r s : Fin rows) (c d : Fin columns) (x : α) :
    (g.set r c x).get s d = if r = s ∧ c = d then x else g.get s d := by
  simp only [get, set, Fin.getElem_fin, Vector.getElem_set]
  simp only [Fin.val_inj, place_inj]

/-- Entries that may fail are computed in order, up to the first one that fails. -/
theorem vectorOfFnM_cases {ε : Type v} {n : Nat} (f : Fin n → Except ε α) :
    (∃ xs, Vector.ofFnM f = .ok xs ∧ ∀ p : Fin n, f p = .ok xs[p]) ∨
      ∃ p e, Vector.ofFnM f = .error e ∧ f p = .error e ∧ ∀ q < p, ∃ x, f q = .ok x := by
  induction n with
  | zero => exact .inl ⟨#v[], Vector.ofFnM_zero, fun p => p.elim0⟩
  | succ n ih =>
    rw [Vector.ofFnM_succ]
    obtain ⟨xs, hxs, hall⟩ | ⟨p, e, herror, hp, hbefore⟩ := ih fun p => f p.castSucc
    · rw [hxs]
      cases hlast : f (Fin.last n) with
      | ok x =>
        refine .inl ⟨xs.push x, rfl, Fin.lastCases ?_ fun p => ?_⟩
        · simpa using hlast
        · simpa [Vector.getElem_push] using hall p
      | error e =>
        refine .inr ⟨Fin.last n, e, rfl, hlast, Fin.lastCases ?_ fun p => ?_⟩
        · exact fun hlt => absurd hlt (Nat.lt_irrefl n)
        · exact fun _ => ⟨xs[p], hall p⟩
    · rw [herror]
      refine .inr ⟨p.castSucc, e, rfl, hp, Fin.lastCases ?_ fun q => ?_⟩
      · exact fun hlt => absurd p.isLt (Nat.lt_asymm hlt)
      · exact fun hlt => hbefore q hlt

/-- Either all entries can be computed, or the first one that cannot is the error. -/
theorem ofFnM_cases {ε : Type v} (f : Fin rows → Fin columns → Except ε α) :
    (∃ g, ofFnM f = .ok g ∧ ∀ r c, f r c = .ok (g.get r c)) ∨
      ∃ r c e, ofFnM f = .error e ∧ f r c = .error e ∧
        ∀ s d, s < r ∨ s = r ∧ d < c → ∃ x, f s d = .ok x := by
  unfold ofFnM
  obtain ⟨xs, hxs, hall⟩ | ⟨p, e, herror, hp, hbefore⟩ :=
    vectorOfFnM_cases fun p : Fin (rows * columns) => f (rowOf p) (columnOf p)
  · rw [hxs]
    refine .inl ⟨⟨xs⟩, rfl, fun r c => ?_⟩
    simpa only [get, rowOf_place, columnOf_place] using hall (place r c)
  · rw [herror]
    refine .inr ⟨rowOf p, columnOf p, e, rfl, hp, fun s d hlt => ?_⟩
    have hplace := place_lt_place.mpr hlt
    rw [place_rowOf_columnOf] at hplace
    simpa only [rowOf_place, columnOf_place] using hbefore (place s d) hplace

/-- Tables with the same entries are equal. -/
@[ext]
theorem ext {g h : Grid α rows columns} (eq : ∀ r c, g.get r c = h.get r c) : g = h := by
  obtain ⟨xs⟩ := g
  obtain ⟨ys⟩ := h
  congr 1
  apply Vector.ext
  intro p hp
  have := eq (rowOf ⟨p, hp⟩) (columnOf ⟨p, hp⟩)
  simpa only [get, place_rowOf_columnOf, Fin.getElem_fin] using this

/-- Writing an entry once more changes nothing. -/
theorem set_get (g : Grid α rows columns) (r : Fin rows) (c : Fin columns) :
    g.set r c (g.get r c) = g := by
  refine ext fun s d => ?_
  rw [get_set]
  split
  next heq => rw [heq.1, heq.2]
  next => rfl

end Grid

end StateIdentification
