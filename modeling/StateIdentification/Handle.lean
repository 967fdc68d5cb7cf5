/-!
# Handles and words

A machine numbers its states, its inputs and its outputs from zero. A handle is such a number
together with the kind of thing that it numbers, so a state is never mistaken for an input.

## Main definitions

- `Handle`: a numbered state, input or output; `State`, `Input` and `Output` are the three kinds.
- `Handle.range`: the first handles of a kind, in ascending order.
- `Word`: a finite word over the inputs.
-/

namespace StateIdentification

/-- The three kinds of things that a machine numbers. -/
inductive Kind where
  | state
  | input
  | output
deriving DecidableEq, Repr

namespace Kind

/-- The word for a thing of the kind. -/
def name : Kind → String
  | .state => "state"
  | .input => "input"
  | .output => "output"

/-- The letter in front of the number of a handle. -/
def letter : Kind → String
  | .state => "q"
  | .input => "i"
  | .output => "o"

end Kind

/-- The number of a state, an input or an output. -/
@[ext]
structure Handle (kind : Kind) where
  index : Nat
deriving DecidableEq, Repr

/-- A state of a machine. -/
abbrev State := Handle .state

/-- An input symbol. -/
abbrev Input := Handle .input

/-- An output symbol. -/
abbrev Output := Handle .output

/-- A finite word over the inputs. -/
abbrev Word := List Input

namespace Handle

variable {kind : Kind}

/-- The handle with number zero. -/
def first : Handle kind := ⟨0⟩

/-- The handle that directly follows. -/
def next (h : Handle kind) : Handle kind := ⟨h.index + 1⟩

/-- The first `count` handles in ascending order. -/
def range (count : Nat) : List (Handle kind) := (List.range count).map Handle.mk

instance : Inhabited (Handle kind) := ⟨first⟩

instance : LawfulBEq (Handle kind) where
  eq_of_beq h := of_decide_eq_true h
  rfl := decide_eq_true rfl

instance : LE (Handle kind) := ⟨fun a b => a.index ≤ b.index⟩

instance : LT (Handle kind) := ⟨fun a b => a.index < b.index⟩

instance (a b : Handle kind) : Decidable (a ≤ b) := Nat.decLe a.index b.index

instance (a b : Handle kind) : Decidable (a < b) := Nat.decLt a.index b.index

instance : Ord (Handle kind) := ⟨fun a b => compare a.index b.index⟩

theorem lt_def {a b : Handle kind} : a < b ↔ a.index < b.index := Iff.rfl

instance : Std.Asymm (α := Handle kind) (· < ·) where
  asymm _ _ h g := Nat.lt_asymm h g

instance : Trans (α := Handle kind) (· < ·) (· < ·) (· < ·) where
  trans := Nat.lt_trans

instance : Std.TransOrd (Handle kind) where
  eq_swap {a b} :=
    show compare a.index b.index = (compare b.index a.index).swap from Std.OrientedCmp.eq_swap
  isLE_trans {a b c} h g :=
    show (compare a.index c.index).isLE from Std.TransCmp.isLE_trans (b := b.index) h g

instance : Std.LawfulEqOrd (Handle kind) where
  compare_self {a} := show compare a.index a.index = .eq from Std.ReflCmp.compare_self
  eq_of_compare {a b} h :=
    Handle.ext (Std.LawfulEqCmp.eq_of_compare (show compare a.index b.index = .eq from h))

@[simp]
theorem mem_range {count : Nat} {h : Handle kind} : h ∈ range count ↔ h.index < count := by
  constructor
  · intro hm
    obtain ⟨n, hn, rfl⟩ := List.mem_map.mp hm
    exact List.mem_range.mp hn
  · intro hlt
    exact List.mem_map.mpr ⟨h.index, List.mem_range.mpr hlt, rfl⟩

@[simp]
theorem length_range (count : Nat) : (range count : List (Handle kind)).length = count := by
  simp [range]

@[simp]
theorem getElem_range {count k : Nat} (h : k < (range count : List (Handle kind)).length) :
    (range count : List (Handle kind))[k] = ⟨k⟩ := by
  simp [range]

/-- The first handles are in ascending order. -/
theorem pairwise_range (count : Nat) : (range count : List (Handle kind)).Pairwise (· < ·) :=
  List.Pairwise.map Handle.mk (fun _ _ hlt => hlt) List.pairwise_lt_range

theorem nodup_range (count : Nat) : (range count : List (Handle kind)).Nodup :=
  (pairwise_range count).imp fun hlt heq => Nat.ne_of_lt hlt (congrArg Handle.index heq)

end Handle

end StateIdentification
