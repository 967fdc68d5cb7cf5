import StateIdentification.AdaptiveSequence.Derivation
import StateIdentification.Proofs.SequenceShape

/-!
# One step of a derivation

What an expansion of a node does, whatever successors are recorded. It leaves the sequence as it is,
or it adds a child for every child of a node of the tree in which there are candidates, or it fails,
and then an invariant of the tree is violated.

## Main definitions

- `AdaptiveSequence.moved`, `AdaptiveSequence.arrivals`: candidates behind a separator, according to
  the recorded successors.

## Main results

- `AdaptiveSequence.eq_arrivals_of_advance`: the candidates that are left in one outcome.
- `AdaptiveSequence.expand_cases`: what an expansion leads to, if it succeeds.
- `AdaptiveSequence.violation_of_expand`: what it means that an expansion fails.
-/

namespace StateIdentification

theorem mapM_ok {ε α β : Type} {f : α → Except ε β} {g : α → β} {xs : List α}
    (h : ∀ x ∈ xs, f x = .ok (g x)) : xs.mapM f = .ok (xs.map g) := by
  induction xs with
  | nil => rfl
  | cons x xs ih =>
    obtain ⟨hx, hxs⟩ := List.forall_mem_cons.mp h
    rw [List.mapM_cons, hx, ih hxs]
    rfl

/-- If the second of two steps succeeds, so does the first one. -/
theorem bind_eq_ok {ε α β : Type} {x : Except ε α} {f : α → Except ε β} {b : β} :
    x >>= f = .ok b ↔ ∃ a, x = .ok a ∧ f a = .ok b := by
  constructor
  · intro h
    cases x with
    | error e => cases h
    | ok a => exact ⟨a, rfl, h⟩
  · rintro ⟨a, rfl, h⟩
    exact h

theorem bind_eq_error {ε α β : Type} {x : Except ε α} {f : α → Except ε β} {e : ε} :
    x >>= f = .error e ↔ x = .error e ∨ ∃ a, x = .ok a ∧ f a = .error e := by
  constructor
  · intro h
    cases x with
    | error e => exact .inl (congrArg Except.error (Except.error.inj h))
    | ok a => exact .inr ⟨a, rfl, h⟩
  · rintro (rfl | ⟨a, rfl, h⟩)
    · rfl
    · exact h

/-- Only an application can fail. -/
theorem exists_of_mapM_error {ε α β : Type} {f : α → Except ε β} {xs : List α} {e : ε}
    (h : xs.mapM f = .error e) : ∃ x ∈ xs, f x = .error e := by
  induction xs with
  | nil => cases h
  | cons x xs ih =>
    rw [List.mapM_cons] at h
    obtain hx | ⟨y, -, h⟩ := bind_eq_error.mp h
    · exact ⟨x, List.mem_cons_self, hx⟩
    · obtain hxs | ⟨ys, -, h⟩ := bind_eq_error.mp h
      · obtain ⟨x', hx', he⟩ := ih hxs
        exact ⟨x', List.mem_cons_of_mem _ hx', he⟩
      · cases h

/-- If the only result that is possible for `x` is `g x`, then no application has failed. -/
theorem eq_map_of_mapM_ok {ε α β : Type} {f : α → Except ε β} {g : α → β} {xs : List α}
    {ys : List β} (h : xs.mapM f = .ok ys) (hg : ∀ x ∈ xs, ∀ y, f x = .ok y → y = g x) :
    ys = xs.map g ∧ ∀ x ∈ xs, f x = .ok (g x) := by
  induction xs generalizing ys with
  | nil => exact ⟨(Except.ok.inj h).symm, by simp⟩
  | cons x xs ih =>
    obtain ⟨hgx, hgxs⟩ := List.forall_mem_cons.mp hg
    rw [List.mapM_cons] at h
    obtain ⟨y, hx, h⟩ := bind_eq_ok.mp h
    obtain ⟨rest, hxs, h⟩ := bind_eq_ok.mp h
    obtain rfl := hgx y hx
    obtain ⟨rfl, hall⟩ := ih hxs hgxs
    exact ⟨(Except.ok.inj h).symm, List.forall_mem_cons.mpr ⟨hx, hall⟩⟩

theorem length_of_mapM_ok {ε α β : Type} {f : α → Except ε β} {xs : List α} {ys : List β}
    (h : xs.mapM f = .ok ys) : ys.length = xs.length := by
  induction xs generalizing ys with
  | nil =>
    cases h
    rfl
  | cons x xs ih =>
    rw [List.mapM_cons] at h
    obtain ⟨y, -, h⟩ := bind_eq_ok.mp h
    obtain ⟨rest, hxs, h⟩ := bind_eq_ok.mp h
    rw [← Except.ok.inj h, List.length_cons, List.length_cons, ih hxs]

namespace AdaptiveSequence

variable {r : SplittingResult} {a a' : AdaptiveSequence} {id oracle child : Nat}
  {cs part : List Candidate} {x y : Candidate} {e : ConstructionError}

/-- A candidate behind the separator of the node `oracle`, according to the recorded successors. -/
def moved (r : SplittingResult) (oracle : Nat) (y : Candidate) : Candidate :=
  ⟨(r.successors.get? (r.tree.depth oracle) y.current).getD y.current, y.initial⟩

/-- The candidates in a child of the node `oracle` behind the separator of `oracle`, according to
the recorded successors. -/
def arrivals (r : SplittingResult) (oracle : Nat) (cs : List Candidate) (child : Nat) :
    List Candidate :=
  ((cs.filter (·.current ∈ r.tree.states child)).map (moved r oracle)).mergeSort
    fun c d => c.current ≤ d.current

theorem move_eq_ok : move r oracle y = .ok x ↔
    (r.successors.get? (r.tree.depth oracle) y.current).isSome ∧ moved r oracle y = x := by
  rw [move, moved]
  cases r.successors.get? (r.tree.depth oracle) y.current <;> simp

theorem violation_of_move (h : move r oracle y = .error e) : ∃ v, e = .invariantViolation v := by
  rw [move] at h
  cases hget : r.successors.get? (r.tree.depth oracle) y.current with
  | some s => rw [hget] at h; cases h
  | none => rw [hget] at h; exact ⟨_, (Except.error.inj h).symm⟩

/-- Candidates that are sorted are in strictly ascending order, if no two of them are in the same
state. -/
theorem ascending_mergeSort {cs : List Candidate}
    (hn : ((cs.mergeSort fun c d => c.current ≤ d.current).map (·.current)).Nodup) :
    (cs.mergeSort fun c d => c.current ≤ d.current).Pairwise (·.current < ·.current) := by
  have hsorted : (cs.mergeSort fun c d => c.current ≤ d.current).Pairwise
      (·.current ≤ ·.current) := by
    refine (List.pairwise_mergeSort ?_ ?_ _).imp of_decide_eq_true
    · intro x y z hxy hyz
      exact decide_eq_true (Nat.le_trans (of_decide_eq_true hxy) (of_decide_eq_true hyz))
    · intro x y
      rw [Bool.or_eq_true]
      exact (Nat.le_total x.current.index y.current.index).imp decide_eq_true decide_eq_true
  refine (hsorted.and (List.pairwise_map.mp hn)).imp fun hle => ?_
  exact Nat.lt_of_le_of_ne hle.1 fun heq => hle.2 (Handle.ext heq)

/-- If moving the candidates on succeeds, all their successors are recorded, and no two of them
are the same. -/
theorem eq_arrivals_of_advance (h : advance r oracle cs child = .ok part) :
    arrivals r oracle cs child = part ∧ (part.map (·.current)).Nodup ∧
      ∀ y ∈ cs, y.current ∈ r.tree.states child →
        (r.successors.get? (r.tree.depth oracle) y.current).isSome := by
  rw [advance] at h
  obtain ⟨ys, hys, h⟩ := bind_eq_ok.mp h
  obtain ⟨rfl, hall⟩ := eq_map_of_mapM_ok hys fun y _ x hm => (move_eq_ok.mp hm).2.symm
  dsimp only at h
  split at h
  case isFalse => cases h
  case isTrue hn =>
    refine ⟨Except.ok.inj h, Except.ok.inj h ▸ hn, fun y hy hyc => ?_⟩
    exact (move_eq_ok.mp (hall y (List.mem_filter.mpr ⟨hy, decide_eq_true hyc⟩))).1

theorem violation_of_advance (h : advance r oracle cs child = .error e) :
    ∃ v, e = .invariantViolation v := by
  rw [advance] at h
  obtain h | ⟨ys, -, h⟩ := bind_eq_error.mp h
  · obtain ⟨y, -, hy⟩ := exists_of_mapM_error h
    exact violation_of_move hy
  · dsimp only at h
    split at h
    case isTrue => cases h
    case isFalse => exact ⟨_, (Except.error.inj h).symm⟩

/-- An expansion changes nothing if there is at most one candidate, or if the tree does not tell how
to go on. Otherwise it applies a separator of the tree. -/
theorem expand_cases (h : expand r a id = .ok a') :
    (a' = a ∧ ((a.candidates id).length < 2 ∨ r.tree.isLeaf (oracleOf r.tree (a.candidates id)))) ∨
      ∃ outcomes, ¬ r.tree.isLeaf (oracleOf r.tree (a.candidates id)) ∧
        (r.tree.children (oracleOf r.tree (a.candidates id))).mapM
            (advance r (oracleOf r.tree (a.candidates id)) (a.candidates id)) = .ok outcomes ∧
        2 ≤ (outcomes.filter (!·.isEmpty)).length ∧
        a' = a.extend id (r.tree.separator (oracleOf r.tree (a.candidates id)))
          (outcomes.filter (!·.isEmpty)) := by
  rw [expand] at h
  by_cases hlen : (a.candidates id).length < 2
  · rw [if_pos hlen] at h
    exact .inl ⟨(Except.ok.inj h).symm, .inl hlen⟩
  rw [if_neg hlen] at h
  by_cases hl : r.tree.isLeaf (oracleOf r.tree (a.candidates id))
  · rw [if_pos hl] at h
    exact .inl ⟨(Except.ok.inj h).symm, .inr hl⟩
  rw [if_neg hl] at h
  obtain ⟨outcomes, houtcomes, h⟩ := bind_eq_ok.mp h
  dsimp only at h
  split at h
  case isTrue => cases h
  case isFalse htwo =>
    exact .inr ⟨outcomes, hl, houtcomes, Nat.not_lt.mp htwo, (Except.ok.inj h).symm⟩

/-- An expansion only fails if the tree, or what is recorded for it, violates an invariant. -/
theorem violation_of_expand (h : expand r a id = .error e) : ∃ v, e = .invariantViolation v := by
  rw [expand] at h
  dsimp only at h
  split at h
  · cases h
  split at h
  · cases h
  obtain h | ⟨outcomes, -, h⟩ := bind_eq_error.mp h
  · obtain ⟨child, -, hchild⟩ := exists_of_mapM_error h
    exact violation_of_advance hchild
  · split at h
    · exact ⟨_, (Except.error.inj h).symm⟩
    · cases h

end AdaptiveSequence

end StateIdentification
