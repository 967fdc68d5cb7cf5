import Mathlib.Data.List.Nodup
import Mathlib.Data.List.Shortlex
import StateIdentification.AccessWords
import StateIdentification.Machine.Reachability
import StateIdentification.Proofs.BreadthFirst

/-!
# Access words are least

An exploration follows the order of words by length, so the word on which it finds a state is a
shortest one. With the inputs in ascending order it also follows the order by length and then by
inputs, so the word is the least of all words that lead to the state.

## Main definitions

- `Machine.Reaches`: a word over the inputs leads from one state to another.
- `Machine.IsLeastWord`: the least word to a state by length and then by inputs.
- `AccessWords.ShortestFrom`: what a family of access words promises.

## Main results

- `breadthwise_length`, `breadthwise_shortlex`: the two orders of words.
- `AccessWords.get?_eq_some_iff`: the words are those of the visits.
- `AccessWords.ofMachine_shortest`: they are shortest, whatever the order of inputs.
- `AccessWords.ofMachine_least`: in ascending order of inputs they are least.
-/

namespace StateIdentification

/-- Shorter words come first, in any order. -/
theorem breadthwise_length : Breadthwise fun v w => v.length ≤ w.length where
  trans := Nat.le_trans
  first w i := Nat.zero_le _
  extend h i j := by simpa using h

/-- What is appended to words of the same length does not matter where they differ. -/
theorem lex_append {α : Type u} {r : α → α → Prop} {v w : List α} (h : List.Lex r v w)
    (hlen : v.length = w.length) (x y : List α) : List.Lex r (v ++ x) (w ++ y) := by
  induction h with
  | nil => simp at hlen
  | cons _ ih => exact .cons (ih (by simpa using hlen))
  | rel h => exact .rel h

/-- Shorter words come first, and words of the same length are ordered by their inputs. -/
theorem breadthwise_shortlex : Breadthwise (List.Shortlex (α := Input) (· < ·)) where
  trans {u v w} huv hvw := by
    rw [List.shortlex_def] at huv hvw ⊢
    rcases huv with huv | ⟨huv, hlex⟩ <;> rcases hvw with hvw | ⟨hvw, hlex'⟩
    · exact .inl (huv.trans hvw)
    · exact .inl (hvw ▸ huv)
    · exact .inl (huv ▸ hvw)
    · exact .inr ⟨huv.trans hvw, List.lt_trans hlex hlex'⟩
  first w i := .of_length_lt (by simp)
  extend {v w} h i j := by
    rcases List.shortlex_def.mp h with hlt | ⟨hlen, hlex⟩
    · exact .of_length_lt (by simpa using hlt)
    · exact .of_lex (by simpa using hlen) (lex_append hlex hlen [i] [j])

namespace Machine

/-- A word over the inputs of the machine leads from one state to the other. -/
def Reaches (M : Machine) (s u : State) : Prop :=
  ∃ w : Word, (∀ i ∈ w, i ∈ M.inputs) ∧ M.reached s w = u

theorem Reaches.refl (M : Machine) (s : State) : M.Reaches s s := ⟨[], by simp, rfl⟩

theorem Reaches.successor {M : Machine} {s u : State} {i : Input} (h : M.Reaches s u)
    (hi : i ∈ M.inputs) : M.Reaches s (M.successor u i) := by
  obtain ⟨w, hw, rfl⟩ := h
  refine ⟨w ++ [i], fun j hj => ?_, by rw [reached_append]; rfl⟩
  rcases List.mem_append.mp hj with hj | hj
  · exact hw j hj
  · exact List.mem_singleton.mp hj ▸ hi

theorem Reaches.mem_states {M : Machine} {s u : State} (h : M.Reaches s u) (hs : s ∈ M.states) :
    u ∈ M.states := by
  obtain ⟨w, -, rfl⟩ := h
  exact reached_mem hs w

/-- Among the words over the inputs of the machine that lead from `s` to `u`, word `w` is the least
one by length and then by inputs. -/
structure IsLeastWord (M : Machine) (s u : State) (w : Word) : Prop where
  known : ∀ i ∈ w, i ∈ M.inputs
  leads : M.reached s w = u
  least : ∀ v : Word, (∀ i ∈ v, i ∈ M.inputs) → M.reached s v = u →
    w = v ∨ List.Shortlex (· < ·) w v

variable {M : Machine} {origin s : State} {v w : Word}

theorem IsLeastWord.unique (hv : M.IsLeastWord origin s v) (hw : M.IsLeastWord origin s w) :
    v = w := by
  rcases hv.least w hw.known hw.leads with heq | hlt
  · exact heq
  · rcases hw.least v hv.known hv.leads with heq | hlt'
    · exact heq.symm
    · exact absurd hlt' (asymm hlt)

/-- A state has at most one visit. -/
theorem Explores.eq_of_state_eq {before : Word → Word → Prop} {visits : List Visit} {x y : Visit}
    (h : M.Explores origin before visits visits) (hx : x ∈ visits) (hy : y ∈ visits)
    (heq : x.state = y.state) : x = y :=
  List.inj_on_of_nodup_map h.nodup hx hy heq

section

variable [RandomSource]

/-- In whatever order the inputs are tried, an exploration follows the order by length. -/
theorem explores_by_length (M : Machine) (randomized : Bool) (origin : State) (seed : UInt64) :
    M.Explores origin (fun v w => v.length ≤ w.length)
      (M.explore (.ofMachine M randomized seed) origin)
      (M.explore (.ofMachine M randomized seed) origin) :=
  explores_explore origin breadthwise_length (.refl M.inputs)
    (InputOrder.respects_of_forall fun w i j => by simp)

/-- In ascending order of inputs, an exploration also follows the order by length and inputs. -/
theorem explores_by_shortlex (M : Machine) (origin : State) :
    M.Explores origin (List.Shortlex (· < ·)) (M.explore ⟨M.inputs, none⟩ origin)
      (M.explore ⟨M.inputs, none⟩ origin) := by
  refine explores_explore origin breadthwise_shortlex (.refl _) (InputOrder.respects_of_fixed ?_)
  refine (Handle.pairwise_range M.inputCount).imp fun {i j} hij w => ?_
  exact ((List.shortlex_singleton_iff i j).mpr hij).append_left w

end

/-- The order in which the states are explored starts with the origin. -/
theorem head?_reachableStates (M : Machine) (origin : State) :
    (M.reachableStates origin).head? = some origin := by
  have h := M.explores_by_shortlex origin
  have hstart := h.start
  have hsorted := h.ascending
  rw [reachableStates_eq, List.head?_map]
  -- no word comes before the empty one, with which the origin is visited
  cases hvisits : M.explore ⟨M.inputs, none⟩ origin with
  | nil => simp [hvisits] at hstart
  | cons x visits =>
    rw [hvisits] at hstart hsorted
    rcases List.mem_cons.mp hstart with rfl | hrest
    · rfl
    · exact absurd ((List.pairwise_cons.mp hsorted).1 _ hrest) List.not_shortlex_nil_right

theorem nodup_reachableStates (M : Machine) (origin : State) :
    (M.reachableStates origin).Nodup := by
  rw [reachableStates_eq]
  exact (M.explores_by_shortlex origin).nodup

/-- The states that are found are those to which a word leads. -/
theorem mem_reachableStates_iff : s ∈ M.reachableStates origin ↔ M.Reaches origin s := by
  have h := M.explores_by_shortlex origin
  rw [reachableStates_eq, List.mem_map]
  constructor
  · rintro ⟨x, hx, rfl⟩
    exact ⟨x.word, h.known x hx, h.leads x hx⟩
  · rintro ⟨w, hw, rfl⟩
    obtain ⟨x, hx, hstate, -⟩ := h.exists_visit breadthwise_shortlex hw
    exact ⟨x, hx, hstate⟩

end Machine

namespace AccessWords

variable {M : Machine} {origin s : State} {w : Word} {a b : AccessWords}

/-- The words of a family lead from `origin` to all states that can be reached. They are shortest
words, and every beginning of one of them is the word of the state that it leads to. -/
structure ShortestFrom (a : AccessWords) (M : Machine) (origin : State) : Prop where
  isSome_iff : ∀ s, (a.get? s).isSome ↔ M.Reaches origin s
  known : ∀ s w, a.get? s = some w → ∀ i ∈ w, i ∈ M.inputs
  leads : ∀ s w, a.get? s = some w → M.reached origin w = s
  shortest : ∀ s w, a.get? s = some w → ∀ v : Word, (∀ i ∈ v, i ∈ M.inputs) →
    M.reached origin v = s → w.length ≤ v.length
  beginnings : ∀ s w i, a.get? s = some (w ++ [i]) → a.get? (M.reached origin w) = some w

/-- Two such families have words of the same lengths for the same states. -/
theorem ShortestFrom.length_eq (ha : a.ShortestFrom M origin) (hb : b.ShortestFrom M origin)
    (s : State) : (a.get? s).map List.length = (b.get? s).map List.length := by
  have hsome : (a.get? s).isSome ↔ (b.get? s).isSome :=
    (ha.isSome_iff s).trans (hb.isSome_iff s).symm
  cases hv : a.get? s with
  | none => simp_all
  | some v =>
    obtain ⟨w, hw⟩ := Option.isSome_iff_exists.mp (hsome.mp (by simp [hv]))
    have hle := ha.shortest s v hv w (hb.known s w hw) (hb.leads s w hw)
    have hge := hb.shortest s w hw v (ha.known s v hv) (ha.leads s v hv)
    simp [hw, Nat.le_antisymm hle hge]

/-- From a state `0`, input `0` leads through the states `1` and `2` to `3`, and input `1` leads to
state `2` at once. No word leads to state `4`. -/
def detour : Machine :=
  ⟨5, 2, 1, .ofFn fun s i => ⟨if s = 0 ∧ i = 1 then 2 else if s < 3 ∧ i = 0 then s + 1 else s, 0⟩,
    by decide⟩

section

variable [RandomSource]

theorem get?_ofMachine (hs : s ∈ M.states) (randomized : Bool) (origin : State) (seed : UInt64) :
    (ofMachine M randomized origin seed).get? s =
      ((M.explore (.ofMachine M randomized seed) origin).find? (·.state = s)).map (·.word) := by
  rw [Machine.mem_states] at hs
  simp [get?, ofMachine, Machine.states, Handle.range, hs]

theorem get?_ofMachine_of_notMem (hs : s ∉ M.states) (randomized : Bool) (origin : State)
    (seed : UInt64) : (ofMachine M randomized origin seed).get? s = none := by
  rw [Machine.mem_states] at hs
  simp [get?, ofMachine, Machine.states, Handle.range, Nat.not_lt.mp hs]

/-- The word of a state is that of its visit. -/
theorem get?_eq_some_iff (ho : origin ∈ M.states) {randomized : Bool} {seed : UInt64} :
    (ofMachine M randomized origin seed).get? s = some w ↔
      ⟨s, w⟩ ∈ M.explore (.ofMachine M randomized seed) origin := by
  have h := M.explores_by_length randomized origin seed
  generalize hvisits : M.explore (.ofMachine M randomized seed) origin = visits at h
  by_cases hs : s ∈ M.states
  · rw [get?_ofMachine hs, hvisits, Option.map_eq_some_iff]
    constructor
    · rintro ⟨x, hx, rfl⟩
      obtain rfl : x.state = s := by simpa using List.find?_some hx
      exact List.mem_of_find?_eq_some hx
    · intro hmem
      obtain ⟨x, hx⟩ := Option.isSome_iff_exists.mp <|
        (List.find?_isSome (p := (·.state = s))).mpr ⟨_, hmem, by simp⟩
      have heq := h.eq_of_state_eq (List.mem_of_find?_eq_some hx) hmem
        (by simpa using List.find?_some hx)
      exact ⟨x, hx, congrArg Visit.word heq⟩
  · rw [get?_ofMachine_of_notMem hs]
    refine iff_of_false (by simp) fun hmem => hs ?_
    have hleads : M.reached origin w = s := h.leads _ hmem
    exact hleads ▸ Machine.reached_mem ho w

/-- What an exploration in any order of inputs promises. -/
theorem shortestFrom_ofMachine (ho : origin ∈ M.states) (randomized : Bool) (seed : UInt64) :
    (ofMachine M randomized origin seed).ShortestFrom M origin := by
  have h := M.explores_by_length randomized origin seed
  have mem {s : State} {w : Word} (hw : (ofMachine M randomized origin seed).get? s = some w) :
      ⟨s, w⟩ ∈ M.explore (.ofMachine M randomized seed) origin := (get?_eq_some_iff ho).mp hw
  have visit {v : Word} (hv : ∀ i ∈ v, i ∈ M.inputs) : ∃ w : Word, w.length ≤ v.length ∧
      (ofMachine M randomized origin seed).get? (M.reached origin v) = some w := by
    obtain ⟨x, hx, hstate, hword⟩ := h.exists_visit breadthwise_length hv
    refine ⟨x.word, by grind, (get?_eq_some_iff ho).mpr ?_⟩
    exact hstate ▸ hx
  refine ⟨fun s => ?_, fun s w hw => h.known _ (mem hw), fun s w hw => h.leads _ (mem hw), ?_, ?_⟩
  · rw [Option.isSome_iff_exists]
    constructor
    · rintro ⟨w, hw⟩
      exact ⟨w, h.known _ (mem hw), h.leads _ (mem hw)⟩
    · rintro ⟨v, hv, rfl⟩
      obtain ⟨w, -, hw⟩ := visit hv
      exact ⟨w, hw⟩
  · rintro s w hw v hv rfl
    obtain ⟨w', hle, hw'⟩ := visit hv
    obtain rfl : w = w' := Option.some.inj (hw.symm.trans hw')
    exact hle
  · intro s w i hw
    rcases h.continues _ (mem hw) with hnil | ⟨x, hx, j, hword⟩
    · simp at hnil
    · obtain ⟨rfl, -⟩ := List.append_inj' hword rfl
      rw [get?_eq_some_iff ho, h.leads x hx]
      exact hx

/-- In whatever order the inputs are tried, the access words lead from the initial state to exactly
the states that can be reached. No shorter word leads to the state of a word, and without its last
input the word is the one of the state that it then leads to. So all orders of inputs give the same
states words of the same lengths. -/
theorem ofMachine_shortest (ho : origin ∈ M.states) (randomized : Bool) (seed : UInt64) :
    (ofMachine M randomized origin seed).ShortestFrom M origin ∧
      ∀ (randomized' : Bool) (seed' : UInt64) (s : State),
        ((ofMachine M randomized origin seed).get? s).map List.length =
          ((ofMachine M randomized' origin seed').get? s).map List.length := by
  have h := shortestFrom_ofMachine ho randomized seed
  exact ⟨h, fun randomized' seed' s => h.length_eq (shortestFrom_ofMachine ho randomized' seed') s⟩

end

/-- Input `1` and then input `0` lead to state `3`, so its word is no longer than that. -/
theorem ofMachine_shortest_detour : (⟨0⟩ : State) ∈ detour.states ∧
    (ofMachine detour true ⟨0⟩ 3).ShortestFrom detour ⟨0⟩ ∧
    ∃ w, (ofMachine detour true ⟨0⟩ 3).get? ⟨3⟩ = some w ∧ w.length ≤ 2 := by
  have ho : (⟨0⟩ : State) ∈ detour.states := by decide
  have h := (ofMachine_shortest ho true 3).1
  have hknown : ∀ i ∈ [⟨1⟩, ⟨0⟩], i ∈ detour.inputs := by decide
  have hleads : detour.reached ⟨0⟩ [⟨1⟩, ⟨0⟩] = ⟨3⟩ := by decide
  obtain ⟨w, hw⟩ := Option.isSome_iff_exists.mp ((h.isSome_iff ⟨3⟩).mpr ⟨_, hknown, hleads⟩)
  exact ⟨ho, h, w, hw, h.shortest ⟨3⟩ w hw _ hknown hleads⟩

section

variable [RandomSource]

/-- With the inputs in ascending order, the access word of a state is the least of all words that
lead to it, by length and then by inputs. The states that have a word are those that the machine
lists as reachable: each of them once, the initial state first, and in ascending order of their
words. -/
theorem ofMachine_least (ho : origin ∈ M.states) (seed : UInt64) :
    let a := ofMachine M false origin seed
    (∀ s, M.Reaches origin s → (a.get? s).isSome) ∧
      (∀ s w, a.get? s = some w ↔ M.IsLeastWord origin s w) ∧
      (∀ s, s ∈ M.reachableStates origin ↔ (a.get? s).isSome) ∧
      (M.reachableStates origin).Nodup ∧ (M.reachableStates origin).head? = some origin ∧
      (M.reachableStates origin).Pairwise fun s u => ∃ v w,
        a.get? s = some v ∧ a.get? u = some w ∧ List.Shortlex (· < ·) v w := by
  intro a
  have hshortest := shortestFrom_ofMachine ho false seed
  have h := M.explores_by_shortlex origin
  have mem_iff {s : State} {w : Word} :
      a.get? s = some w ↔ ⟨s, w⟩ ∈ M.explore ⟨M.inputs, none⟩ origin := get?_eq_some_iff ho
  have hleast {s : State} {w : Word} (hw : a.get? s = some w) : M.IsLeastWord origin s w := by
    refine ⟨hshortest.known s w hw, hshortest.leads s w hw, fun v hv hsv => ?_⟩
    obtain ⟨x, hx, hstate, hword⟩ := h.exists_visit breadthwise_shortlex hv
    have heq := h.eq_of_state_eq hx (mem_iff.mp hw) (hstate.trans hsv)
    rwa [heq] at hword
  refine ⟨fun s => (hshortest.isSome_iff s).mpr, fun s w => ⟨hleast, fun hw => ?_⟩, fun s => ?_, ?_,
    M.head?_reachableStates origin, ?_⟩
  · obtain ⟨v, hv⟩ := Option.isSome_iff_exists.mp <|
      (hshortest.isSome_iff s).mpr ⟨w, hw.known, hw.leads⟩
    rwa [(hleast hv).unique hw] at hv
  · rw [Option.isSome_iff_exists, Machine.reachableStates_eq, List.mem_map]
    constructor
    · rintro ⟨x, hx, rfl⟩
      exact ⟨x.word, mem_iff.mpr hx⟩
    · rintro ⟨w, hw⟩
      exact ⟨⟨s, w⟩, mem_iff.mp hw, rfl⟩
  · rw [Machine.reachableStates_eq]
    exact h.nodup
  · rw [Machine.reachableStates_eq, List.pairwise_map]
    refine h.ascending.imp_of_mem fun {x y} hx hy hlt => ?_
    exact ⟨x.word, y.word, mem_iff.mpr hx, mem_iff.mpr hy, hlt⟩

end

/-- The least word to state `2` is input `1`, as input `0` leads to state `1` and all others are
longer. -/
theorem ofMachine_least_detour : (⟨0⟩ : State) ∈ detour.states ∧
    (ofMachine detour false ⟨0⟩ 0).get? ⟨2⟩ = some [⟨1⟩] ∧ ⟨2⟩ ∈ detour.reachableStates ⟨0⟩ := by
  have ho : (⟨0⟩ : State) ∈ detour.states := by decide
  obtain ⟨-, hleast, hlisted, -⟩ := ofMachine_least ho 0
  have hword : detour.IsLeastWord ⟨0⟩ ⟨2⟩ [⟨1⟩] := by
    refine ⟨by decide, by decide, fun v hv hleads => ?_⟩
    match v with
    | [] => exact absurd hleads (by decide)
    | [i] =>
      have hi : i.index < 2 := Machine.mem_inputs.mp (hv i (List.mem_singleton_self i))
      match i, hi with
      | ⟨0⟩, _ => exact absurd hleads (by decide)
      | ⟨1⟩, _ => exact .inl rfl
    | i :: j :: v => exact .inr (.of_length_lt (by simp))
  have hget := (hleast ⟨2⟩ [⟨1⟩]).mpr hword
  exact ⟨ho, hget, (hlisted ⟨2⟩).mpr (by rw [hget]; rfl)⟩

end AccessWords

end StateIdentification
