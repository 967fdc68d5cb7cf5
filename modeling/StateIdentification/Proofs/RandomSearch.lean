import Mathlib.Data.List.Perm.Subperm
import StateIdentification.Memory.Random
import StateIdentification.Proofs.LeastWords
import StateIdentification.Proofs.RandomDraw
import StateIdentification.Proofs.StateEquivalence
import StateIdentification.Proofs.StoredMachine

/-!
# Searching for a random machine

A search draws machines and ends with the first one that is connected and minimal. It is refused if
a draft or the marks for its states exceed the limit, and it ends early if the check for minimality
needs a table that does.

## Main definitions

- `Machine.Qualifies`: all states can be reached, and a word separates every two of them.
- `Machine.Overloads`: the check for minimality needs a table of outputs that is too large.
- `Machine.Sampled`: the outcome of a search.
- `Machine.SearchOverflows`: the searches that end early.

## Main results

- `Machine.isConnectedMinimal_iff`: the test that a machine has to pass.
- `Machine.randomMinimal_eq_iff`: the outcome of a search without a limit.
- `Machine.randomBounded_of_fits`: a machine that is drawn within the limit.
- `Machine.randomMinimalBounded_of_fits`: what the limit changes for a search.
- `Machine.randomMinimalBounded_spec`: a search within the limit.
-/

namespace StateIdentification.Machine

open RandomSource

/-- All states can be reached from the first one, and every two different states are separated by
some word. -/
structure Qualifies (M : Machine) : Prop where
  connected : ∀ s ∈ M.states, M.Reaches .first s
  reduced : M.Reduced

/-- The check for minimality needs a table of outputs that exceeds the limit. It is made only if all
states can be reached, and it needs the table only if the states differ on some input. -/
structure Overloads (M : Machine) : Prop where
  connected : ∀ s ∈ M.states, M.Reaches .first s
  tooLarge : ¬ TableFits M.outputCount numberWidth
  differ : ∃ i ∈ M.inputs, ¬ M.Agrees M.states i

variable {M : Machine} {states inputs outputs attempts draws : Nat} {e : MachineError}

section Test

/-- As many states as there are can be reached only if all can. -/
theorem length_reachableStates_eq_iff :
    (M.reachableStates .first).length = M.stateCount ↔ ∀ s ∈ M.states, M.Reaches .first s := by
  have hsubset : M.reachableStates .first ⊆ M.states := fun s hs =>
    (mem_reachableStates_iff.mp hs).mem_states M.first_mem_states
  have hlength : M.states.length = M.stateCount := Handle.length_range _
  have hsubperm := List.subperm_of_subset (M.nodup_reachableStates .first) hsubset
  constructor
  · intro heq s hs
    have hperm := hsubperm.perm_of_length_le (by omega)
    exact mem_reachableStates_iff.mp (hperm.mem_iff.mpr hs)
  · intro hall
    have hle := (List.subperm_of_subset M.nodup_states fun s hs =>
      mem_reachableStates_iff.mpr (hall s hs)).length_le
    have hge := hsubperm.length_le
    omega

/-- A connected machine has no more states than entries, unless it has one state. -/
theorem stateCount_le_of_connected (h : ∀ s ∈ M.states, M.Reaches .first s) :
    M.stateCount ≤ max 1 (M.stateCount * M.inputCount) := by
  rcases Nat.eq_zero_or_pos M.inputCount with hzero | hpos
  · refine Nat.le_trans (Nat.le_of_not_lt fun hlt => ?_) (Nat.le_max_left _ _)
    obtain ⟨w, hw, hreach⟩ := h ⟨1⟩ (mem_states.mpr hlt)
    cases w with
    | nil => cases hreach
    | cons i w =>
      have hi := mem_inputs.mp (hw i (by simp))
      omega
  · exact Nat.le_trans (Nat.le_mul_of_pos_right _ hpos) (Nat.le_max_right _ _)

/-- There is room for the states of a connected machine if there was room for its draft. -/
theorem tableFits_of_connected (h : ∀ s ∈ M.states, M.Reaches .first s)
    (fits : TableFits (M.stateCount * M.inputCount) transitionWidth) :
    TableFits M.stateCount numberWidth := by
  have hmax : TableFits (max 1 (M.stateCount * M.inputCount)) transitionWidth := by
    rcases Nat.le_total 1 (M.stateCount * M.inputCount) with hle | hle
    · rwa [Nat.max_eq_right hle]
    · rw [Nat.max_eq_left hle]
      decide
  exact hmax.mono (stateCount_le_of_connected h) (by decide)

/-- For a connected machine, the table of outputs is what a tree may not have room for. -/
theorem exceeds_iff_overloads (h : ∀ s ∈ M.states, M.Reaches .first s)
    (fits : TableFits (M.stateCount * M.inputCount) transitionWidth) :
    SplittingTree.Exceeds M .hopcroft ↔ M.Overloads := by
  have hstates := tableFits_of_connected h fits
  rw [SplittingTree.exceeds_hopcroft_iff, or_iff_right (not_not_intro hstates)]
  exact ⟨fun ⟨large, differ⟩ => ⟨h, large, differ⟩, fun ⟨_, large, differ⟩ => ⟨large, differ⟩⟩

variable [RandomSource]

/-- The test that a drawn machine has to pass. -/
theorem isConnectedMinimal_iff : M.isConnectedMinimal ↔ M.Qualifies := by
  rw [isConnectedMinimal, Bool.and_eq_true, beq_iff_eq, length_reachableStates_eq_iff,
    M.isMinimal_iff_reduced]
  exact ⟨fun h => ⟨h.1, h.2⟩, fun h => ⟨h.connected, h.reduced⟩⟩

theorem isConnectedMinimalBounded_of_overloads (h : M.Overloads)
    (fits : TableFits (M.stateCount * M.inputCount) transitionWidth) :
    M.isConnectedMinimalBounded = .error ⟨M.outputCount, numberWidth⟩ := by
  have hstates := tableFits_of_connected h.connected fits
  have marks : TableFits M.stateCount markWidth := hstates.mono (Nat.le_refl _) (by decide)
  have hcount := length_reachableStates_eq_iff.mpr h.connected
  have hoverflow : SplittingTree.overflow M = ⟨M.outputCount, numberWidth⟩ := if_pos hstates
  rw [isConnectedMinimalBounded, reachableStatesBounded, requireTable_bind_of_fits marks]
  refine (if_pos hcount).trans ?_
  rw [isMinimalBounded_of_exceeds ((exceeds_iff_overloads h.connected fits).mpr h), hoverflow]

theorem isConnectedMinimalBounded_of_not_overloads (h : ¬ M.Overloads)
    (fits : TableFits (M.stateCount * M.inputCount) transitionWidth)
    (marks : TableFits M.stateCount markWidth) :
    M.isConnectedMinimalBounded = .ok M.isConnectedMinimal := by
  rw [isConnectedMinimalBounded, reachableStatesBounded, requireTable_bind_of_fits marks,
    isConnectedMinimal]
  by_cases hcount : (M.reachableStates .first).length = M.stateCount
  · have hconnected := length_reachableStates_eq_iff.mp hcount
    have hfits := (exceeds_iff_overloads hconnected fits).not.mpr h
    refine (if_pos hcount).trans ?_
    rw [isMinimalBounded_of_not_exceeds hfits, hcount, beq_self_eq_true, Bool.true_and]
  · refine (if_neg hcount).trans ?_
    rw [beq_eq_false_iff_ne.mpr hcount]
    rfl

end Test

theorem exists_drawFails_iff :
    (∃ e, DrawFails states inputs outputs e) ↔
      states = 0 ∨ 0 < states ∧ 0 < inputs ∧ outputs = 0 := by
  constructor
  · rintro ⟨e, empty | ⟨hs, hi, silent⟩⟩
    · exact .inl empty
    · exact .inr ⟨hs, hi, silent⟩
  · rintro (empty | ⟨hs, hi, silent⟩)
    · exact ⟨_, .noStates empty⟩
    · exact ⟨_, .noOutputs hs hi silent⟩

/-- A machine with two states qualifies if one input leads from the first state to the other and
tells the two apart. -/
theorem qualifies_of_two_states {i : Input} (hcount : M.stateCount = 2) (hi : i ∈ M.inputs)
    (hsuccessor : M.successor .first i = ⟨1⟩) (houtput : M.output .first i ≠ M.output ⟨1⟩ i) :
    M.Qualifies := by
  have two {s : State} (hs : s ∈ M.states) : s = .first ∨ s = ⟨1⟩ := by
    have hlt := mem_states.mp hs
    simp only [Handle.ext_iff, Handle.first]
    omega
  refine ⟨fun s hs => ?_, fun s hs u hu hne => ⟨[i], by simpa using hi, ?_⟩⟩
  · rcases two hs with rfl | rfl
    · exact .refl M .first
    · exact hsuccessor ▸ (Reaches.refl M .first).successor hi
  · rcases two hs, two hu with ⟨rfl | rfl, rfl | rfl⟩
    · exact absurd rfl hne
    · simpa [separates, outputs_cons] using houtput
    · simpa [separates, outputs_cons] using houtput.symm
    · exact absurd rfl hne

/-- The states and inputs of a machine in the order of their places. -/
theorem slots_eq_map_range (states inputs : Nat) :
    slots states inputs =
      (List.range (states * inputs)).map fun p => (⟨p / inputs⟩, ⟨p % inputs⟩) := by
  induction states with
  | zero => simp [slots, Handle.range]
  | succ states ih =>
    have hrow : (Handle.range inputs).map (⟨states⟩, ·) = ((List.range inputs).map
        (states * inputs + ·)).map fun p => ((⟨p / inputs⟩, ⟨p % inputs⟩) : State × Input) := by
      rw [Handle.range, List.map_map, List.map_map]
      refine List.map_congr_left fun i hi => ?_
      have hlt := List.mem_range.mp hi
      have hpos : 0 < inputs := Nat.zero_lt_of_lt hlt
      simp [Nat.add_comm (states * inputs), Nat.add_mul_div_right _ _ hpos, Nat.div_eq_of_lt hlt,
        Nat.mod_eq_of_lt hlt]
    rw [Nat.succ_mul, List.range_add, List.map_append, ← ih, ← hrow]
    simp [slots, Handle.range, List.range_succ]

section Search

variable [RandomSource]

/-- The outcome of a search and the generator that it leaves. The first draw may fail. Otherwise the
first machine that qualifies is the outcome, unless there is none among the `attempts` machines that
are drawn at most. -/
inductive Sampled (states inputs outputs attempts : Nat) (g : Generator) :
    Except MachineError (Option Machine) × Generator → Prop
  | error {e : MachineError} (tried : 0 < attempts) (fails : DrawFails states inputs outputs e) :
    Sampled states inputs outputs attempts g (.error e, generatorAfter states inputs outputs g 1)
  | found {draws : Nat} {M : Machine} (lt : draws < attempts)
      (first : FirstDraw Qualifies states inputs outputs g draws M) :
    Sampled states inputs outputs attempts g
      (.ok (some M), generatorAfter states inputs outputs g (draws + 1))
  | exhausted (rejected : NoneDrawn Qualifies states inputs outputs g attempts) :
    Sampled states inputs outputs attempts g
      (.ok none, generatorAfter states inputs outputs g attempts)

/-- The first machine that would end a search needs a table that exceeds the limit. -/
def SearchOverflows (states inputs outputs attempts : Nat) (g : Generator) : Prop :=
  ∃ draws < attempts, ∃ M,
    FirstDraw (fun N => N.Qualifies ∨ N.Overloads) states inputs outputs g draws M ∧ M.Overloads

variable {g : Generator} {r : Except MachineError (Option Machine) × Generator}

theorem random_of_draw {x : Except MachineError Machine} (h : draw states inputs outputs g 0 = x) :
    random states inputs outputs g = (x, (random states inputs outputs g).2) :=
  Prod.ext h rfl

/-- A draw that fails ends the search. -/
theorem randomMinimal_of_error (h : draw states inputs outputs g 0 = .error e) (attempts : Nat) :
    randomMinimal states inputs outputs (attempts + 1) g =
      (.error e, (random states inputs outputs g).2) := by
  rw [randomMinimal, random_of_draw h]

/-- A machine that is drawn ends the search or is left behind. -/
theorem randomMinimal_of_ok (h : draw states inputs outputs g 0 = .ok M) (attempts : Nat) :
    randomMinimal states inputs outputs (attempts + 1) g =
      if M.isConnectedMinimal then (.ok (some M), (random states inputs outputs g).2)
      else randomMinimal states inputs outputs attempts (random states inputs outputs g).2 := by
  rw [randomMinimal, random_of_draw h]

namespace Sampled

theorem zero_iff : Sampled states inputs outputs 0 g r ↔ r = (.ok none, g) := by
  constructor
  · intro h
    cases h with
    | error tried => exact absurd tried (Nat.lt_irrefl 0)
    | found lt => exact absurd lt (Nat.not_lt_zero _)
    | exhausted => rfl
  · rintro rfl
    exact .exhausted fun n hn => absurd hn (Nat.not_lt_zero n)

theorem succ_iff_of_fails (fails : DrawFails states inputs outputs e) (attempts : Nat) :
    Sampled states inputs outputs (attempts + 1) g r ↔
      r = (.error e, (random states inputs outputs g).2) := by
  constructor
  · intro h
    cases h with
    | error _ fails' =>
      have hdraw := draw_of_fails fails g 0
      rw [draw_of_fails fails' g 0] at hdraw
      rw [Except.error.inj hdraw]
      rfl
    | found _ first => exact absurd fails (not_fails_of_draw first.drawn)
    | exhausted rejected =>
      obtain ⟨N, hN, -⟩ := rejected 0 (Nat.succ_pos _)
      exact absurd fails (not_fails_of_draw hN)
  · rintro rfl
    exact .error (Nat.succ_pos _) fails

/-- A machine that qualifies ends the search. -/
theorem succ_iff_of_qualifies (h : draw states inputs outputs g 0 = .ok M) (hM : M.Qualifies)
    (attempts : Nat) : Sampled states inputs outputs (attempts + 1) g r ↔
      r = (.ok (some M), (random states inputs outputs g).2) := by
  constructor
  · intro sampled
    cases sampled with
    | error _ fails => exact absurd fails (not_fails_of_draw h)
    | @found draws N _ first =>
      cases draws with
      | zero =>
        obtain ⟨rfl, -⟩ := (firstDraw_zero_iff h).mp first
        rfl
      | succ draws => exact absurd hM ((firstDraw_succ_iff h).mp first).1
    | exhausted rejected => exact absurd hM ((noneDrawn_succ_iff h).mp rejected).1
  · rintro rfl
    exact .found (Nat.succ_pos _) ((firstDraw_zero_iff h).mpr ⟨rfl, hM⟩)

/-- After any other machine, the search goes on with one attempt less. -/
theorem succ_iff_of_not_qualifies (h : draw states inputs outputs g 0 = .ok M)
    (hM : ¬ M.Qualifies) : Sampled states inputs outputs (attempts + 1) g r ↔
      Sampled states inputs outputs attempts (random states inputs outputs g).2 r := by
  constructor
  · intro sampled
    cases sampled with
    | error _ fails => exact absurd fails (not_fails_of_draw h)
    | @found draws N lt first =>
      cases draws with
      | zero => exact absurd ((firstDraw_zero_iff h).mp first).2 hM
      | succ draws => exact .found (Nat.lt_of_succ_lt_succ lt) ((firstDraw_succ_iff h).mp first).2
    | exhausted rejected => exact .exhausted ((noneDrawn_succ_iff h).mp rejected).2
  · intro sampled
    cases sampled with
    | error _ fails => exact absurd fails (not_fails_of_draw h)
    | found lt first =>
      exact .found (Nat.succ_lt_succ lt) ((firstDraw_succ_iff h).mpr ⟨hM, first⟩)
    | exhausted rejected => exact .exhausted ((noneDrawn_succ_iff h).mpr ⟨hM, rejected⟩)

/-- A search fails exactly if it draws at all and the numbers allow no machine. -/
theorem exists_error_iff (h : Sampled states inputs outputs attempts g r) :
    (∃ e, r.1 = .error e) ↔ 0 < attempts ∧ ∃ e, DrawFails states inputs outputs e := by
  cases h with
  | error tried fails => exact iff_of_true ⟨_, rfl⟩ ⟨tried, _, fails⟩
  | found _ first =>
    exact iff_of_false (by simp) fun ⟨_, _, fails⟩ => not_fails_of_draw first.drawn fails
  | exhausted rejected =>
    refine iff_of_false (by simp) fun ⟨tried, _, fails⟩ => ?_
    obtain ⟨N, hN, -⟩ := rejected 0 tried
    exact not_fails_of_draw hN fails

/-- A machine that is found was drawn. -/
theorem exists_draw (h : Sampled states inputs outputs attempts g r)
    (hM : r.1 = .ok (some M)) : ∃ draws, draw states inputs outputs g draws = .ok M := by
  cases h with
  | error => cases hM
  | found _ first =>
    cases hM
    exact ⟨_, first.drawn⟩
  | exhausted => cases hM

end Sampled

/-- The outcome of a search is the only one there is. -/
theorem randomMinimal_eq_iff :
    randomMinimal states inputs outputs attempts g = r ↔
      Sampled states inputs outputs attempts g r := by
  induction attempts generalizing g with
  | zero => rw [Sampled.zero_iff, randomMinimal, eq_comm]
  | succ attempts ih =>
    by_cases fails : ∃ e, DrawFails states inputs outputs e
    · obtain ⟨e, fails⟩ := fails
      rw [randomMinimal_of_error (draw_of_fails fails g 0), Sampled.succ_iff_of_fails fails,
        eq_comm]
    · obtain ⟨M, hM, -⟩ := exists_draw (not_exists.mp fails) g 0
      rw [randomMinimal_of_ok hM]
      by_cases qualifies : M.Qualifies
      · rw [if_pos (isConnectedMinimal_iff.mpr qualifies),
          Sampled.succ_iff_of_qualifies hM qualifies, eq_comm]
      · rw [if_neg (isConnectedMinimal_iff.not.mpr qualifies), ih,
          Sampled.succ_iff_of_not_qualifies hM qualifies]

theorem not_searchOverflows_of_fails (fails : DrawFails states inputs outputs e) :
    ¬ SearchOverflows states inputs outputs attempts g :=
  fun ⟨_, _, _, first, _⟩ => not_fails_of_draw first.drawn fails

theorem searchOverflows_succ_iff (h : draw states inputs outputs g 0 = .ok M) :
    SearchOverflows states inputs outputs (attempts + 1) g ↔ M.Overloads ∨ ¬ M.Qualifies ∧
      SearchOverflows states inputs outputs attempts (random states inputs outputs g).2 := by
  constructor
  · rintro ⟨draws, lt, N, first, overloads⟩
    cases draws with
    | zero =>
      obtain ⟨rfl, -⟩ := (firstDraw_zero_iff h).mp first
      exact .inl overloads
    | succ draws =>
      obtain ⟨hno, first⟩ := (firstDraw_succ_iff h).mp first
      exact .inr ⟨fun hM => hno (.inl hM), draws, Nat.lt_of_succ_lt_succ lt, N, first, overloads⟩
  · intro hcases
    by_cases hM : M.Overloads
    · exact ⟨0, Nat.succ_pos _, M, (firstDraw_zero_iff h).mpr ⟨rfl, .inr hM⟩, hM⟩
    · obtain ⟨hno, draws, lt, N, first, overloads⟩ := hcases.resolve_left hM
      exact ⟨draws + 1, Nat.succ_lt_succ lt, N,
        (firstDraw_succ_iff h).mpr ⟨not_or.mpr ⟨hno, hM⟩, first⟩, overloads⟩

theorem SearchOverflows.not_fits (h : SearchOverflows states inputs outputs attempts g) :
    ¬ TableFits outputs numberWidth := by
  obtain ⟨draws, -, M, first, overloads⟩ := h
  obtain ⟨-, -, rfl⟩ := counts_of_draw first.drawn
  exact overloads.tooLarge

/-- Drawing edges into a draft is adding the edges that are drawn. -/
theorem draw_eq (d : StoredDraft) (states inputs outputs place left : Nat) (g : Generator) :
    d.draw states inputs outputs place left g =
      let drawn := drawEdges states outputs
        ((List.range' place left).map fun p => (⟨p / inputs⟩, ⟨p % inputs⟩)) g
      (drawn.1.foldlM StoredDraft.insert d).map (·, drawn.2) := by
  induction left generalizing d place g with
  | zero => rfl
  | succ left ih =>
    rw [StoredDraft.draw, List.range'_succ, List.map_cons]
    dsimp only
    rw [drawEdges_cons, List.foldlM_cons]
    cases d.insert ⟨⟨place / inputs⟩, ⟨place % inputs⟩, ⟨(below g (max outputs 1)).1⟩,
      ⟨(below (below g (max outputs 1)).2 (max states 1)).1⟩⟩ with
    | error fault => rfl
    | ok next => exact ih next _ _

/-- All edges of a machine are drawn into a draft. -/
theorem draw_drawnEdges (d : StoredDraft) (states inputs outputs : Nat) (g : Generator) :
    d.draw states inputs outputs 0 (states * inputs) g =
      ((drawnEdges states inputs outputs g).foldlM StoredDraft.insert d).map
        (·, (random states inputs outputs g).2) := by
  rw [draw_eq, ← List.range_eq_range', ← slots_eq_map_range]
  rfl

/-- If the draft fits, a machine is drawn as without a limit. -/
theorem randomBounded_of_fits (fits : TableFits (states * inputs) transitionWidth) (outputs : Nat)
    (g : Generator) :
    randomBounded states inputs outputs g = .ok (random states inputs outputs g) := by
  obtain ⟨d, hd, hfinish⟩ := (Draft.empty states inputs outputs).foldlM_insert_stored
    (fits.lt (by decide)) (drawnEdges states inputs outputs g)
  have hfinish : d.finish = (draw states inputs outputs g 0).map stored := hfinish
  rw [randomBounded, StoredMachine.empty_of_fits fits]
  simp only [bind, Except.bind, draw_drawnEdges, hd, Except.map, hfinish]
  cases hmade : draw states inputs outputs g 0 with
  | error e => exact congrArg Except.ok (random_of_draw hmade).symm
  | ok M =>
    have hmachine := StoredMachine.machine_stored (StoredMachine.countable_of_ofEdges fits hmade)
    simp only [hmachine]
    exact congrArg Except.ok (random_of_draw hmade).symm

theorem randomMinimalBounded_of_error (fits : TableFits (states * inputs) transitionWidth)
    (h : draw states inputs outputs g 0 = .error e) (attempts : Nat) :
    randomMinimalBounded states inputs outputs (attempts + 1) g =
      .ok (.error e, (random states inputs outputs g).2) := by
  rw [randomMinimalBounded, randomBounded_of_fits fits, random_of_draw h]
  rfl

theorem randomMinimalBounded_of_ok (fits : TableFits (states * inputs) transitionWidth)
    (h : draw states inputs outputs g 0 = .ok M) (attempts : Nat) :
    randomMinimalBounded states inputs outputs (attempts + 1) g =
      (M.isConnectedMinimalBounded.mapError StorageFault.overflow) >>= fun accepted =>
        if accepted then .ok (.ok (some M), (random states inputs outputs g).2)
        else randomMinimalBounded states inputs outputs attempts
          (random states inputs outputs g).2 := by
  rw [randomMinimalBounded, randomBounded_of_fits fits, random_of_draw h]
  rfl

/-- A draft that can be counted but does not fit is refused. -/
theorem randomMinimalBounded_of_large (countable : states * inputs < UInt64.size)
    (large : ¬ TableFits (states * inputs) transitionWidth) (tried : 0 < attempts)
    (g : Generator) : randomMinimalBounded states inputs outputs attempts g =
      .error (.overflow ⟨states * inputs, transitionWidth⟩) := by
  obtain ⟨attempts, rfl⟩ := Nat.exists_eq_succ_of_ne_zero tried.ne'
  rw [randomMinimalBounded, randomBounded, StoredDraft.empty, Nat.mod_eq_of_lt countable,
    requireTable_of_not_fits large]
  rfl

/-- Marks that do not fit are refused. Then there are no inputs, so a machine is drawn before. -/
theorem randomMinimalBounded_of_many (fits : TableFits (states * inputs) transitionWidth)
    (large : ¬ TableFits states markWidth) (tried : 0 < attempts) (g : Generator) :
    randomMinimalBounded states inputs outputs attempts g =
      .error (.overflow ⟨states, markWidth⟩) := by
  obtain ⟨attempts, rfl⟩ := Nat.exists_eq_succ_of_ne_zero tried.ne'
  have hinputs : inputs = 0 := by
    by_contra hsome
    exact large (fits.mono (Nat.le_mul_of_pos_right states (Nat.pos_of_ne_zero hsome)) (by decide))
  have hstates : states ≠ 0 := by
    rintro rfl
    exact large (Nat.zero_le _)
  have fine : ∀ e, ¬ DrawFails states inputs outputs e := fun e fails => by cases fails <;> omega
  obtain ⟨M, hM, ⟨rfl, rfl, rfl, -⟩⟩ := exists_draw fine g 0
  rw [randomMinimalBounded_of_ok fits hM, isConnectedMinimalBounded, reachableStatesBounded,
    requireTable_bind_of_not_fits large]
  rfl

/-- If the draft and the marks fit, the limit makes a difference only to a search that overflows. -/
theorem randomMinimalBounded_of_fits (fits : TableFits (states * inputs) transitionWidth)
    (marks : TableFits states markWidth) :
    (¬ SearchOverflows states inputs outputs attempts g →
      randomMinimalBounded states inputs outputs attempts g =
        .ok (randomMinimal states inputs outputs attempts g)) ∧
    (SearchOverflows states inputs outputs attempts g →
      randomMinimalBounded states inputs outputs attempts g =
        .error (.overflow ⟨outputs, numberWidth⟩)) := by
  induction attempts generalizing g with
  | zero => exact ⟨fun _ => rfl, fun ⟨draws, lt, _⟩ => absurd lt (Nat.not_lt_zero draws)⟩
  | succ attempts ih =>
    by_cases fails : ∃ e, DrawFails states inputs outputs e
    · obtain ⟨e, fails⟩ := fails
      have hdraw := draw_of_fails fails g 0
      rw [randomMinimalBounded_of_error fits hdraw, randomMinimal_of_error hdraw]
      exact ⟨fun _ => rfl, fun overflows => absurd overflows (not_searchOverflows_of_fails fails)⟩
    · obtain ⟨M, hM, ⟨rfl, rfl, rfl, -⟩⟩ := exists_draw (not_exists.mp fails) g 0
      rw [searchOverflows_succ_iff hM, randomMinimalBounded_of_ok fits hM, randomMinimal_of_ok hM]
      by_cases overloads : M.Overloads
      · rw [isConnectedMinimalBounded_of_overloads overloads fits]
        exact ⟨fun h => absurd (.inl overloads) h, fun _ => rfl⟩
      · rw [isConnectedMinimalBounded_of_not_overloads overloads fits marks,
          or_iff_right overloads]
        by_cases qualifies : M.Qualifies
        · have accepted := isConnectedMinimal_iff.mpr qualifies
          rw [accepted]
          exact ⟨fun _ => rfl, fun h => absurd qualifies h.1⟩
        · have rejected : M.isConnectedMinimal = false :=
            Bool.eq_false_iff.mpr (isConnectedMinimal_iff.not.mpr qualifies)
          rw [rejected, and_iff_right qualifies]
          exact ih

/-- A search within the limit. If the draft and the marks of a search fit, it fails exactly if it
draws a machine without states or with transitions but no outputs, and it ends with the first
machine that qualifies and the generator right after that draw, or without one after all attempts.
A machine that is found has the given numbers. The search ends early only if a machine before that
is connected but needs a table of outputs that exceeds the limit. A draft that can be counted but
does not fit is refused before anything is drawn, and marks that do not fit after the first draw. -/
theorem randomMinimalBounded_spec (states inputs outputs attempts : Nat) (g : Generator) :
    (attempts = 0 ∨ TableFits (states * inputs) transitionWidth ∧ TableFits states markWidth →
      (SearchOverflows states inputs outputs attempts g → ¬ TableFits outputs numberWidth ∧
        randomMinimalBounded states inputs outputs attempts g =
          .error (.overflow ⟨outputs, numberWidth⟩)) ∧
      (¬ SearchOverflows states inputs outputs attempts g →
        ∃ r, randomMinimalBounded states inputs outputs attempts g = .ok r ∧
          (∀ r', Sampled states inputs outputs attempts g r' ↔ r' = r) ∧
          ((∃ e, r.1 = .error e) ↔
            0 < attempts ∧ (states = 0 ∨ 0 < states ∧ 0 < inputs ∧ outputs = 0)) ∧
          ∀ M, r.1 = .ok (some M) →
            M.stateCount = states ∧ M.inputCount = inputs ∧ M.outputCount = outputs)) ∧
    (0 < attempts → states * inputs < UInt64.size → ¬ TableFits (states * inputs) transitionWidth →
      randomMinimalBounded states inputs outputs attempts g =
        .error (.overflow ⟨states * inputs, transitionWidth⟩)) ∧
    (0 < attempts → TableFits (states * inputs) transitionWidth → ¬ TableFits states markWidth →
      randomMinimalBounded states inputs outputs attempts g =
        .error (.overflow ⟨states, markWidth⟩)) := by
  refine ⟨fun hfits => ⟨fun overflows => ⟨overflows.not_fits, ?_⟩, fun hno => ?_⟩,
    fun tried countable large => ?_, fun tried fits large => ?_⟩
  · rcases hfits with rfl | ⟨fits, marks⟩
    · obtain ⟨draws, lt, -⟩ := overflows
      exact absurd lt (Nat.not_lt_zero draws)
    · exact (randomMinimalBounded_of_fits fits marks).2 overflows
  · have hrun : randomMinimalBounded states inputs outputs attempts g =
        .ok (randomMinimal states inputs outputs attempts g) := by
      rcases hfits with rfl | ⟨fits, marks⟩
      · rfl
      · exact (randomMinimalBounded_of_fits fits marks).1 hno
    have sampled := randomMinimal_eq_iff.mp
      (rfl : randomMinimal states inputs outputs attempts g = _)
    refine ⟨_, hrun, fun r' => randomMinimal_eq_iff.symm.trans eq_comm, ?_, fun M hM => ?_⟩
    · rw [sampled.exists_error_iff, exists_drawFails_iff]
    · obtain ⟨draws, hdraw⟩ := sampled.exists_draw hM
      exact counts_of_draw hdraw
  · exact randomMinimalBounded_of_large countable large tried g
  · exact randomMinimalBounded_of_many fits large tried g

end Search

/-- A machine that qualifies can have too many outputs for a table, so that it is not found. -/
theorem randomMinimalBounded_overflows :
    ∃ M, Sampled 2 1 2305843009213693952 1 (ofSeed 2) (.ok (some M),
        generatorAfter 2 1 2305843009213693952 (ofSeed 2) 1) ∧
      randomMinimalBounded 2 1 2305843009213693952 1 (ofSeed 2) =
        .error (.overflow ⟨2305843009213693952, 8⟩) := by
  have hedges : drawnEdges 2 1 2305843009213693952 (ofSeed 2) =
      [⟨.first, .first, ⟨467088508303903569⟩, ⟨1⟩⟩,
        ⟨⟨1⟩, .first, ⟨1673120651938108457⟩, .first⟩] := by
    decide +kernel
  have fine : ∀ e, ¬ DrawFails 2 1 2305843009213693952 e := fun e fails => by
    cases fails <;> omega
  obtain ⟨M, hM, realizes⟩ := exists_draw fine (ofSeed 2) 0
  have fit : FitTogether 2 1 2305843009213693952
      (drawnEdges 2 1 2305843009213693952 (ofSeed 2)) :=
    fitTogether_drawnEdges fun _ _ => by decide
  rw [generatorAfter, hedges] at realizes
  rw [hedges] at fit
  have hfirst : .first ∈ M.states := M.first_mem_states
  have hsecond : ⟨1⟩ ∈ M.states := mem_states.mpr (by rw [realizes.stateCount_eq]; decide)
  have hinput : .first ∈ M.inputs := mem_inputs.mpr (by rw [realizes.inputCount_eq]; decide)
  have htransition : M.transition .first .first = ⟨⟨1⟩, ⟨467088508303903569⟩⟩ :=
    realizes.transition_of_mem fit (.head _)
  have htransition' : M.transition ⟨1⟩ .first = ⟨.first, ⟨1673120651938108457⟩⟩ :=
    realizes.transition_of_mem fit (.tail _ (.head _))
  have houtput : M.output .first .first ≠ M.output ⟨1⟩ .first := by
    simp [output, htransition, htransition']
  have qualifies := qualifies_of_two_states realizes.stateCount_eq hinput
    (by rw [successor, htransition]) houtput
  have overloads : M.Overloads := by
    refine ⟨qualifies.connected, ?_, .first, hinput, fun hagree => ?_⟩
    · rw [realizes.outputCount_eq]
      decide
    · exact houtput (hagree .first hfirst ⟨1⟩ hsecond)
  refine ⟨M, .found (by decide) ((firstDraw_zero_iff hM).mpr ⟨rfl, qualifies⟩), ?_⟩
  exact (randomMinimalBounded_of_fits (by decide) (by decide)).2
    ⟨0, by decide, M, (firstDraw_zero_iff hM).mpr ⟨rfl, .inr overloads⟩, overloads⟩

end StateIdentification.Machine
