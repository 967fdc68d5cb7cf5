import Mathlib.Data.List.Nodup
import Mathlib.Data.List.ProdSigma
import StateIdentification.Proofs.DraftedMachine
import StateIdentification.Random.Machine

/-!
# Drawing random machines

Machines are drawn one after the other, and each draw goes on with the generator that the draw
before it left. One edge is drawn for each state and input, so the edges fit together and leave no
gap. Whether a draw fails depends on the requested numbers alone.

## Main definitions

- `Machine.DrawFails`: the numbers for which no machine can be drawn.
- `Machine.generatorAfter`, `Machine.draw`: the generator after some draws, and what is drawn then.
- `Machine.drawnEdges`: the edges of a machine that is drawn.
- `Machine.NoneDrawn`, `Machine.FirstDraw`: no machine drawn so far has a property, and the first
  one that has it.

## Main results

- `Machine.draw_of_fails`, `Machine.exists_draw`: what a draw gives.
- `Machine.noneDrawn_succ_iff`, `Machine.firstDraw_succ_iff`: what is left of a series after its
  first draw.
-/

namespace StateIdentification.Machine

open RandomSource

/-- No machine with the given numbers can be drawn. -/
inductive DrawFails (states inputs outputs : Nat) : MachineError → Prop
  | noStates (empty : states = 0) : DrawFails states inputs outputs .noStates
  | noOutputs (states_pos : 0 < states) (inputs_pos : 0 < inputs) (silent : outputs = 0) :
    DrawFails states inputs outputs (.indexOutOfRange .output 0 0)

variable {states inputs : Nat}

theorem slots_eq (states inputs : Nat) :
    slots states inputs = Handle.range states ×ˢ Handle.range inputs :=
  rfl

theorem mem_slots {s : State} {i : Input} :
    (s, i) ∈ slots states inputs ↔ s.index < states ∧ i.index < inputs := by
  rw [slots_eq, List.mem_product, Handle.mem_range, Handle.mem_range]

theorem nodup_slots (states inputs : Nat) : (slots states inputs).Nodup :=
  (Handle.nodup_range states).product (Handle.nodup_range inputs)

variable [RandomSource]

/-- The generator after a number of draws. -/
def generatorAfter (states inputs outputs : Nat) (g : Generator) : Nat → Generator
  | 0 => g
  | draws + 1 => generatorAfter states inputs outputs (random states inputs outputs g).2 draws

/-- What is drawn after a number of other draws. -/
def draw (states inputs outputs : Nat) (g : Generator) (draws : Nat) :
    Except MachineError Machine :=
  (random states inputs outputs (generatorAfter states inputs outputs g draws)).1

/-- The edges of the next machine that is drawn. -/
def drawnEdges (states inputs outputs : Nat) (g : Generator) : List Edge :=
  (drawEdges states outputs (slots states inputs) g).1

/-- A number of machines are drawn, and none of them has a property. -/
def NoneDrawn (P : Machine → Prop) (states inputs outputs : Nat) (g : Generator) (draws : Nat) :
    Prop :=
  ∀ n < draws, ∃ M, draw states inputs outputs g n = .ok M ∧ ¬ P M

/-- Machine `M` is drawn after a number of other draws, and it is the first one with a property. -/
structure FirstDraw (P : Machine → Prop) (states inputs outputs : Nat) (g : Generator) (draws : Nat)
    (M : Machine) : Prop where
  drawn : draw states inputs outputs g draws = .ok M
  holds : P M
  earlier : NoneDrawn P states inputs outputs g draws

variable {M N : Machine} {outputs draws : Nat} {g : Generator} {e : MachineError}
  {P : Machine → Prop}

theorem random_eq (states inputs outputs : Nat) (g : Generator) :
    (random states inputs outputs g).1 =
      ofEdges states inputs outputs (drawnEdges states inputs outputs g) :=
  rfl

theorem drawEdges_cons (states outputs : Nat) (slot : State × Input) (slots : List (State × Input))
    (g : Generator) :
    (drawEdges states outputs (slot :: slots) g).1 =
      ⟨slot.1, slot.2, ⟨(below g (max outputs 1)).1⟩,
        ⟨(below (below g (max outputs 1)).2 (max states 1)).1⟩⟩ ::
      (drawEdges states outputs slots (below (below g (max outputs 1)).2 (max states 1)).2).1 :=
  rfl

/-- One edge is drawn for each slot. -/
theorem map_drawEdges (states outputs : Nat) (slots : List (State × Input)) (g : Generator) :
    (drawEdges states outputs slots g).1.map (fun d => (d.source, d.input)) = slots := by
  induction slots generalizing g with
  | nil => rfl
  | cons slot slots ih => exact congrArg (slot :: ·) (ih _)

/-- Drawn outputs and targets are below their numbers, or zero. -/
theorem lt_of_mem_drawEdges {slots : List (State × Input)} {d : Edge}
    (h : d ∈ (drawEdges states outputs slots g).1) :
    d.output.index < max outputs 1 ∧ d.target.index < max states 1 := by
  -- said of any two numbers, so that nothing runs the generator to compare what it draws
  have edge {slot : State × Input} {output target : Nat} (houtput : output < max outputs 1)
      (htarget : target < max states 1) (heq : d = ⟨slot.1, slot.2, ⟨output⟩, ⟨target⟩⟩) :
      d.output.index < max outputs 1 ∧ d.target.index < max states 1 := by
    subst heq
    exact ⟨houtput, htarget⟩
  induction slots generalizing g with
  | nil => cases h
  | cons slot slots ih =>
    rw [drawEdges_cons] at h
    rcases List.mem_cons.mp h with heq | h
    · exact edge (below_lt _ (by omega)) (below_lt _ (by omega)) heq
    · exact ih h

/-- There is a drawn edge exactly for the states and inputs of the machine. -/
theorem exists_drawnEdge_iff {s : State} {i : Input} :
    (∃ d ∈ drawnEdges states inputs outputs g, d.source = s ∧ d.input = i) ↔
      s.index < states ∧ i.index < inputs := by
  rw [← mem_slots, ← map_drawEdges states outputs (slots states inputs) g, List.mem_map]
  simp only [Prod.ext_iff, drawnEdges]

/-- Different drawn edges are for different states or inputs. -/
theorem drawnEdges_inj {d d' : Edge} (hd : d ∈ drawnEdges states inputs outputs g)
    (hd' : d' ∈ drawnEdges states inputs outputs g) (hs : d.source = d'.source)
    (hi : d.input = d'.input) : d = d' := by
  have hnodup := nodup_slots states inputs
  rw [← map_drawEdges states outputs (slots states inputs) g] at hnodup
  exact List.inj_on_of_nodup_map hnodup hd hd' (Prod.ext hs hi)

theorem fitTogether_drawnEdges (houtputs : 0 < states → 0 < inputs → 0 < outputs) :
    FitTogether states inputs outputs (drawnEdges states inputs outputs g) where
  inRange d hd := by
    obtain ⟨hsource, hinput⟩ := exists_drawnEdge_iff.mp ⟨d, hd, rfl, rfl⟩
    obtain ⟨houtput, htarget⟩ := lt_of_mem_drawEdges hd
    have hpos := houtputs (by omega) (by omega)
    exact ⟨hsource, hinput, by omega, by omega⟩
  consistent d hd d' hd' hconflict := by
    have hsame := drawnEdges_inj hd hd' hconflict.source_eq hconflict.input_eq
    exact Edge.not_conflicts_self (hsame ▸ hconflict)

theorem not_firstGap_drawnEdges {s : State} {i : Input} :
    ¬ FirstGap states inputs (drawnEdges states inputs outputs g) s i := by
  intro gap
  obtain ⟨d, hd, hplace⟩ := exists_drawnEdge_iff.mpr ⟨gap.state_lt, gap.input_lt⟩
  exact gap.missing d hd hplace

/-- For numbers without a machine, every draw ends with the same error. -/
theorem draw_of_fails (fails : DrawFails states inputs outputs e) (g : Generator) (draws : Nat) :
    draw states inputs outputs g draws = .error e := by
  rw [draw, random_eq, ofEdges_eq_iff]
  generalize generatorAfter states inputs outputs g draws = g
  cases fails with
  | noStates empty => exact .noStates (fitTogether_drawnEdges fun hpos _ => by omega) empty
  | noOutputs states_pos inputs_pos silent =>
    -- the first edge that is drawn has output 0, and that is one too many
    subst silent
    have hfirst : ∃ d ∈ drawnEdges states inputs 0 g, d.source = .first ∧ d.input = .first :=
      exists_drawnEdge_iff.mpr ⟨states_pos, inputs_pos⟩
    obtain ⟨_, hmem, -⟩ := hfirst
    obtain ⟨d, later, hes⟩ := List.exists_cons_of_ne_nil (List.ne_nil_of_mem hmem)
    have hd : d ∈ drawnEdges states inputs 0 g := hes ▸ .head later
    obtain ⟨hsource, hinput⟩ := exists_drawnEdge_iff.mp ⟨d, hd, rfl, rfl⟩
    have hzero : d.output.index = 0 := Nat.lt_one_iff.mp (lt_of_mem_drawEdges hd).1
    have offends : d.Offends states inputs 0 [] (.indexOutOfRange .output d.output.index 0) :=
      .output hsource hinput (Nat.zero_le _)
    exact .offence (hes.trans (List.nil_append _).symm) ⟨by simp, by simp⟩ (hzero ▸ offends)

/-- Otherwise every draw gives a machine with the given numbers and the drawn edges. -/
theorem exists_draw (h : ∀ e, ¬ DrawFails states inputs outputs e) (g : Generator) (draws : Nat) :
    ∃ M, draw states inputs outputs g draws = .ok M ∧
      M.Realizes states inputs outputs
        (drawnEdges states inputs outputs (generatorAfter states inputs outputs g draws)) := by
  rw [draw, random_eq]
  generalize generatorAfter states inputs outputs g draws = g
  have hstates : 0 < states := Nat.pos_of_ne_zero fun hzero => h _ (.noStates hzero)
  have fit : FitTogether states inputs outputs (drawnEdges states inputs outputs g) :=
    fitTogether_drawnEdges fun _ hinputs =>
      Nat.pos_of_ne_zero fun hzero => h _ (.noOutputs hstates hinputs hzero)
  have built := built_ofEdges states inputs outputs (drawnEdges states inputs outputs g)
  generalize ofEdges states inputs outputs (drawnEdges states inputs outputs g) = r at built
  cases built with
  | offence split _ offends => exact absurd (split ▸ fit) offends.not_fitTogether
  | noStates _ none => omega
  | gap _ _ first => exact absurd first not_firstGap_drawnEdges
  | @machine M _ _ realizes => exact ⟨M, rfl, realizes⟩

theorem not_fails_of_draw (h : draw states inputs outputs g draws = .ok M) :
    ¬ DrawFails states inputs outputs e := fun fails =>
  nomatch (draw_of_fails fails g draws).symm.trans h

/-- A machine that is drawn has the given numbers. -/
theorem counts_of_draw (h : draw states inputs outputs g draws = .ok M) :
    M.stateCount = states ∧ M.inputCount = inputs ∧ M.outputCount = outputs := by
  obtain ⟨N, hN, realizes⟩ := exists_draw (fun _ => not_fails_of_draw h) g draws
  obtain rfl : M = N := Except.ok.inj (h.symm.trans hN)
  exact ⟨realizes.stateCount_eq, realizes.inputCount_eq, realizes.outputCount_eq⟩

/-- No machine has the property if the next one has not and none after it has. -/
theorem noneDrawn_succ_iff (h : draw states inputs outputs g 0 = .ok N) :
    NoneDrawn P states inputs outputs g (draws + 1) ↔
      ¬ P N ∧ NoneDrawn P states inputs outputs (random states inputs outputs g).2 draws := by
  constructor
  · intro rejected
    obtain ⟨L, hL, hno⟩ := rejected 0 (Nat.succ_pos _)
    obtain rfl : N = L := Except.ok.inj (h.symm.trans hL)
    exact ⟨hno, fun n hn => rejected (n + 1) (Nat.succ_lt_succ hn)⟩
  · rintro ⟨hno, rejected⟩ n hn
    cases n with
    | zero => exact ⟨N, h, hno⟩
    | succ n => exact rejected n (Nat.lt_of_succ_lt_succ hn)

theorem firstDraw_zero_iff (h : draw states inputs outputs g 0 = .ok N) :
    FirstDraw P states inputs outputs g 0 M ↔ M = N ∧ P N := by
  constructor
  · intro first
    obtain rfl : M = N := Except.ok.inj (first.drawn.symm.trans h)
    exact ⟨rfl, first.holds⟩
  · rintro ⟨rfl, hM⟩
    exact ⟨h, hM, fun n hn => absurd hn (Nat.not_lt_zero n)⟩

/-- The first machine with the property comes later if the next one has not got it. -/
theorem firstDraw_succ_iff (h : draw states inputs outputs g 0 = .ok N) :
    FirstDraw P states inputs outputs g (draws + 1) M ↔
      ¬ P N ∧ FirstDraw P states inputs outputs (random states inputs outputs g).2 draws M := by
  constructor
  · intro first
    obtain ⟨hno, rejected⟩ := (noneDrawn_succ_iff h).mp first.earlier
    exact ⟨hno, first.drawn, first.holds, rejected⟩
  · rintro ⟨hno, first⟩
    exact ⟨first.drawn, first.holds, (noneDrawn_succ_iff h).mpr ⟨hno, first.earlier⟩⟩

end StateIdentification.Machine
