import StateIdentification.Machine.Draft

/-!
# Which machine a list of edges makes

Edges are added to a draft one after the other. As long as they fit together, the draft holds
exactly the edges that were added, in whatever order and however often. The first edge that does not
fit settles the outcome; if there is none, the first gap does; and if there is no gap either, the
draft is a machine.

## Main definitions

- `Edge.Offends`: what is wrong with an edge after earlier ones.
- `FitTogether`: no edge of a list offends.
- `FirstGap`: the first state and input without an edge.
- `Machine.Realizes`: a machine whose transitions are the edges of a list.
- `Built`: the outcome for a list of edges.
- `Draft.Holds`: the edges that a draft holds.

## Main results

- `Draft.Holds.insertAll`: edges are added to a draft up to the first one that offends.
- `Draft.Holds.finish`: what becomes of a draft.
- `Machine.ofEdges_eq_iff`: what a list of edges makes.
-/

namespace StateIdentification

namespace Edge

/-- The numbers of an edge are in range. -/
structure InRange (states inputs outputs : Nat) (e : Edge) : Prop where
  source_lt : e.source.index < states
  input_lt : e.input.index < inputs
  output_lt : e.output.index < outputs
  target_lt : e.target.index < states

/-- Two edges give the same state and input a different output or target. -/
structure Conflicts (d e : Edge) : Prop where
  source_eq : d.source = e.source
  input_eq : d.input = e.input
  differ : d.output ≠ e.output ∨ d.target ≠ e.target

/-- What is wrong with an edge after earlier ones. Of its numbers the first one that is out of range
counts, in the order source, input, output, target. An edge with all numbers in range is wrong if an
earlier edge conflicts with it. -/
inductive Offends (states inputs outputs : Nat) (earlier : List Edge) (e : Edge) :
    MachineError → Prop
  | source (out : states ≤ e.source.index) :
    Offends states inputs outputs earlier e (.indexOutOfRange .state e.source.index states)
  | input (source_lt : e.source.index < states) (out : inputs ≤ e.input.index) :
    Offends states inputs outputs earlier e (.indexOutOfRange .input e.input.index inputs)
  | output (source_lt : e.source.index < states) (input_lt : e.input.index < inputs)
      (out : outputs ≤ e.output.index) :
    Offends states inputs outputs earlier e (.indexOutOfRange .output e.output.index outputs)
  | target (source_lt : e.source.index < states) (input_lt : e.input.index < inputs)
      (output_lt : e.output.index < outputs) (out : states ≤ e.target.index) :
    Offends states inputs outputs earlier e (.indexOutOfRange .state e.target.index states)
  | conflict {d : Edge} (inRange : e.InRange states inputs outputs) (mem : d ∈ earlier)
      (conflicts : d.Conflicts e) :
    Offends states inputs outputs earlier e (.nonDeterministic e.source e.input)

end Edge

/-- All edges of a list are in range, and no two of them conflict. -/
structure FitTogether (states inputs outputs : Nat) (es : List Edge) : Prop where
  inRange : ∀ e ∈ es, e.InRange states inputs outputs
  consistent : ∀ d ∈ es, ∀ e ∈ es, ¬ d.Conflicts e

/-- A state and an input have no edge, but all pairs before them have one. The pairs are in the
order of states, then inputs. -/
structure FirstGap (states inputs : Nat) (es : List Edge) (s : State) (i : Input) : Prop where
  state_lt : s.index < states
  input_lt : i.index < inputs
  missing : ∀ e ∈ es, ¬ (e.source = s ∧ e.input = i)
  before : ∀ (r : State) (j : Input), r.index < states → j.index < inputs →
    r < s ∨ r = s ∧ j < i → ∃ e ∈ es, e.source = r ∧ e.input = j

/-- The machine has the given numbers of states, inputs and outputs, and its transitions are edges
of the list. -/
structure Machine.Realizes (M : Machine) (states inputs outputs : Nat) (es : List Edge) : Prop where
  stateCount_eq : M.stateCount = states
  inputCount_eq : M.inputCount = inputs
  outputCount_eq : M.outputCount = outputs
  transition_eq : ∀ s ∈ M.states, ∀ i ∈ M.inputs,
    ∃ e ∈ es, e.source = s ∧ e.input = i ∧ M.transition s i = ⟨e.target, e.output⟩

/-- The outcome for a list of edges: what is wrong with the first edge that offends, failing that
the lack of states, failing that the first gap, and otherwise a machine. -/
inductive Built (states inputs outputs : Nat) (es : List Edge) : Except MachineError Machine → Prop
  | offence {earlier later : List Edge} {e : Edge} {error : MachineError}
      (split : es = earlier ++ e :: later) (fit : FitTogether states inputs outputs earlier)
      (offends : e.Offends states inputs outputs earlier error) :
    Built states inputs outputs es (.error error)
  | noStates (fit : FitTogether states inputs outputs es) (none : states = 0) :
    Built states inputs outputs es (.error .noStates)
  | gap {s : State} {i : Input} (fit : FitTogether states inputs outputs es) (pos : 0 < states)
      (first : FirstGap states inputs es s i) :
    Built states inputs outputs es (.error (.incomplete s i))
  | machine {M : Machine} (fit : FitTogether states inputs outputs es) (pos : 0 < states)
      (realizes : M.Realizes states inputs outputs es) :
    Built states inputs outputs es (.ok M)

/-- The edge that an entry of a table stands for. -/
def Cell.edge {states inputs outputs : Nat} (c : Cell states outputs) (s : Fin states)
    (i : Fin inputs) : Edge :=
  ⟨⟨s⟩, ⟨i⟩, ⟨c.output⟩, ⟨c.target⟩⟩

/-- The edges fit together, and they are what is in the draft. -/
structure Draft.Holds {states inputs outputs : Nat} (d : Draft states inputs outputs)
    (es : List Edge) : Prop where
  fit : FitTogether states inputs outputs es
  get_eq_some : ∀ s i c, d.table.get s i = some c ↔ c.edge s i ∈ es

variable {states inputs outputs : Nat} {es es' done earlier later : List Edge} {e : Edge}
  {error : MachineError} {M N : Machine} {s r : State} {i j : Input}

namespace Edge

theorem InRange.exists_edge (h : e.InRange states inputs outputs) :
    ∃ (s : Fin states) (i : Fin inputs) (c : Cell states outputs), e = c.edge s i :=
  ⟨⟨_, h.source_lt⟩, ⟨_, h.input_lt⟩, ⟨⟨_, h.target_lt⟩, ⟨_, h.output_lt⟩⟩, rfl⟩

theorem edge_inj {s t : Fin states} {i j : Fin inputs} {b c : Cell states outputs} :
    b.edge s i = c.edge t j ↔ s = t ∧ i = j ∧ b = c := by
  simp [Cell.edge, Cell.ext_iff, Fin.ext_iff, and_comm]

/-- Edges conflict if they are in the same place but stand for different entries. -/
theorem edge_conflicts_iff {s t : Fin states} {i j : Fin inputs} {b c : Cell states outputs} :
    (b.edge s i).Conflicts (c.edge t j) ↔ s = t ∧ i = j ∧ b ≠ c := by
  have hdiffer : (b.edge s i).output ≠ (c.edge t j).output ∨
      (b.edge s i).target ≠ (c.edge t j).target ↔ b ≠ c := by
    simp only [Cell.edge, Cell.ext_iff, Fin.ext_iff, Handle.ext_iff, ne_eq]
    omega
  constructor
  · rintro ⟨hs, hi, hne⟩
    exact ⟨Fin.ext (congrArg Handle.index hs), Fin.ext (congrArg Handle.index hi), hdiffer.mp hne⟩
  · rintro ⟨rfl, rfl, hne⟩
    exact ⟨rfl, rfl, hdiffer.mpr hne⟩

theorem Conflicts.symm {d : Edge} (h : d.Conflicts e) : e.Conflicts d :=
  ⟨h.source_eq.symm, h.input_eq.symm, h.differ.imp Ne.symm Ne.symm⟩

theorem not_conflicts_self : ¬ e.Conflicts e := fun h => h.differ.elim (· rfl) (· rfl)

theorem inRange_of_not_offends (h : ∀ error, ¬ e.Offends states inputs outputs earlier error) :
    e.InRange states inputs outputs := by
  have hs := Nat.lt_of_not_le fun out => h _ (.source out)
  have hi := Nat.lt_of_not_le fun out => h _ (.input hs out)
  have ho := Nat.lt_of_not_le fun out => h _ (.output hs hi out)
  exact ⟨hs, hi, ho, Nat.lt_of_not_le fun out => h _ (.target hs hi ho out)⟩

/-- No edge offends among edges that fit together. -/
theorem Offends.not_fitTogether (h : e.Offends states inputs outputs earlier error) :
    ¬ FitTogether states inputs outputs (earlier ++ e :: later) := by
  intro fit
  have hrange := fit.inRange e (by simp)
  cases h with
  | source out => exact Nat.not_lt_of_le out hrange.source_lt
  | input _ out => exact Nat.not_lt_of_le out hrange.input_lt
  | output _ _ out => exact Nat.not_lt_of_le out hrange.output_lt
  | target _ _ _ out => exact Nat.not_lt_of_le out hrange.target_lt
  | conflict _ mem conflicts => exact fit.consistent _ (by simp [mem]) e (by simp) conflicts

end Edge

theorem FitTogether.congr (h : FitTogether states inputs outputs es)
    (hmem : ∀ e, e ∈ es' ↔ e ∈ es) : FitTogether states inputs outputs es' where
  inRange e he := h.inRange e ((hmem e).mp he)
  consistent d hd e he := h.consistent d ((hmem d).mp hd) e ((hmem e).mp he)

/-- An edge that does not offend fits to the earlier ones. -/
theorem FitTogether.append (h : FitTogether states inputs outputs es)
    (he : ∀ error, ¬ e.Offends states inputs outputs es error) :
    FitTogether states inputs outputs (es ++ [e]) := by
  have hrange := Edge.inRange_of_not_offends he
  have hnew (d : Edge) (hd : d ∈ es) : ¬ d.Conflicts e := fun hc => he _ (.conflict hrange hd hc)
  refine ⟨?_, ?_⟩
  · simpa [or_imp, forall_and] using ⟨h.inRange, hrange⟩
  · intro a ha b hb hc
    rw [List.mem_append, List.mem_singleton] at ha hb
    obtain ha | rfl := ha <;> obtain hb | rfl := hb
    · exact h.consistent a ha b hb hc
    · exact hnew a ha hc
    · exact hnew b hb hc.symm
    · exact Edge.not_conflicts_self hc

/-- There is only one first gap. -/
theorem FirstGap.unique (h : FirstGap states inputs es s i) (g : FirstGap states inputs es r j) :
    s = r ∧ i = j := by
  -- the earlier one of two gaps would have an edge
  have not_before {s r : State} {i j : Input} (h : FirstGap states inputs es s i)
      (g : FirstGap states inputs es r j) : ¬ (s < r ∨ s = r ∧ i < j) := by
    intro hlt
    obtain ⟨e, he, hplace⟩ := g.before s i h.state_lt h.input_lt hlt
    exact h.missing e he hplace
  have hfirst := not_before h g
  have hsecond := not_before g h
  simp only [Handle.lt_def, Handle.ext_iff] at hfirst hsecond ⊢
  omega

namespace Machine.Realizes

theorem congr (h : M.Realizes states inputs outputs es) (hmem : ∀ e, e ∈ es' ↔ e ∈ es) :
    M.Realizes states inputs outputs es' where
  stateCount_eq := h.stateCount_eq
  inputCount_eq := h.inputCount_eq
  outputCount_eq := h.outputCount_eq
  transition_eq s hs i hi := by
    obtain ⟨e, he, hplace⟩ := h.transition_eq s hs i hi
    exact ⟨e, (hmem e).mpr he, hplace⟩

/-- A machine has no gap. -/
theorem not_firstGap (h : M.Realizes states inputs outputs es) :
    ¬ FirstGap states inputs es s i := by
  intro gap
  obtain ⟨e, he, hs, hi, -⟩ := h.transition_eq s (mem_states.mpr (h.stateCount_eq ▸ gap.state_lt)) i
    (mem_inputs.mpr (h.inputCount_eq ▸ gap.input_lt))
  exact gap.missing e he ⟨hs, hi⟩

/-- Among edges that fit together, each one is a transition of the machine. -/
theorem transition_of_mem (h : M.Realizes states inputs outputs es)
    (fit : FitTogether states inputs outputs es) (he : e ∈ es) :
    M.transition e.source e.input = ⟨e.target, e.output⟩ := by
  have hrange := fit.inRange e he
  obtain ⟨d, hd, hs, hi, heq⟩ := h.transition_eq e.source
    (mem_states.mpr (h.stateCount_eq ▸ hrange.source_lt)) e.input
    (mem_inputs.mpr (h.inputCount_eq ▸ hrange.input_lt))
  have hsame (hne : d.output ≠ e.output ∨ d.target ≠ e.target) : False :=
    fit.consistent d hd e he ⟨hs, hi, hne⟩
  have houtput : d.output = e.output := Decidable.of_not_not fun hne => hsame (.inl hne)
  have htarget : d.target = e.target := Decidable.of_not_not fun hne => hsame (.inr hne)
  rw [heq, houtput, htarget]

/-- Edges that fit together are realized by one machine only. -/
theorem unique (h : M.Realizes states inputs outputs es) (g : N.Realizes states inputs outputs es)
    (fit : FitTogether states inputs outputs es) : M = N := by
  refine eq_of_entries_eq (h.stateCount_eq.trans g.stateCount_eq.symm)
    (h.inputCount_eq.trans g.inputCount_eq.symm) (h.outputCount_eq.trans g.outputCount_eq.symm) ?_
  intro s hs i hi
  obtain ⟨e, he, rfl, rfl, heq⟩ := h.transition_eq s hs i hi
  rw [successor, successor, output, output, heq, g.transition_of_mem fit he]
  exact ⟨rfl, rfl⟩

end Machine.Realizes

namespace Draft

variable {d : Draft states inputs outputs}

theorem holds_empty : (empty states inputs outputs).Holds [] where
  fit := ⟨by simp, by simp⟩
  get_eq_some := by simp [empty]

theorem insert_of_get_eq_none {s : Fin states} {i : Fin inputs} (c : Cell states outputs)
    (h : d.table.get s i = none) : d.insert (c.edge s i) = .ok ⟨d.table.set s i (some c)⟩ := by
  simp [insert, Cell.edge, h]

theorem insert_of_get_eq_some {s : Fin states} {i : Fin inputs} {b : Cell states outputs}
    (c : Cell states outputs) (h : d.table.get s i = some b) :
    d.insert (c.edge s i) = if b = c then .ok d else .error (.nonDeterministic ⟨s⟩ ⟨i⟩) := by
  obtain ⟨target, output⟩ := c
  by_cases hsame : b = ⟨target, output⟩ <;> simp [insert, Cell.edge, h, hsame]

theorem finish_of_pos (pos : 0 < states) :
    d.finish = (do
      let table ← Grid.ofFnM fun s i =>
        (d.table.get s i).elim (.error (.incomplete ⟨s⟩ ⟨i⟩)) .ok
      return ⟨states, inputs, outputs, table, pos⟩) := by
  rw [finish, dif_pos pos]
  congr 2
  funext s i
  cases d.table.get s i <;> rfl

/-- A draft has an entry for every state and input, or a first gap. -/
theorem finish_cases (d : Draft states inputs outputs) (pos : 0 < states) :
    (∃ g, d.finish = .ok ⟨states, inputs, outputs, g, pos⟩ ∧
        ∀ s i, d.table.get s i = some (g.get s i)) ∨
      ∃ (s : Fin states) (i : Fin inputs), d.finish = .error (.incomplete ⟨s⟩ ⟨i⟩) ∧
        d.table.get s i = none ∧
        ∀ (r : Fin states) j, r < s ∨ r = s ∧ j < i → ∃ c, d.table.get r j = some c := by
  let entry (s : Fin states) (i : Fin inputs) : Except MachineError (Cell states outputs) :=
    (d.table.get s i).elim (.error (.incomplete ⟨s⟩ ⟨i⟩)) .ok
  have some_of_entry {s : Fin states} {i : Fin inputs} {c : Cell states outputs}
      (h : entry s i = .ok c) : d.table.get s i = some c := by
    cases hget : d.table.get s i with
    | none => simp [entry, hget] at h
    | some b => simpa [entry, hget] using h
  rw [finish_of_pos pos]
  obtain ⟨g, hg, hall⟩ | ⟨s, i, error, herror, hgap, hbefore⟩ := Grid.ofFnM_cases entry
  · refine .inl ⟨g, ?_, fun s i => some_of_entry (hall s i)⟩
    rw [hg]
    rfl
  · cases hget : d.table.get s i with
    | some c => simp [entry, hget] at hgap
    | none =>
      obtain rfl : MachineError.incomplete ⟨s⟩ ⟨i⟩ = error := by simpa [entry, hget] using hgap
      refine .inr ⟨s, i, ?_, hget, fun r j hlt => ?_⟩
      · rw [herror]
        rfl
      · obtain ⟨c, hc⟩ := hbefore r j hlt
        exact ⟨c, some_of_entry hc⟩

namespace Holds

/-- An edge that offends is refused. -/
theorem insert_of_offends (h : d.Holds es) (he : e.Offends states inputs outputs es error) :
    d.insert e = .error error := by
  cases he with
  | source out => simp [insert, Nat.not_lt_of_le out]
  | input hs out => simp [insert, hs, Nat.not_lt_of_le out]
  | output hs hi out => simp [insert, hs, hi, Nat.not_lt_of_le out]
  | target hs hi ho out => simp [insert, hs, hi, ho, Nat.not_lt_of_le out]
  | conflict inRange mem conflicts =>
    obtain ⟨s, i, c, rfl⟩ := inRange.exists_edge
    obtain ⟨t, j, b, rfl⟩ := (h.fit.inRange _ mem).exists_edge
    obtain ⟨rfl, rfl, hne⟩ := Edge.edge_conflicts_iff.mp conflicts
    rw [insert_of_get_eq_some c ((h.get_eq_some t j b).mpr mem), if_neg hne]
    rfl

/-- Any other edge is added. -/
theorem insert_of_not_offends (h : d.Holds es)
    (he : ∀ error, ¬ e.Offends states inputs outputs es error) :
    ∃ d', d.insert e = .ok d' ∧ d'.Holds (es ++ [e]) := by
  have hfit := h.fit.append he
  obtain ⟨s, i, c, rfl⟩ := (Edge.inRange_of_not_offends he).exists_edge
  cases hget : d.table.get s i with
  | none =>
    refine ⟨_, insert_of_get_eq_none c hget, hfit, fun t j b => ?_⟩
    rw [Grid.get_set, List.mem_append, List.mem_singleton, Edge.edge_inj, ← h.get_eq_some]
    split
    next hplace =>
      obtain ⟨rfl, rfl⟩ := hplace
      simp [hget, eq_comm]
    next hplace =>
      refine (or_iff_left ?_).symm
      exact fun heq => hplace ⟨heq.1.symm, heq.2.1.symm⟩
  | some present =>
    have hmem : present.edge s i ∈ es := (h.get_eq_some s i present).mp hget
    have hsame : present = c := Decidable.of_not_not fun hne =>
      he _ (.conflict (Edge.inRange_of_not_offends he) hmem
        (Edge.edge_conflicts_iff.mpr ⟨rfl, rfl, hne⟩))
    refine ⟨d, (insert_of_get_eq_some c hget).trans (if_pos hsame), hfit, fun t j b => ?_⟩
    rw [h.get_eq_some, List.mem_append, List.mem_singleton, ← hsame]
    exact (or_iff_left_of_imp fun heq => heq ▸ hmem).symm

/-- Edges are added up to the first one that offends. -/
theorem insertAll (h : d.Holds done) (es : List Edge) :
    (∃ d', d.insertAll es = .ok d' ∧ d'.Holds (done ++ es)) ∨
      ∃ earlier e later error, es = earlier ++ e :: later ∧
        FitTogether states inputs outputs (done ++ earlier) ∧
        e.Offends states inputs outputs (done ++ earlier) error ∧
        d.insertAll es = .error error := by
  induction es generalizing d done with
  | nil => exact .inl ⟨d, rfl, by simpa using h⟩
  | cons e es ih =>
    have hrun : d.insertAll (e :: es) = d.insert e >>= (·.insertAll es) := List.foldlM_cons
    rw [hrun]
    by_cases he : ∃ error, e.Offends states inputs outputs done error
    · obtain ⟨error, he⟩ := he
      rw [h.insert_of_offends he]
      exact .inr ⟨[], e, es, error, rfl, by simpa using h.fit, by simpa using he, rfl⟩
    · obtain ⟨d', hd', holds⟩ := h.insert_of_not_offends (not_exists.mp he)
      rw [hd']
      obtain ⟨d'', hrest, holds⟩ | ⟨earlier, x, later, error, rfl, fit, hx, hrest⟩ := ih holds
      · exact .inl ⟨d'', hrest, by simpa using holds⟩
      · exact .inr
          ⟨e :: earlier, x, later, error, rfl, by simpa using fit, by simpa using hx, hrest⟩

/-- The table of a machine in a draft without gaps. -/
theorem realizes (h : d.Holds es) (pos : 0 < states) {g : Grid (Cell states outputs) states inputs}
    (hg : ∀ s i, d.table.get s i = some (g.get s i)) :
    Machine.Realizes ⟨states, inputs, outputs, g, pos⟩ states inputs outputs es := by
  refine ⟨rfl, rfl, rfl, fun s hs i hi => ?_⟩
  obtain ⟨s, rfl⟩ := Machine.exists_fin hs
  obtain ⟨i, rfl⟩ := Machine.exists_fin_input hi
  refine ⟨_, (h.get_eq_some _ _ _).mp (hg s i), rfl, rfl, ?_⟩
  simp [Machine.transition, Machine.transition?, Cell.transition, Cell.edge]

theorem firstGap (h : d.Holds es) {s : Fin states} {i : Fin inputs}
    (hgap : d.table.get s i = none)
    (hbefore : ∀ r j, r < s ∨ r = s ∧ j < i → ∃ c, d.table.get r j = some c) :
    FirstGap states inputs es ⟨s⟩ ⟨i⟩ := by
  refine ⟨s.isLt, i.isLt, ?_, ?_⟩
  · rintro e he ⟨hs, hi⟩
    obtain ⟨t, j, c, rfl⟩ := (h.fit.inRange e he).exists_edge
    obtain rfl : t = s := Fin.ext (congrArg Handle.index hs)
    obtain rfl : j = i := Fin.ext (congrArg Handle.index hi)
    exact Option.some_ne_none c (((h.get_eq_some t j c).mpr he).symm.trans hgap)
  · intro r j hr hj hlt
    obtain ⟨c, hc⟩ := hbefore ⟨r.index, hr⟩ ⟨j.index, hj⟩
      (hlt.imp_right fun ⟨heq, hlt⟩ => ⟨Fin.ext (congrArg Handle.index heq), hlt⟩)
    exact ⟨_, (h.get_eq_some _ _ c).mp hc, rfl, rfl⟩

/-- A draft that holds the edges is finished unless there is a gap. -/
theorem finish (h : d.Holds es) (pos : 0 < states) :
    (∃ M, d.finish = .ok M ∧ M.Realizes states inputs outputs es) ∨
      ∃ s i, d.finish = .error (.incomplete s i) ∧ FirstGap states inputs es s i := by
  obtain ⟨g, hg, hall⟩ | ⟨s, i, herror, hgap, hbefore⟩ := d.finish_cases pos
  · exact .inl ⟨_, hg, h.realizes pos hall⟩
  · exact .inr ⟨_, _, herror, h.firstGap hgap hbefore⟩

end Holds

end Draft

namespace Machine

theorem built_ofEdges (states inputs outputs : Nat) (es : List Edge) :
    Built states inputs outputs es (ofEdges states inputs outputs es) := by
  obtain ⟨d, hd, holds⟩ | ⟨earlier, e, later, error, rfl, fit, he, herror⟩ :=
    Draft.holds_empty.insertAll es
  · have hrun : ofEdges states inputs outputs es = d.finish := by rw [ofEdges, hd]; rfl
    rw [hrun]
    rcases Nat.eq_zero_or_pos states with hzero | pos
    · have hnone : d.finish = .error .noStates := dif_neg (by omega)
      rw [hnone]
      exact .noStates holds.fit hzero
    · obtain ⟨M, hM, realizes⟩ | ⟨s, i, hgap, first⟩ := holds.finish pos
      · exact hM ▸ .machine holds.fit pos realizes
      · exact hgap ▸ .gap holds.fit pos first
  · have hrun : ofEdges states inputs outputs (earlier ++ e :: later) = .error error := by
      rw [ofEdges, herror]
      rfl
    exact hrun ▸ .offence rfl fit he

/-- What a list of edges makes is the only outcome for it. -/
theorem ofEdges_of_built {r : Except MachineError Machine}
    (h : Built states inputs outputs es r) : ofEdges states inputs outputs es = r := by
  have drafted {es : List Edge} (fit : FitTogether states inputs outputs es) :
      ∃ d, (Draft.empty states inputs outputs).insertAll es = .ok d ∧ d.Holds es := by
    refine (Draft.holds_empty.insertAll es).resolve_right ?_
    rintro ⟨earlier, e, later, error, rfl, -, he, -⟩
    exact he.not_fitTogether fit
  cases h with
  | @offence earlier later e error split fit offends =>
    obtain ⟨d, hd, holds⟩ := drafted fit
    rw [ofEdges, split, Draft.insertAll, List.foldlM_append, ← Draft.insertAll, hd]
    show (d.insert e >>= (·.insertAll later)) >>= Draft.finish = .error error
    rw [holds.insert_of_offends offends]
    rfl
  | noStates fit none =>
    obtain ⟨d, hd, -⟩ := drafted fit
    rw [ofEdges, hd]
    exact dif_neg (by omega)
  | gap fit pos first =>
    obtain ⟨d, hd, holds⟩ := drafted fit
    rw [ofEdges, hd]
    obtain ⟨M, -, realizes⟩ | ⟨s, i, hgap, first'⟩ := holds.finish pos
    · exact absurd first realizes.not_firstGap
    · obtain ⟨rfl, rfl⟩ := first.unique first'
      exact hgap
  | machine fit pos realizes =>
    obtain ⟨d, hd, holds⟩ := drafted fit
    rw [ofEdges, hd]
    obtain ⟨M, hM, realizes'⟩ | ⟨s, i, -, first⟩ := holds.finish pos
    · exact hM.trans (congrArg Except.ok (realizes'.unique realizes fit))
    · exact absurd first realizes.not_firstGap

theorem ofEdges_eq_iff {r : Except MachineError Machine} :
    ofEdges states inputs outputs es = r ↔ Built states inputs outputs es r :=
  ⟨fun h => h ▸ built_ofEdges states inputs outputs es, ofEdges_of_built⟩

/-- Edges that make a machine make it in any order and however often they are repeated. -/
theorem ofEdges_congr (h : ofEdges states inputs outputs es = .ok M)
    (hmem : ∀ e, e ∈ es' ↔ e ∈ es) : ofEdges states inputs outputs es' = .ok M := by
  rw [ofEdges_eq_iff] at h ⊢
  cases h with
  | machine fit pos realizes => exact .machine (fit.congr hmem) pos (realizes.congr hmem)

end Machine

end StateIdentification
