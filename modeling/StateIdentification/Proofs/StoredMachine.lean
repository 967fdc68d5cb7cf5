import Mathlib.Algebra.Group.Nat.Defs
import Mathlib.Data.List.Basic
import StateIdentification.Memory.Machine
import StateIdentification.Proofs.DraftedMachine

/-!
# Stored machines

A draft that is stored in one table takes the same edges and refuses the same ones as a draft with
rows, as long as its places can be counted in a word. So the machines that are stored are those that
the edges determine, and they can be read again.

## Main definitions

- `Draft.storedAfter`: what is stored behind an edge.

## Main results

- `Draft.insert_stored`, `Draft.finish_stored`: adding an edge, and turning a draft into a machine.
- `StoredMachine.machine_stored`: what is stored can be read again.
- `StoredMachine.ofEdges_spec`: what a list of edges makes.
-/

namespace StateIdentification

variable {states inputs outputs : Nat} {es : List Edge} {e : Edge} {M : Machine}

theorem Cell.transition_inj {b c : Cell states outputs} : b.transition = c.transition ↔ b = c := by
  simp [Cell.transition, Cell.ext_iff, Fin.ext_iff]

/-- As long as all places can be counted, none of them is computed wrongly. -/
theorem storedPlace_fin (countable : states * inputs < UInt64.size) (s : Fin states)
    (i : Fin inputs) : storedPlace inputs ⟨s⟩ ⟨i⟩ = Grid.place s i :=
  Nat.mod_eq_of_lt (Nat.lt_trans (Grid.place s i).isLt countable)

namespace Draft

variable {d : Draft states inputs outputs}

theorem getElem?_stored (s : Fin states) (i : Fin inputs) :
    d.stored.table[(Grid.place s i).val]? = some ((d.table.get s i).map Cell.transition) := by
  simp [stored, Grid.get]

theorem stored_set (s : Fin states) (i : Fin inputs) (c : Cell states outputs) :
    (Draft.mk (d.table.set s i (some c))).stored =
      { d.stored with
        table := d.stored.table.setIfInBounds (Grid.place s i) (some c.transition) } := by
  simp [stored, Grid.set, Array.setIfInBounds]

theorem stored_empty : (empty states inputs outputs).stored =
    ⟨states, inputs, outputs, Array.replicate (states * inputs) none, none⟩ := by
  simp [stored, empty, Grid.replicate]

/-- An edge out of range is an error for a stored draft as it is for a draft. -/
theorem insert_of_outOfRange {error : MachineError} (d : Draft states inputs outputs)
    (h : e.outOfRange? states inputs outputs = some error) : d.insert e = .error error := by
  simp only [Edge.outOfRange?, List.findSome?_cons, List.findSome?_nil] at h
  rw [insert]
  grind

/-- The place of an edge in range, and its entry. -/
theorem exists_edge_of_inRange (h : e.outOfRange? states inputs outputs = none) :
    ∃ (s : Fin states) (i : Fin inputs) (c : Cell states outputs), e = c.edge s i := by
  simp only [Edge.outOfRange?, List.findSome?_cons, List.findSome?_nil] at h
  refine Edge.InRange.exists_edge ⟨?_, ?_, ?_, ?_⟩ <;> grind

/-- What is stored once an edge has been added or refused. -/
def storedAfter (d : Draft states inputs outputs) :
    Except MachineError (Draft states inputs outputs) → StoredDraft
  | .ok next => next.stored
  | .error error => { d.stored with error := some error }

/-- Adding an edge in range to a stored draft. -/
theorem insert_stored_edge (countable : states * inputs < UInt64.size)
    (d : Draft states inputs outputs) (s : Fin states) (i : Fin inputs) (c : Cell states outputs)
    (hrange : (c.edge s i).outOfRange? states inputs outputs = none) :
    d.stored.insert (c.edge s i) = .ok (d.storedAfter (d.insert (c.edge s i))) := by
  have hplace : storedPlace d.stored.inputs (c.edge s i).source (c.edge s i).input =
      Grid.place s i := storedPlace_fin countable s i
  have hread := d.getElem?_stored s i
  have hrange : (c.edge s i).outOfRange? d.stored.states d.stored.inputs d.stored.outputs = none :=
    hrange
  have hclean : ¬ d.stored.error.isSome := Bool.false_ne_true
  rw [StoredDraft.insert, if_neg hclean]
  simp only [hrange, hplace, hread]
  cases hget : d.table.get s i with
  | none =>
    rw [insert_of_get_eq_none c hget]
    exact congrArg Except.ok (stored_set s i c).symm
  | some b =>
    rw [insert_of_get_eq_some c hget]
    have hentry : c.transition = (c.edge s i).transition := rfl
    by_cases hsame : b = c
    · -- the entry is written again
      have hwrite : d.table.set s i (some c) = d.table := by
        rw [← hsame, ← hget, Grid.set_get]
      simp only [hsame, if_true, Option.map_some, Option.any_some, hentry, bne_self_eq_false]
      rw [← hentry, if_neg Bool.false_ne_true, ← stored_set, hwrite]
      rfl
    · have hdiffer : b.transition ≠ (c.edge s i).transition :=
        fun heq => hsame (Cell.transition_inj.mp (heq.trans hentry.symm))
      rw [if_neg hsame]
      simp only [Option.map_some, Option.any_some, bne_iff_ne.mpr hdiffer, if_true]
      rfl

/-- Adding an edge to a stored draft. -/
theorem insert_stored (countable : states * inputs < UInt64.size)
    (d : Draft states inputs outputs) (e : Edge) :
    d.stored.insert e = .ok (d.storedAfter (d.insert e)) := by
  cases hrange : e.outOfRange? states inputs outputs with
  | some error =>
    have hrange' : e.outOfRange? d.stored.states d.stored.inputs d.stored.outputs = some error :=
      hrange
    have hclean : ¬ d.stored.error.isSome := Bool.false_ne_true
    rw [insert_of_outOfRange d hrange, StoredDraft.insert, if_neg hclean, hrange']
    rfl
  | none =>
    obtain ⟨s, i, c, rfl⟩ := exists_edge_of_inRange hrange
    exact insert_stored_edge countable d s i c hrange

/-- The entries of a stored draft without gaps. -/
theorem stored_of_entries {g : Grid (Cell states outputs) states inputs}
    (h : ∀ s i, d.table.get s i = some (g.get s i)) :
    d.stored.table = (g.cells.toArray.map Cell.transition).map some := by
  have hwhole : d.table = ⟨g.cells.map some⟩ :=
    Grid.ext fun s i => (h s i).trans (by simp [Grid.get])
  simp [stored, hwhole, Function.comp_def]

/-- The first gap of a stored draft. -/
theorem findIdx?_stored {s : Fin states} {i : Fin inputs} (hgap : d.table.get s i = none)
    (hbefore : ∀ r j, r < s ∨ r = s ∧ j < i → ∃ c, d.table.get r j = some c) :
    d.stored.table.findIdx? (·.isNone) = some (Grid.place s i).val := by
  have entry {p : Nat} (hp : p < d.stored.table.size) : ∃ r j, p = (Grid.place r j).val ∧
      d.stored.table[p] = (d.table.get r j).map Cell.transition := by
    have hlt : p < states * inputs := by simpa [stored] using hp
    refine ⟨Grid.rowOf ⟨p, hlt⟩, Grid.columnOf ⟨p, hlt⟩, by simp, ?_⟩
    simp [stored, Grid.get]
  have hsize : (Grid.place s i).val < d.stored.table.size := by
    simp [stored]
  refine Array.findIdx?_eq_some_iff_getElem.mpr ⟨hsize, ?_, fun p hp => ?_⟩
  · obtain ⟨r, j, hplace, hentry⟩ := entry hsize
    obtain ⟨rfl, rfl⟩ := Grid.place_inj.mp (Fin.ext hplace)
    simp [hentry, hgap]
  · obtain ⟨r, j, rfl, hentry⟩ := entry (Nat.lt_trans hp hsize)
    obtain ⟨c, hc⟩ := hbefore r j (Grid.place_lt_place.mp hp)
    simp [hentry, hc]

/-- Turning a stored draft into a machine. -/
theorem finish_stored (d : Draft states inputs outputs) :
    d.stored.finish = d.finish.map Machine.stored := by
  rcases Nat.eq_zero_or_pos states with rfl | hpos
  · rfl
  · have hnonzero : d.stored.states ≠ 0 := Nat.pos_iff_ne_zero.mp hpos
    have hclean : d.stored.error = none := rfl
    rw [StoredDraft.finish, if_neg hnonzero]
    obtain ⟨g, hg, hentry⟩ | ⟨s, i, herror, hgap, hbefore⟩ := d.finish_cases hpos
    · have htable := stored_of_entries hentry
      have hfull : d.stored.table.findIdx? (·.isNone) = none := by simp [htable]
      have hkeep : d.stored.table.filterMap id = g.cells.toArray.map Cell.transition := by
        rw [htable, Array.filterMap_map, Function.id_comp, Array.filterMap_some]
      simp only [hclean, hfull, hkeep, hg]
      rfl
    · have hrow : (Grid.place s i).val / inputs = s := congrArg Fin.val (Grid.rowOf_place s i)
      have hcolumn : (Grid.place s i).val % inputs = i :=
        congrArg Fin.val (Grid.columnOf_place s i)
      have hinputs : d.stored.inputs = inputs := rfl
      simp only [hclean, findIdx?_stored hgap hbefore, hinputs, hrow, hcolumn, herror]
      rfl

end Draft

/-- Once there is an error, no edge changes a draft. -/
theorem StoredDraft.foldlM_insert_of_error {d : StoredDraft} {error : MachineError}
    (h : d.error = some error) (es : List Edge) : es.foldlM insert d = .ok d := by
  have hkeep (e : Edge) : d.insert e = .ok d := if_pos (h ▸ rfl)
  induction es with
  | nil => rfl
  | cons e es ih => rw [List.foldlM_cons, hkeep e]; exact ih

/-- Adding edges one by one is adding all of them. -/
theorem StoredDraft.foldl_insert (x : Except StorageFault StoredDraft) (es : List Edge) :
    es.foldl (fun x e => x >>= (·.insert e)) x = x >>= (es.foldlM insert ·) := by
  induction es generalizing x with
  | nil => exact (bind_pure x).symm
  | cons e es ih =>
    rw [List.foldl_cons, ih, bind_assoc]
    simp only [List.foldlM_cons]

/-- Edges are added to a stored draft as to a draft, and the machine is the same. -/
theorem Draft.foldlM_insert_stored (countable : states * inputs < UInt64.size)
    (d : Draft states inputs outputs) (es : List Edge) :
    ∃ d', es.foldlM StoredDraft.insert d.stored = .ok d' ∧
      d'.finish = (d.insertAll es >>= Draft.finish).map Machine.stored := by
  induction es generalizing d with
  | nil => exact ⟨d.stored, rfl, d.finish_stored⟩
  | cons e es ih =>
    have hrun : d.insertAll (e :: es) = d.insert e >>= (·.insertAll es) := List.foldlM_cons
    rw [List.foldlM_cons, insert_stored countable, hrun]
    cases d.insert e with
    | ok next => exact ih next
    | error error => exact ⟨_, StoredDraft.foldlM_insert_of_error rfl es, rfl⟩

namespace StoredMachine

/-- If its table fits, a draft is stored without edges. -/
theorem empty_of_fits (fits : TableFits (states * inputs) transitionWidth) (outputs : Nat) :
    StoredDraft.empty states inputs outputs = .ok (Draft.empty states inputs outputs).stored := by
  rw [StoredDraft.empty, Nat.mod_eq_of_lt (fits.lt (by decide)), requireTable_of_fits fits,
    Draft.stored_empty]
  rfl

/-- If its table fits, what is stored is the machine with the given edges. -/
theorem ofEdges_of_fits (fits : TableFits (states * inputs) transitionWidth) (outputs : Nat)
    (es : List Edge) : ofEdges states inputs outputs es =
      .ok ((Machine.ofEdges states inputs outputs es).map Machine.stored) := by
  obtain ⟨d, hd, hfinish⟩ :=
    (Draft.empty states inputs outputs).foldlM_insert_stored (fits.lt (by decide)) es
  have hrun : (es.foldlM StoredDraft.insert (Draft.empty states inputs outputs).stored >>=
      fun d => pure d.finish) = .ok d.finish := by rw [hd]; rfl
  rw [ofEdges, empty_of_fits fits]
  exact hrun.trans (congrArg Except.ok hfinish)

/-- If its entries can be counted, but the table does not fit, nothing is stored. -/
theorem ofEdges_of_not_fits (countable : states * inputs < UInt64.size)
    (large : ¬ TableFits (states * inputs) transitionWidth) (outputs : Nat) (es : List Edge) :
    ofEdges states inputs outputs es =
      .error (.overflow ⟨states * inputs, transitionWidth⟩) := by
  rw [ofEdges, StoredDraft.empty, Nat.mod_eq_of_lt countable, requireTable_of_not_fits large]
  rfl

/-- The entries of a machine with the given edges can be counted if there is room for them. -/
theorem countable_of_ofEdges (fits : TableFits (states * inputs) transitionWidth)
    (h : Machine.ofEdges states inputs outputs es = .ok M) :
    M.stateCount * M.inputCount < UInt64.size := by
  cases Machine.ofEdges_eq_iff.mp h with
  | machine _ _ realizes =>
    rw [realizes.stateCount_eq, realizes.inputCount_eq]
    exact fits.lt (by decide)

/-- The entry for a state and an input. -/
theorem transition?_stored (countable : M.stateCount * M.inputCount < UInt64.size) {s : State}
    {i : Input} (hs : s ∈ M.states) (hi : i ∈ M.inputs) :
    M.stored.transition? s i = some (M.transition s i) := by
  obtain ⟨s, rfl⟩ := Machine.exists_fin hs
  obtain ⟨i, rfl⟩ := Machine.exists_fin_input hi
  have hplace : storedPlace M.stored.inputs ⟨s⟩ ⟨i⟩ = Grid.place s i :=
    storedPlace_fin countable s i
  have hinput : (⟨i⟩ : Input).index < M.stored.inputs := i.isLt
  rw [transition?, if_pos hinput, hplace]
  simp [Machine.stored, Machine.transition, Machine.transition?, Grid.get]

/-- The entry for a state and an input is in range. -/
theorem cell_stored (countable : M.stateCount * M.inputCount < UInt64.size) (s : Fin M.stateCount)
    (i : Fin M.inputCount) : M.stored.cell s i = .ok (M.table.get s i) := by
  have hs : (⟨s⟩ : State) ∈ M.states := Machine.mem_states.mpr s.isLt
  have hi : (⟨i⟩ : Input) ∈ M.inputs := Machine.mem_inputs.mpr i.isLt
  have hread : M.stored.transition? ⟨s⟩ ⟨i⟩ = some (M.table.get s i).transition := by
    rw [transition?_stored countable hs hi]
    simp [Machine.transition, Machine.transition?]
  have hrange : (M.table.get s i).transition.target.index < M.stored.states ∧
      (M.table.get s i).transition.output.index < M.stored.outputs :=
    ⟨(M.table.get s i).target.isLt, (M.table.get s i).output.isLt⟩
  simp only [cell, hread, dif_pos hrange]
  rfl

/-- What is stored can be read again. -/
theorem machine_stored (countable : M.stateCount * M.inputCount < UInt64.size) :
    M.stored.machine = .ok M := by
  have hcell := cell_stored countable
  have hpos : 0 < M.stored.states := M.stateCount_pos
  rw [machine, dif_pos hpos]
  obtain ⟨g, hg, hall⟩ | ⟨s, i, error, -, hmissing, -⟩ := Grid.ofFnM_cases M.stored.cell
  · have htable : g = M.table :=
      Grid.ext fun s i => Except.ok.inj ((hall s i).symm.trans (hcell s i))
    rw [hg, htable]
    rfl
  · cases (hcell s i).symm.trans hmissing

/-- What a list of edges makes, also if they are added one by one. A table of transitions that
exceeds the limit is refused before any edge is looked at. Otherwise there is one outcome: the error
of the first edge that offends, or the lack of states, or the first gap, or else a machine with the
given numbers whose transitions are the edges. What is stored for it does not depend on the order or
the repetition of the edges, has an entry for every state and input, and its targets and outputs are
in range. -/
theorem ofEdges_spec (states inputs outputs : Nat) (es : List Edge) :
    (es.foldl (fun x e => x >>= (·.insert e)) (StoredDraft.empty states inputs outputs)).map
        StoredDraft.finish = ofEdges states inputs outputs es ∧
    (states * inputs < UInt64.size → ¬ TableFits (states * inputs) transitionWidth →
      ofEdges states inputs outputs es = .error (.overflow ⟨states * inputs, transitionWidth⟩)) ∧
    (TableFits (states * inputs) transitionWidth →
      ∃ r, ofEdges states inputs outputs es = .ok (r.map Machine.stored) ∧
        (∀ r', Built states inputs outputs es r' ↔ r' = r) ∧
        ∀ M, r = .ok M →
          (∀ es', (∀ e, e ∈ es' ↔ e ∈ es) →
            ofEdges states inputs outputs es' = .ok (.ok M.stored)) ∧
          ∀ s ∈ M.states, ∀ i ∈ M.inputs, M.stored.transition? s i = some (M.transition s i) ∧
            M.successor s i ∈ M.states ∧ (M.output s i).index < M.outputCount) := by
  refine ⟨?_, fun countable large => ofEdges_of_not_fits countable large outputs es, fun fits => ?_⟩
  · rw [StoredDraft.foldl_insert, ofEdges]
    cases StoredDraft.empty states inputs outputs with
    | error fault => rfl
    | ok d => exact map_eq_pure_bind StoredDraft.finish (es.foldlM StoredDraft.insert d)
  · refine ⟨_, ofEdges_of_fits fits outputs es, fun r' => Machine.ofEdges_eq_iff.symm.trans eq_comm,
      fun M hM => ⟨fun es' hmem => ?_, fun s hs i hi => ?_⟩⟩
    · rw [ofEdges_of_fits fits outputs es', Machine.ofEdges_congr hM hmem]
      rfl
    · exact ⟨transition?_stored (countable_of_ofEdges fits hM) hs hi, Machine.successor_mem hs i,
        Machine.output_lt hs hi⟩

/-- The size of a table is computed in a word, so a table without room for any entry may take the
place of one that is too large to be counted. -/
example : ofEdges (2 ^ 32) (2 ^ 32) 1 [] = .ok (.ok ⟨2 ^ 32, 2 ^ 32, 1, #[]⟩) := by
  decide +kernel

/-- The pairs of a state and an input may be few enough to be counted, but too many for a table. The
edge has an output out of range, but instead of it the table is refused. -/
theorem ofEdges_countable_overflow :
    2 ^ 59 * 1 < UInt64.size ∧
      Built (2 ^ 59) 1 0 [⟨.first, .first, .first, .first⟩]
        (.error (.indexOutOfRange .output 0 0)) ∧
      ofEdges (2 ^ 59) 1 0 [⟨.first, .first, .first, .first⟩] =
        .error (.overflow ⟨2 ^ 59, 24⟩) := by
  have offends : Edge.Offends (2 ^ 59) 1 0 [] ⟨.first, .first, .first, .first⟩
      (.indexOutOfRange .output 0 0) := .output (by decide) (by decide) (Nat.le_refl 0)
  refine ⟨by decide, .offence rfl ⟨by simp, by simp⟩ offends, ?_⟩
  exact ofEdges_of_not_fits (by decide) (by decide) 0 _

end StoredMachine

end StateIdentification
