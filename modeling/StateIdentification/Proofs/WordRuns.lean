import StateIdentification.Proofs.SubmachineBehaviour

/-!
# One pass over a word

The state behind a word, the outputs on it and the last transition are three functions. One pass
over the word that keeps track of all three shows that they tell the same story.

## Main definitions

- `Reading`, `Machine.read`: what is known after some inputs, and after one input more.
- `Reading.InStep`: the last transition leads to the state that is reached, with the last output.

## Main results

- `Machine.foldl_read`: one pass gives what the three functions give.
- `Machine.inStep_run`: they are in step on every word.
- `Machine.admits_eq_ok_iff`: which words can be read from a state.
- `Machine.separates_of_prefix`: a word separates two states if its beginning does.
- `Machine.runs_agree`: the three functions on a word of two parts.
-/

namespace StateIdentification

/-- What is known after some inputs. -/
structure Reading where
  state : State
  outputs : List Output
  last : Option Transition

namespace Reading

/-- No input has been read yet. -/
def start (s : State) : Reading := ⟨s, [], none⟩

/-- The last transition leads to the state that is reached, and has the last output. -/
structure InStep (r : Reading) : Prop where
  target : ∀ tr ∈ r.last, tr.target = r.state
  output : r.last.map (·.output) = r.outputs.getLast?

theorem inStep_start (s : State) : (start s).InStep := ⟨nofun, rfl⟩

end Reading

namespace Machine

variable (M : Machine)

/-- What is known after one input more. -/
def read (r : Reading) (i : Input) : Reading :=
  let tr := M.transition r.state i
  ⟨tr.target, r.outputs ++ [tr.output], some tr⟩

variable {M} {s t : State} {v w : Word}

theorem inStep_read (r : Reading) (i : Input) : (M.read r i).InStep where
  target := by simp [read]
  output := by simp [read]

theorem inStep_foldl_read (s : State) (w : Word) : (w.foldl M.read (.start s)).InStep := by
  rcases List.eq_nil_or_concat w with rfl | ⟨w, i, rfl⟩
  · exact Reading.inStep_start s
  · rw [List.concat_eq_append, List.foldl_append]
    exact inStep_read _ i

/-- One pass over a word gives the state behind it, all outputs and the last transition. -/
theorem foldl_read (s : State) (w : Word) :
    w.foldl M.read (.start s) = ⟨M.reached s w, M.outputs s w, M.run? s w⟩ := by
  -- One input more at the end of the word is one call of `read` more.
  induction w using List.reverseRecOn with
  | nil => rfl
  | append_singleton w i ih =>
    rw [List.foldl_append, ih, List.foldl_cons, List.foldl_nil, read, reached_append,
      outputs_append, run?_concat]
    rfl

theorem inStep_run (M : Machine) (s : State) (w : Word) :
    Reading.InStep ⟨M.reached s w, M.outputs s w, M.run? s w⟩ :=
  foldl_read s w ▸ inStep_foldl_read s w

/-- The empty word can be read from anywhere, and a word over the inputs from every state. -/
theorem admits_eq_ok_iff :
    M.admits s w = .ok () ↔ w = [] ∨ s ∈ M.states ∧ ∀ i ∈ w, i ∈ M.inputs := by
  cases w with
  | nil => simp [admits]
  | cons i w =>
    have hfind : w.find? (· ∉ M.inputs) = none ↔ ∀ j ∈ w, j ∈ M.inputs := by simp
    rw [admits, List.forall_mem_cons, ← hfind]
    grind

/-- A word separates two states if its beginning does. -/
theorem separates_of_prefix (h : v <+: w) (hv : M.separates s t v) : M.separates s t w := by
  obtain ⟨u, rfl⟩ := h
  rw [separates, bne_iff_ne] at hv ⊢
  exact fun heq => hv (M.outputs_append_eq_iff.mp heq).1

/-- The functions that run words agree. On a word of two parts, which can be read from every state,
the second part starts where the first one ends. The last transition leads to the state behind the
word and has the last output. Two states that are separated by a word are separated by every longer
one. -/
theorem runs_agree (M : Machine) {v w : Word} (hword : ∀ i ∈ v ++ w, i ∈ M.inputs) :
    (∀ s ∈ M.states,
      M.admits s (v ++ w) = .ok () ∧ M.admits s v = .ok () ∧ M.admits (M.reached s v) w = .ok () ∧
      M.reached s v ∈ M.states ∧
      M.reached s (v ++ w) = M.reached (M.reached s v) w ∧
      M.outputs s (v ++ w) = M.outputs s v ++ M.outputs (M.reached s v) w ∧
      (M.outputs s (v ++ w)).length = v.length + w.length ∧
      (M.run? s v = none ↔ v = []) ∧
      ∀ tr, M.run? s v = some tr →
        tr.target = M.reached s v ∧ (M.outputs s v).getLast? = some tr.output) ∧
    ∀ s ∈ M.states, ∀ t ∈ M.states, M.separates s t v → M.separates s t (v ++ w) := by
  obtain ⟨hv, hw⟩ := List.forall_mem_append.mp hword
  refine ⟨fun s hs => ⟨?_, ?_, ?_, reached_mem hs v, M.reached_append s v w,
    M.outputs_append s v w, ?_, run?_eq_none, fun tr htr => ⟨(M.inStep_run s v).target tr htr, ?_⟩⟩,
    fun s _ t _ => separates_of_prefix (List.prefix_append v w)⟩
  · exact admits_eq_ok_iff.mpr (.inr ⟨hs, hword⟩)
  · exact admits_eq_ok_iff.mpr (.inr ⟨hs, hv⟩)
  · exact admits_eq_ok_iff.mpr (.inr ⟨reached_mem hs v, hw⟩)
  · rw [length_outputs, List.length_append]
  · have houtput := (M.inStep_run s v).output
    rw [← houtput, htr, Option.map_some]

/-- From state `0`, two inputs lead to state `0` again, and the last transition emits `2`. They
separate state `0` from state `1`, and so do three inputs. -/
theorem runs_agree_bypass : (∀ i ∈ [⟨0⟩, ⟨0⟩] ++ [⟨0⟩], i ∈ bypass.inputs) ∧
    bypass.admits ⟨0⟩ ([⟨0⟩, ⟨0⟩] ++ [⟨0⟩]) = .ok () ∧
    bypass.outputs ⟨0⟩ ([⟨0⟩, ⟨0⟩] ++ [⟨0⟩]) = [⟨0⟩, ⟨2⟩] ++ [⟨0⟩] ∧
    (∃ tr, bypass.run? ⟨0⟩ [⟨0⟩, ⟨0⟩] = some tr ∧ tr.target = ⟨0⟩ ∧ tr.output = ⟨2⟩) ∧
    bypass.separates ⟨0⟩ ⟨1⟩ ([⟨0⟩, ⟨0⟩] ++ [⟨0⟩]) := by
  have hword : ∀ i ∈ [⟨0⟩, ⟨0⟩] ++ [⟨0⟩], i ∈ bypass.inputs := by decide
  have hzero : (⟨0⟩ : State) ∈ bypass.states := by decide
  obtain ⟨hruns, hseparates⟩ := runs_agree bypass hword
  obtain ⟨hadmits, -, -, -, -, houtputs, -, -, hlast⟩ := hruns ⟨0⟩ hzero
  obtain ⟨htarget, -⟩ := hlast ⟨⟨0⟩, ⟨2⟩⟩ (by decide)
  exact ⟨hword, hadmits, houtputs.trans (by decide), ⟨_, by decide, htarget, by decide⟩,
    hseparates ⟨0⟩ hzero ⟨1⟩ (by decide) (by decide)⟩

end Machine

end StateIdentification
