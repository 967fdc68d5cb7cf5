import Mathlib.Data.List.Induction
import Mathlib.Logic.Function.Iterate
import StateIdentification.Machine.Exploration

/-!
# What a breadth-first exploration keeps

An exploration follows up its visits in the order in which it makes them, and it continues the word
of a visit by one input at a time. Take any order of words in which the empty word comes first and
the continuations of an earlier word come earlier. If each pass tries the inputs in that order, the
words of all visits ascend, and no word leads to a state earlier than the word of its visit.

The order by length is of this kind for every order of inputs, and the order by length and then by
inputs if the inputs are tried in ascending order.

## Main definitions

- `Breadthwise`: the orders of words in question.
- `InputOrder.Respects`: all passes try the inputs in such an order.
- `Machine.Explores`: what is known about the visits at every step of an exploration.

## Main results

- `Machine.Explores.step`: following up one visit keeps this.
- `Machine.explores_explore`: so it holds of the finished exploration.
- `Machine.Explores.exists_visit`: every word leads to a state whose visit has no later word.
-/

namespace StateIdentification

/-- An order of words that a breadth-first exploration can follow: the empty word comes before all
others, and the continuations of an earlier word by one input come before those of a later one. -/
structure Breadthwise (before : Word → Word → Prop) : Prop where
  trans : ∀ {u v w}, before u v → before v w → before u w
  first : ∀ w i, before [] (w ++ [i])
  extend : ∀ {u v}, before u v → ∀ i j, before (u ++ [i]) (v ++ [j])

namespace InputOrder

variable [RandomSource] {before : Word → Word → Prop} {o : InputOrder}

/-- In every pass the inputs are tried in such an order that earlier continuations of a word are
tried earlier. -/
def Respects (o : InputOrder) (before : Word → Word → Prop) : Prop :=
  ∀ n, (refresh^[n + 1] o).inputs.Pairwise fun i j => ∀ w, before (w ++ [i]) (w ++ [j])

theorem Respects.refresh (h : o.Respects before) : o.refresh.Respects before := fun n => h (n + 1)

/-- Where all continuations of a word are on a par, every order of inputs will do. -/
theorem respects_of_forall (h : ∀ w i j, before (w ++ [i]) (w ++ [j])) : o.Respects before :=
  fun _ => List.pairwise_of_forall fun i j w => h w i j

/-- Without a generator, all passes are alike. -/
theorem respects_of_fixed {inputs : List Input}
    (h : inputs.Pairwise fun i j => ∀ w, before (w ++ [i]) (w ++ [j])) :
    (⟨inputs, none⟩ : InputOrder).Respects before := by
  intro n
  rwa [Function.iterate_fixed (rfl : InputOrder.refresh ⟨inputs, none⟩ = ⟨inputs, none⟩)]

end InputOrder

namespace Machine

variable {M : Machine} {before : Word → Word → Prop} {v x : Visit} {known : List State}
  {is : List Input} {i : Input}

section Discover

/-- The visits that continue `v` are among those for all inputs, in the same order. -/
theorem discover_sublist (M : Machine) (v : Visit) (known : List State) (is : List Input) :
    (M.discover v known is).Sublist (is.map fun i => ⟨M.successor v.state i, v.word ++ [i]⟩) := by
  fun_induction discover with
  | case1 => exact .refl _
  | case2 known i is target _ ih => exact ih.cons _
  | case3 known i is target _ ih => exact ih.cons_cons _

theorem exists_of_mem_discover (h : x ∈ M.discover v known is) :
    ∃ i ∈ is, x = ⟨M.successor v.state i, v.word ++ [i]⟩ := by
  obtain ⟨i, hi, rfl⟩ := List.mem_map.mp ((M.discover_sublist v known is).subset h)
  exact ⟨i, hi, rfl⟩

/-- The states that are discovered differ from each other and from the known ones. -/
theorem nodup_append_discover (hn : known.Nodup) :
    (known ++ (M.discover v known is).map (·.state)).Nodup := by
  fun_induction discover with
  | case1 => simpa using hn
  | case2 known i is target _ ih => exact ih hn
  | case3 known i is target h ih =>
    have := ih (List.nodup_cons.mpr ⟨h, hn⟩)
    exact List.perm_middle.nodup_iff.mpr this

theorem pairwise_discover
    (hb : is.Pairwise fun i j => ∀ w, before (w ++ [i]) (w ++ [j])) :
    (M.discover v known is).Pairwise fun x y => before x.word y.word := by
  refine List.Pairwise.sublist (M.discover_sublist v known is) ?_
  rw [List.pairwise_map]
  exact hb.imp fun h => h v.word

/-- An input leads to a known state, or to one that is discovered with a word that is no later. -/
theorem successor_mem_or_discovered (known : List State)
    (hb : is.Pairwise fun i j => ∀ w, before (w ++ [i]) (w ++ [j])) (hi : i ∈ is) :
    M.successor v.state i ∈ known ∨ ∃ x ∈ M.discover v known is,
      x.state = M.successor v.state i ∧
        (x.word = v.word ++ [i] ∨ before x.word (v.word ++ [i])) := by
  fun_induction discover with
  | case1 => simp at hi
  | case2 known j is target h ih =>
    obtain ⟨-, hb⟩ := List.pairwise_cons.mp hb
    rcases List.mem_cons.mp hi with rfl | hi
    · exact .inl h
    · exact ih hb hi
  | case3 known j is target h ih =>
    obtain ⟨hfirst, hb⟩ := List.pairwise_cons.mp hb
    rcases List.mem_cons.mp hi with rfl | hi
    · exact .inr ⟨_, List.mem_cons_self, rfl, .inl rfl⟩
    · rcases ih hb hi with hknown | ⟨x, hx, hrest⟩
      · rcases List.mem_cons.mp hknown with heq | hknown
        · exact .inr ⟨_, List.mem_cons_self, heq.symm, .inr (hfirst i hi v.word)⟩
        · exact .inl hknown
      · exact .inr ⟨x, List.mem_cons_of_mem _ hx, hrest⟩

end Discover

/-- Where an exploration from `origin` stands that has followed up the visits in `done`: no state
was visited twice, and the words of all visits are in order. -/
structure Explores (M : Machine) (origin : State) (before : Word → Word → Prop)
    (done visits : List Visit) : Prop where
  start : ⟨origin, []⟩ ∈ visits
  nodup : (visits.map (·.state)).Nodup
  ascending : visits.Pairwise fun x y => before x.word y.word
  leads : ∀ x ∈ visits, M.reached origin x.word = x.state
  known : ∀ x ∈ visits, ∀ i ∈ x.word, i ∈ M.inputs
  /-- Every word but the first continues that of a visit that was followed up. -/
  continues : ∀ x ∈ visits, x.word = [] ∨ ∃ v ∈ done, ∃ i, x.word = v.word ++ [i]
  /-- From what was followed up, the inputs lead to visited states, which have no later words. -/
  closed : ∀ v ∈ done, ∀ i ∈ M.inputs, ∃ x ∈ visits, x.state = M.successor v.state i ∧
    (x.word = v.word ++ [i] ∨ before x.word (v.word ++ [i]))

theorem explores_start (M : Machine) (origin : State) (before : Word → Word → Prop) :
    M.Explores origin before [] [⟨origin, []⟩] := by
  constructor <;> simp

namespace Explores

variable {origin : State} {done queue visits : List Visit}

/-- The visits made so far come before all that continue the next one. -/
theorem before_extend (h : M.Explores origin before done (done ++ v :: queue))
    (hb : Breadthwise before) (hx : x ∈ done ++ v :: queue) (i : Input) :
    before x.word (v.word ++ [i]) := by
  rcases h.continues x hx with hnil | ⟨u, hu, j, hword⟩
  · rw [hnil]
    exact hb.first _ _
  · have huv : before u.word v.word :=
      (List.pairwise_append.mp h.ascending).2.2 u hu v List.mem_cons_self
    rw [hword]
    exact hb.extend huv j i

/-- Following up a visit with all inputs of the machine leads on. -/
theorem step (h : M.Explores origin before done (done ++ v :: queue)) (hb : Breadthwise before)
    (hp : is.Perm M.inputs) (his : is.Pairwise fun i j => ∀ w, before (w ++ [i]) (w ++ [j])) :
    M.Explores origin before (done ++ [v])
      (done ++ [v] ++ (queue ++ M.discover v ((done ++ v :: queue).map (·.state)) is)) := by
  have hv : v ∈ done ++ v :: queue := by simp
  generalize hnew : M.discover v ((done ++ v :: queue).map (·.state)) is = new
  have happend : done ++ [v] ++ (queue ++ new) = (done ++ v :: queue) ++ new := by simp
  have found {x : Visit} (hx : x ∈ new) :
      ∃ i ∈ M.inputs, x = ⟨M.successor v.state i, v.word ++ [i]⟩ := by
    obtain ⟨i, hi, rfl⟩ := exists_of_mem_discover (hnew ▸ hx)
    exact ⟨i, hp.subset hi, rfl⟩
  rw [happend]
  constructor
  case start => exact List.mem_append_left _ h.start
  case nodup =>
    rw [List.map_append, ← hnew]
    exact nodup_append_discover h.nodup
  case ascending =>
    refine List.pairwise_append.mpr ⟨h.ascending, hnew ▸ pairwise_discover his, ?_⟩
    intro x hx y hy
    obtain ⟨i, -, rfl⟩ := found hy
    exact h.before_extend hb hx i
  case leads =>
    intro x hx
    rcases List.mem_append.mp hx with hx | hx
    · exact h.leads x hx
    · obtain ⟨i, -, rfl⟩ := found hx
      simp [reached_append, h.leads v hv]
  case known =>
    intro x hx
    rcases List.mem_append.mp hx with hx | hx
    · exact h.known x hx
    · obtain ⟨i, hi, rfl⟩ := found hx
      exact List.forall_mem_append.mpr ⟨h.known v hv, List.forall_mem_singleton.mpr hi⟩
  case continues =>
    intro x hx
    rcases List.mem_append.mp hx with hx | hx
    · rcases h.continues x hx with hnil | ⟨u, hu, hword⟩
      · exact .inl hnil
      · exact .inr ⟨u, List.mem_append_left _ hu, hword⟩
    · obtain ⟨i, -, rfl⟩ := found hx
      exact .inr ⟨v, by simp, i, rfl⟩
  case closed =>
    intro u hu i hi
    rcases List.mem_append.mp hu with hu | hu
    · obtain ⟨x, hx, hrest⟩ := h.closed u hu i hi
      exact ⟨x, List.mem_append_left _ hx, hrest⟩
    · obtain rfl := List.mem_singleton.mp hu
      rcases successor_mem_or_discovered ((done ++ u :: queue).map (·.state)) his
        (hp.symm.subset hi) with hknown | ⟨x, hx, hrest⟩
      · obtain ⟨x, hx, heq⟩ := List.mem_map.mp hknown
        exact ⟨x, List.mem_append_left _ hx, heq, .inr (h.before_extend hb hx i)⟩
      · exact ⟨x, List.mem_append_right _ (hnew ▸ hx), hrest⟩

/-- Every word leads to a state that was visited, with a word that is no later. -/
theorem exists_visit (h : M.Explores origin before visits visits) (hb : Breadthwise before)
    {w : Word} (hw : ∀ i ∈ w, i ∈ M.inputs) :
    ∃ x ∈ visits, x.state = M.reached origin w ∧ (x.word = w ∨ before x.word w) := by
  induction w using List.reverseRecOn with
  | nil => exact ⟨_, h.start, rfl, .inl rfl⟩
  | append_singleton w i ih =>
    obtain ⟨hw, hi⟩ := List.forall_mem_append.mp hw
    obtain ⟨v, hv, hstate, hword⟩ := ih hw
    obtain ⟨x, hx, hnext, hcont⟩ := h.closed v hv i (hi i (List.mem_singleton_self i))
    have hle : v.word ++ [i] = w ++ [i] ∨ before (v.word ++ [i]) (w ++ [i]) :=
      hword.imp (congrArg (· ++ [i])) (hb.extend · i i)
    refine ⟨x, hx, by simp [hnext, hstate, reached_append], ?_⟩
    rcases hcont with heq | hlt
    · rwa [heq]
    · rcases hle with heq | hlt'
      · exact .inr (heq ▸ hlt)
      · exact .inr (hb.trans hlt hlt')

end Explores

variable [RandomSource]

/-- Each step of an exploration leads on, up to the end. -/
theorem explores_exploreFrom {origin : State} {order : InputOrder} {done queue : List Visit}
    (h : M.Explores origin before done (done ++ queue)) (hb : Breadthwise before)
    (hp : order.inputs.Perm M.inputs) (ho : order.Respects before) :
    M.Explores origin before (M.exploreFrom order done queue) (M.exploreFrom order done queue) := by
  fun_induction exploreFrom with
  | case1 => simpa using h
  | case2 order done v queue known ih =>
    have hp' := order.refresh_perm.trans hp
    exact ih (h.step hb hp' (ho 0)) hp' ho.refresh

/-- What an exploration has found in the end. -/
theorem explores_explore {order : InputOrder} (origin : State) (hb : Breadthwise before)
    (hp : order.inputs.Perm M.inputs) (ho : order.Respects before) :
    M.Explores origin before (M.explore order origin) (M.explore order origin) :=
  explores_exploreFrom (M.explores_start origin before) hb hp ho

end Machine

end StateIdentification
