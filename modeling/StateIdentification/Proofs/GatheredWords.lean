import StateIdentification.Proofs.CompanionWords
import StateIdentification.Proofs.MaximalWords
import StateIdentification.Proofs.SequenceLeaves
import StateIdentification.Proofs.StoredTrieSet

/-!
# Words gathered leaf by leaf

Separating families are gathered leaf by leaf of the adaptive sequence. Every leaf adds words to the
tries of its states: the word that leads to it, and words that separate its states from each other,
which come from a matrix or from a descent through a second tree. In the end the trie of a state has
its path word and the words for its companions, whatever the order in which they were added.

## Main definitions

- `SuffixTries.Collects`: which words are in the tries of which states.
- `SeparatingFamily.Receives`: the words that a state gets in a descent.
- `SeparatingFamily.Gathered.Collects`: what is collected with a matrix.

## Main results

- `foldl_adds`, `exists_foldlM_adds`: what a loop adds, from what each of its passes adds.
- `SeparatingFamily.collects_collect`: the words that a descent adds.
- `SeparatingFamily.ofMatrix_eq`, `SeparatingFamily.ofTree_eq`: the families, told state by state.
-/

namespace StateIdentification

section Loops

variable {σ : Type u} {β : Type v} {ι : Type w} {ε : Type x} {R : σ → (ι → Prop) → Prop}
  {adds : β → ι → Prop} {xs : List β} {st : σ} {P : ι → Prop}

/-- A loop adds what its passes add. -/
theorem foldl_adds {step : σ → β → σ}
    (hstep : ∀ x ∈ xs, ∀ st P, R st P → R (step st x) fun i => P i ∨ adds x i) (h : R st P) :
    R (xs.foldl step st) fun i => P i ∨ ∃ x ∈ xs, adds x i := by
  induction xs generalizing st P with
  | nil => simpa using h
  | cons x xs ih =>
    obtain ⟨hfirst, hrest⟩ := List.forall_mem_cons.mp hstep
    simpa [or_assoc] using ih hrest (hfirst st P h)

/-- A loop whose passes succeed succeeds and adds what they add. -/
theorem exists_foldlM_adds {step : σ → β → Except ε σ}
    (hstep : ∀ x ∈ xs, ∀ st P, R st P →
      ∃ st', step st x = .ok st' ∧ R st' fun i => P i ∨ adds x i) (h : R st P) :
    ∃ st', xs.foldlM step st = .ok st' ∧ R st' fun i => P i ∨ ∃ x ∈ xs, adds x i := by
  induction xs generalizing st P with
  | nil => exact ⟨st, rfl, by simpa using h⟩
  | cons x xs ih =>
    obtain ⟨hfirst, hrest⟩ := List.forall_mem_cons.mp hstep
    obtain ⟨st₁, hok, h₁⟩ := hfirst st P h
    obtain ⟨st₂, hok', h₂⟩ := ih hrest h₁
    refine ⟨st₂, ?_, by simpa [or_assoc] using h₂⟩
    rw [List.foldlM_cons, hok]
    exact hok'

end Loops

/-- The maximal words of a stored set are those of any list of its words. -/
theorem maximalWords_eq_of_holds {t : StoredTrie Input} {S : Finset Word} {ws : List Word}
    (h : t.Holds S) (hS : ∀ w, w ∈ S ↔ w ∈ ws) : t.maximalWords = maximalWords ws := by
  refine eq_of_ascending h.reduces.ascending (maximalWords_ascending ws) fun v => ?_
  rw [h.reduces.mem_iff, mem_maximalWords_iff]
  simp only [hS]

variable {M : Machine} {a : AdaptiveSequence} {t : SplittingTree} {tries : SuffixTries}
  {size id : Nat} {s : State} {states : List State} {w : Word} {P : State × Word → Prop}

namespace SuffixTries

/-- The trie of every state has the words that `P` gives to the state. -/
structure Collects (tries : SuffixTries) (size : Nat) (P : State × Word → Prop) : Prop where
  size_eq : tries.size = size
  holds : ∀ s : State, s.index < size →
    ∃ t S, tries[s.index]? = some t ∧ t.Holds S ∧ ∀ w, w ∈ S ↔ P (s, w)

namespace Collects

theorem congr {Q : State × Word → Prop} (h : tries.Collects size P) (heq : ∀ e, P e ↔ Q e) :
    tries.Collects size Q := by
  obtain rfl : P = Q := funext fun e => propext (heq e)
  exact h

theorem blank (size : Nat) : (blank size).Collects size fun _ => False where
  size_eq := Array.size_replicate
  holds s hs := ⟨∅, ∅, by simp [SuffixTries.blank, hs], .empty, by simp⟩

theorem insert (h : tries.Collects size P) (s : State) (w : Word) :
    (tries.insert s w).Collects size fun e => P e ∨ e = (s, w) where
  size_eq := by rw [SuffixTries.insert, Array.size_modify, h.size_eq]
  holds u hu := by
    obtain ⟨t, S, ht, hS, hP⟩ := h.holds u hu
    by_cases heq : s = u
    · subst heq
      refine ⟨(t.insert w).2, Insert.insert w S, ?_, hS.insert w, fun v => ?_⟩
      · rw [SuffixTries.insert, Array.getElem?_modify, if_pos rfl, ht]
        rfl
      · rw [Finset.mem_insert, hP, Prod.mk.injEq, or_comm]
        simp
    · refine ⟨t, S, ?_, hS, fun v => ?_⟩
      · rw [SuffixTries.insert, Array.getElem?_modify, if_neg fun hi => heq (Handle.ext hi), ht]
      · rw [hP, Prod.mk.injEq]
        simp [Ne.symm heq]

theorem insertAll (h : tries.Collects size P) (s : State) (ws : List Word) :
    (tries.insertAll s ws).Collects size fun e => P e ∨ ∃ w ∈ ws, e = (s, w) :=
  foldl_adds (R := (Collects · size ·)) (fun w _ _ _ h => h.insert s w) h

theorem insertFor (h : tries.Collects size P) (states : List State) (w : Word) :
    (tries.insertFor states w).Collects size fun e => P e ∨ ∃ s ∈ states, e = (s, w) :=
  foldl_adds (R := (Collects · size ·)) (fun s _ _ _ h => h.insert s w) h

/-- What is taken from the tries in the order of the states. -/
theorem map_toList (h : tries.Collects size P) {γ : Type} {f : StoredTrie Input → γ} {g : State → γ}
    (heq : ∀ s : State, s.index < size → ∀ t S, t.Holds S → (∀ w, w ∈ S ↔ P (s, w)) → f t = g s) :
    tries.toList.map f = (Handle.range size).map g := by
  refine List.ext_getElem (by simp [h.size_eq]) fun k hk _ => ?_
  have hlt : k < size := by simpa [h.size_eq] using hk
  obtain ⟨t, S, ht, hS, hP⟩ := h.holds ⟨k⟩ hlt
  obtain ⟨_, rfl⟩ := Array.getElem?_eq_some_iff.mp ht
  simpa [Handle.range] using heq ⟨k⟩ hlt _ S hS hP

end Collects

end SuffixTries

/-- A node below another one has no states that the other one does not have. -/
theorem SplittingTree.Divides.subset_of_mem_preorder (ht : t.Divides M) {x : Nat}
    (hx : x ∈ t.preorder id) : t.states x ⊆ t.states id := by
  induction id using t.inductionOnChildren with
  | node id ih =>
    rcases Arena.mem_preorder.mp hx with rfl | ⟨c, hc, hx⟩
    · exact List.Subset.refl _
    · intro s hs
      exact ht.mem_of_mem_child hc (ih c hc hx hs)

/-- The node that splits two states of a node is below it. -/
theorem SplittingTree.Divides.mem_preorder_of_splits (ht : t.Divides M) {x : Nat} {u : State}
    (hid : id < t.size) (hs : s ∈ t.states id) (hu : u ∈ t.states id) (hsplit : t.Splits x s u) :
    x ∈ t.preorder id := by
  induction id using t.inductionOnChildren with
  | node id ih =>
    by_cases hl : t.isLeaf id
    · exact absurd hsplit (ht.not_splits_of_leaf (Arena.mem_leaves.mpr ⟨hid, hl⟩) hs hu)
    · obtain ⟨c, hc, hsc⟩ := ht.exists_child hl hs
      obtain ⟨d, hd, hud⟩ := ht.exists_child hl hu
      by_cases hcd : c = d
      · subst hcd
        exact Arena.mem_preorder.mpr
          (.inr ⟨c, hc, ih c hc (Arena.lt_size_of_mem_children hc) hsc hud⟩)
      · have hhere : t.Splits id s u := ⟨c, hc, d, hd, hcd, hsc, hud⟩
        exact Arena.mem_preorder.mpr (.inl (ht.splits_unique hsplit hhere))

namespace SeparatingFamily

section Trees

variable {marks : Marks} {among : State → Bool} {separators : List Word}

/-- A word that a state gets in a descent from a node: the state is in the set and in the node, and
the word is one of the separators that were there before, or that of a node with the state below it
that is marked more than once. -/
structure Receives (t : SplittingTree) (marks : Marks) (among : State → Bool) (id : Nat)
    (separators : List Word) (e : State × Word) : Prop where
  among : among e.1
  mem : e.1 ∈ t.states id
  word : e.2 ∈ separators ∨ ∃ x ∈ t.preorder id, ¬ t.isLeaf x ∧ e.1 ∈ t.states x ∧
    1 < marks.get x ∧ t.separator x = e.2

/-- In a leaf, the states get the separators that were there before. -/
theorem receives_leaf (hl : t.isLeaf id) {e : State × Word} :
    Receives t marks among id separators e ↔
      ∃ s ∈ (t.states id).filter among, ∃ w ∈ separators, e = (s, w) := by
  have hnone (x : Nat) (hx : x ∈ t.preorder id) : t.isLeaf x := by
    rw [Arena.preorder_eq, Arena.isLeaf_iff.mp hl, List.flatMap_nil, List.mem_singleton] at hx
    exact hx ▸ hl
  constructor
  · rintro ⟨hamong, hs, hw | ⟨x, hx, hlx, -⟩⟩
    · exact ⟨e.1, List.mem_filter.mpr ⟨hs, hamong⟩, e.2, hw, rfl⟩
    · exact absurd (hnone x hx) hlx
  · rintro ⟨s, hs, w, hw, rfl⟩
    obtain ⟨hs, hamong⟩ := List.mem_filter.mp hs
    exact ⟨hamong, hs, .inl hw⟩

/-- In an inner node, a state gets what it gets in its child, with the separator of the node if the
node is marked more than once. -/
theorem receives_inner (ht : t.Divides M) (hl : ¬ t.isLeaf id) {e : State × Word} :
    Receives t marks among id separators e ↔ ∃ c ∈ t.children id, Receives t marks among c
      (if 1 < marks.get id then separators ++ [t.separator id] else separators) e := by
  constructor
  · rintro ⟨hamong, hs, hw⟩
    obtain ⟨c, hc, hsc⟩ := ht.exists_child hl hs
    refine ⟨c, hc, hamong, hsc, ?_⟩
    rcases hw with hw | ⟨x, hx, hlx, hsx, hmark, heq⟩
    · refine .inl ?_
      split
      · exact List.mem_append_left _ hw
      · exact hw
    · rcases Arena.mem_preorder.mp hx with rfl | ⟨d, hd, hx⟩
      · rw [if_pos hmark, heq]
        exact .inl (List.mem_append_right _ (List.mem_singleton_self _))
      · obtain rfl := ht.child_unique hc hd hsc (ht.subset_of_mem_preorder hx hsx)
        exact .inr ⟨x, hx, hlx, hsx, hmark, heq⟩
  · rintro ⟨c, hc, hamong, hsc, hw⟩
    have hs := ht.mem_of_mem_child hc hsc
    refine ⟨hamong, hs, ?_⟩
    rcases hw with hw | ⟨x, hx, hrest⟩
    · split at hw
      next hmark =>
        rcases List.mem_append.mp hw with hw | hw
        · exact .inl hw
        · have heq := (List.mem_singleton.mp hw).symm
          exact .inr ⟨id, Arena.mem_preorder.mpr (.inl rfl), hl, hs, hmark, heq⟩
      next => exact .inl hw
    · exact .inr ⟨x, Arena.mem_preorder.mpr (.inr ⟨c, hc, hx⟩), hrest⟩

/-- A descent adds the words that the states get in it. -/
theorem collects_collect (ht : t.Divides M) (h : tries.Collects size P) :
    (collect t marks among id separators tries).Collects size fun e =>
      P e ∨ Receives t marks among id separators e := by
  induction id using t.inductionOnChildren generalizing separators tries P with
  | node id ih =>
    rw [collect]
    split
    next hl =>
      have hpass : ∀ s ∈ (t.states id).filter among, ∀ tries P, SuffixTries.Collects tries size P →
          SuffixTries.Collects (tries.insertAll s separators) size
            fun e => P e ∨ ∃ w ∈ separators, e = (s, w) :=
        fun s _ _ _ h => h.insertAll s separators
      exact (foldl_adds hpass h).congr fun e => or_congr_right (receives_leaf hl).symm
    next hl =>
      let inside := if 1 < marks.get id then separators ++ [t.separator id] else separators
      have hpass : ∀ c ∈ (t.children id).attach, ∀ tries P, SuffixTries.Collects tries size P →
          (collect t marks among c.1 inside tries).Collects size
            fun e => P e ∨ Receives t marks among c.1 inside e :=
        fun c _ _ _ h => ih c.1 c.2 h
      refine (foldl_adds hpass h).congr fun e => or_congr_right ?_
      rw [receives_inner ht hl]
      constructor
      · rintro ⟨c, -, hreceives⟩
        exact ⟨c.1, c.2, hreceives⟩
      · rintro ⟨c, hc, hreceives⟩
        exact ⟨⟨c, hc⟩, List.mem_attach _ _, hreceives⟩

/-- The words that a leaf adds if they come from a tree: the word that leads to it, and the
separators of the nodes that split two of its states. -/
theorem collects_addLeafOfTree (ht : t.Divides M) (hstates : ∀ s ∈ states, s ∈ M.states)
    (w : Word) {gathered : SuffixTries × Marks} (h : gathered.1.Collects size P) :
    (addLeafOfTree t states w gathered).1.Collects size fun e => P e ∨ (e.1 ∈ states ∧
      (e.2 = w ∨ ∃ u ∈ states, ∃ x, t.Splits x e.1 u ∧ t.separator x = e.2)) := by
  have hpaths := h.insertFor states w
  rw [addLeafOfTree]
  split
  next hshort =>
    refine hpaths.congr fun e => or_congr_right ?_
    constructor
    · rintro ⟨s, hs, rfl⟩
      exact ⟨hs, .inl rfl⟩
    · rintro ⟨hs, hw | ⟨u, hu, x, hsplit, -⟩⟩
      · exact ⟨e.1, hs, Prod.ext rfl hw⟩
      · exact absurd (AdaptiveSequence.two_le_length_of_splits ht hs hu hsplit)
          (Nat.not_le.mpr hshort)
  next hlong =>
    obtain ⟨s₀, hs₀⟩ := List.exists_mem_of_length_pos (by omega : 0 < states.length)
    obtain ⟨hid, hall, -⟩ := ht.lowestCommonAncestor_spec gathered.2
      (p := (states.contains ·)) ⟨s₀, hstates s₀ hs₀, List.contains_iff_mem.mpr hs₀⟩
    have hbelow (s : State) (hs : s ∈ states) :=
      hall s (hstates s hs) (List.contains_iff_mem.mpr hs)
    refine (collects_collect ht hpaths).congr fun e => ?_
    rw [or_assoc]
    refine or_congr_right ?_
    constructor
    · rintro (⟨s, hs, rfl⟩ | ⟨hs, hin, hw | ⟨x, -, hl, hsx, hmark, heq⟩⟩)
      · exact ⟨hs, .inl rfl⟩
      · cases hw
      · obtain ⟨u, hu, hsplit⟩ := (ht.one_lt_mark_iff gathered.2 hl hsx hs).mp hmark
        exact ⟨List.contains_iff_mem.mp hs, .inr ⟨u, List.contains_iff_mem.mp hu, x, hsplit, heq⟩⟩
    · rintro ⟨hs, hw | ⟨u, hu, x, hsplit, heq⟩⟩
      · exact .inl ⟨e.1, hs, Prod.ext rfl hw⟩
      · have hsx := ht.mem_of_splits hsplit
        refine .inr ⟨List.contains_iff_mem.mpr hs, hbelow _ hs, .inr ⟨x, ?_, hsplit.not_isLeaf, hsx,
          ?_, heq⟩⟩
        · exact ht.mem_preorder_of_splits hid (hbelow _ hs) (hbelow u hu) hsplit
        · exact (ht.one_lt_mark_iff gathered.2 hsplit.not_isLeaf hsx
            (List.contains_iff_mem.mpr hs)).mpr ⟨u, List.contains_iff_mem.mpr hu, hsplit⟩

end Trees

/-- The words that a state meets at the leaves of the sequence are those of its own leaf. -/
theorem exists_leaf_iff (h : a.Describes M) (hs : s ∈ M.states) {Q : List State → Word → Prop} :
    (∃ node ∈ a.leavesWithWord, s ∈ a.initials node.1 ∧ Q (a.initials node.1) node.2) ↔
      ∃ p, a.pathWord? s = some p ∧ Q (a.companions s) p := by
  obtain ⟨leaf, hleaf, hof, hp, hmem⟩ := h.exists_ending hs
  have hcompanions := AdaptiveSequence.companions_of_leafOf hof
  constructor
  · rintro ⟨⟨other, w⟩, hnode, hin, hQ⟩
    obtain ⟨hother, rfl⟩ := h.mem_leavesWithWord.mp hnode
    obtain rfl : leaf = other := Option.some.inj (hof.symm.trans (h.leafOf?_of_mem hother hin))
    exact ⟨_, hp, hcompanions ▸ hQ⟩
  · rintro ⟨p, hp', hQ⟩
    obtain rfl := Option.some.inj (hp.symm.trans hp')
    exact ⟨(leaf, a.wordAbove leaf), h.mem_leavesWithWord.mpr ⟨hleaf, rfl⟩,
      List.mem_map_of_mem hmem, hcompanions ▸ hQ⟩

/-- The initial states of a leaf are states of the machine. -/
theorem mem_states_of_mem_initials (h : a.Describes M) {node : Nat × Word}
    (hnode : node ∈ a.leavesWithWord) : ∀ s ∈ a.initials node.1, s ∈ M.states := by
  intro s hs
  obtain ⟨y, hy, rfl⟩ := List.mem_map.mp hs
  have hleaf : node.1 ∈ a.leaves ∧ node.2 = a.wordAbove node.1 := h.mem_leavesWithWord.mp hnode
  exact (h.mem_states (Arena.mem_leaves.mp hleaf.1).1 hy).2

theorem get?_map {g : State → Suffixes} {size : Nat} (hs : s.index < size) :
    get? ⟨(Handle.range size).map g⟩ s = some (g s) := by
  simp [get?, Handle.range, hs]

/-- The family that takes words from a tree: for every state, its path word and the words for its
companions. -/
theorem ofTree_eq (h : a.Describes M) (ht : t.Divides M) :
    ofTree a t = ⟨M.states.map fun s =>
      let ws := maximalWords ((a.pathWord? s).toList ++ a.treeWords t s)
      ⟨ws, ws⟩⟩ := by
  have hblank : (SuffixTries.blank a.stateCount, (∅ : Marks)).1.Collects M.stateCount
      fun _ => False := by
    rw [h.stateCount_eq]
    exact .blank _
  have hpass : ∀ node ∈ a.leavesWithWord, ∀ (gathered : SuffixTries × Marks) P,
      gathered.1.Collects M.stateCount P →
      (addLeafOfTree t (a.initials node.1) node.2 gathered).1.Collects M.stateCount fun e => P e ∨
        (e.1 ∈ a.initials node.1 ∧ (e.2 = node.2 ∨
          ∃ u ∈ a.initials node.1, ∃ x, t.Splits x e.1 u ∧ t.separator x = e.2)) :=
    fun node hnode _ _ h' =>
      collects_addLeafOfTree ht (mem_states_of_mem_initials h hnode) node.2 h'
  have hadded := foldl_adds hpass hblank
  rw [ofTree]
  congr 1
  refine hadded.map_toList fun s hs trie S hS hP => ?_
  have hs := Machine.mem_states.mpr hs
  have hown : trie.maximalWords = maximalWords ((a.pathWord? s).toList ++ a.treeWords t s) := by
    refine maximalWords_eq_of_holds hS fun w => ?_
    have hleaf := exists_leaf_iff h hs (Q := fun states p =>
      w = p ∨ ∃ u ∈ states, ∃ x, t.Splits x s u ∧ t.separator x = w)
    rw [hP, false_or, hleaf, List.mem_append, Option.mem_toList,
      AdaptiveSequence.mem_treeWords_iff ht hs (h.companions_spec hs).1]
    obtain ⟨leaf, -, -, hp, -⟩ := h.exists_ending hs
    rw [hp]
    simp [eq_comm]
  rw [hown]

section Matrices

variable {m : SeparatingMatrix} {g : Gathered} {A : (State × Word) ⊕ (State × Word) → Prop}
  {u : State}

/-- The tries have the words that `A` gives to the states: `Sum.inl` for the words that lead to
leaves, and `Sum.inr` for separating words. All separating words are in the common trie, and the
states that have some are known. -/
structure Gathered.Collects (g : Gathered) (size : Nat)
    (A : (State × Word) ⊕ (State × Word) → Prop) : Prop where
  own : g.own.Collects size fun e => A (.inl e) ∨ A (.inr e)
  all : ∃ S, g.all.Holds S ∧ ∀ w, w ∈ S ↔ ∃ s, A (.inr (s, w))
  size_needy : g.needy.size = size
  needy : ∀ s : State, g.needy[s.index]? = some true ↔ ∃ w, A (.inr (s, w))

namespace Gathered.Collects

theorem blank (size : Nat) : (Gathered.blank size).Collects size fun _ => False where
  own := (SuffixTries.Collects.blank size).congr (by simp)
  all := ⟨∅, .empty, by simp⟩
  size_needy := Array.size_replicate
  needy s := by simp [Gathered.blank, Array.getElem?_replicate]

theorem congr {B : (State × Word) ⊕ (State × Word) → Prop} (h : g.Collects size A)
    (heq : ∀ e, A e ↔ B e) : g.Collects size B := by
  obtain rfl : A = B := funext fun e => propext (heq e)
  exact h

/-- A state gets the word that separates it from another one, unless that is the empty word. -/
theorem separate (h : g.Collects size A) (hs : s.index < size) (hget : m.get s u = .ok w) :
    ∃ g', separate m s g u = .ok g' ∧
      g'.Collects size fun i => A i ∨ (w ≠ [] ∧ i = .inr (s, w)) := by
  rw [Gathered.separate, hget]
  by_cases hw : w = []
  · exact ⟨g, by simp [hw, bind, Except.bind, pure, Except.pure], h.congr (by simp [hw])⟩
  · refine ⟨_, by simp [hw, bind, Except.bind, pure, Except.pure]; rfl, ?_, ?_, ?_, ?_⟩
    · refine (h.own.insert s w).congr fun e => ?_
      simp [hw, or_assoc]
    · obtain ⟨S, hS, hall⟩ := h.all
      refine ⟨Insert.insert w S, hS.insert w, fun v => ?_⟩
      rw [Finset.mem_insert, hall]
      simp only [Sum.inr.injEq, Prod.mk.injEq, exists_or]
      simp [hw, or_comm]
    · rw [Array.size_setIfInBounds, h.size_needy]
    · intro x
      simp only [Sum.inr.injEq, Prod.mk.injEq, exists_or, ← h.needy]
      by_cases heq : s = x
      · subst heq
        simp [h.size_needy, hs, hw]
      · rw [Array.getElem?_setIfInBounds_ne fun hi => heq (Handle.ext hi)]
        simp [Ne.symm heq]

/-- The words that a leaf adds if they come from a matrix: the word that leads to it, and for every
two of its states their word, unless it is empty. -/
theorem addLeaf (h : g.Collects size A) (hm : m.size = size)
    (hstates : ∀ s ∈ states, s.index < size) (w : Word) :
    ∃ g', addLeaf m g states w = .ok g' ∧ g'.Collects size fun i => A i ∨
      i.elim (fun e => e.1 ∈ states ∧ e.2 = w)
        fun e => e.1 ∈ states ∧ ∃ u ∈ states, u ≠ e.1 ∧ m.wordOf e.1 u = e.2 ∧ e.2 ≠ [] := by
  have hpaths : Gathered.Collects { g with own := g.own.insertFor states w } size fun i => A i ∨
      ∃ s ∈ states, i = .inl (s, w) := {
    own := (h.own.insertFor states w).congr fun e => by simp [or_right_comm]
    all := by simpa using h.all
    size_needy := h.size_needy
    needy := by simpa using h.needy }
  have hpass : ∀ s ∈ states, ∀ (g : Gathered) A, g.Collects size A →
      ∃ g', (states.filter (· ≠ s)).foldlM (Gathered.separate m s) g = .ok g' ∧
        g'.Collects size fun i => A i ∨ ∃ u ∈ states.filter (· ≠ s),
          (m.wordOf s u ≠ [] ∧ i = .inr (s, m.wordOf s u)) := by
    intro s hs g A h
    refine exists_foldlM_adds (fun u hu g A h => ?_) h
    have hu := (List.mem_filter.mp hu).1
    exact h.separate (hstates s hs)
      (SeparatingMatrix.get_eq (hm ▸ hstates s hs) (hm ▸ hstates u hu))
  obtain ⟨g', hok, hadded⟩ := exists_foldlM_adds hpass hpaths
  refine ⟨g', hok, hadded.congr ?_⟩
  rintro (⟨s, v⟩ | ⟨s, v⟩)
  · simp
  · simp only [List.mem_filter, decide_eq_true_eq, Sum.elim_inr, Sum.inr.injEq, Prod.mk.injEq,
      reduceCtorEq, and_false, exists_false, or_false]
    refine or_congr_right ⟨?_, ?_⟩
    · rintro ⟨_, hs, u, ⟨hu, hne⟩, hw, rfl, rfl⟩
      exact ⟨hs, u, hu, hne, rfl, hw⟩
    · rintro ⟨hs, u, hu, hne, rfl, hw⟩
      exact ⟨s, hs, u, ⟨hu, hne⟩, hw, rfl, rfl⟩

end Gathered.Collects

/-- The maximal words of a trie to which all separating words are added. -/
theorem Gathered.Collects.maximalWords_fold (h : g.Collects size A) {own : StoredTrie Input}
    {T : Finset Word} {ws others : List Word} (hT : own.Holds T) (hws : ∀ w, w ∈ T ↔ w ∈ ws)
    (hothers : ∀ w, (∃ s, A (.inr (s, w))) ↔ w ∈ others) :
    (g.all.fold (fun t w => (t.insert w).2) own).maximalWords =
      maximalWords (ws ++ (Trie.ofList others).words) := by
  obtain ⟨S, hS, hall⟩ := h.all
  have hadded : (own.insertAll g.all.words).Holds (T ∪ g.all.words.toFinset) :=
    hT.insertAll g.all.words
  rw [hS.fold_eq]
  refine maximalWords_eq_of_holds hadded fun w => ?_
  rw [Finset.mem_union, List.mem_toFinset, hS.words_spec.1, hall, hothers, hws, List.mem_append,
    Trie.mem_words_ofList]

/-- The family that is read off the tries, told state by state. -/
theorem Gathered.Collects.family_eq (h : g.Collects size A) {own separating : State → List Word}
    (hown : ∀ s : State, s.index < size → ∀ w, w ∈ own s ↔ A (.inl (s, w)) ∨ A (.inr (s, w)))
    (hsep : ∀ s w, A (.inr (s, w)) ↔ s.index < size ∧ w ∈ separating s) :
    g.family = ⟨(Handle.range size).map fun s =>
      { localWords := maximalWords (own s)
        globalWords := maximalWords <| if (separating s).isEmpty then own s
          else own s ++ (Trie.ofList ((Handle.range size).map separating).flatten).words }⟩ := by
  have hall (w : Word) :
      (∃ s, A (.inr (s, w))) ↔ w ∈ ((Handle.range size).map separating).flatten := by
    simp only [hsep, List.mem_flatten, List.mem_map, Handle.mem_range, exists_exists_and_eq_and]
  rw [family]
  congr 1
  refine List.ext_getElem (by simp [h.own.size_eq, h.size_needy]) fun k hk _ => ?_
  have hlt : k < size := by simpa [h.own.size_eq, h.size_needy] using hk
  obtain ⟨trie, T, htrie, hT, hP⟩ := h.own.holds ⟨k⟩ hlt
  obtain ⟨hkt, rfl⟩ := Array.getElem?_eq_some_iff.mp htrie
  have hwords (w : Word) : w ∈ T ↔ w ∈ own ⟨k⟩ := (hP w).trans (hown ⟨k⟩ hlt w).symm
  have hlocal := maximalWords_eq_of_holds hT hwords
  have hneedy : g.needy[k]? = some true ↔ (separating ⟨k⟩).isEmpty = false := by
    rw [h.needy ⟨k⟩, List.isEmpty_eq_false_iff_exists_mem]
    exact exists_congr fun w => (hsep ⟨k⟩ w).trans (and_iff_right hlt)
  rw [Array.getElem?_eq_getElem (h.size_needy ▸ hlt), Option.some.injEq] at hneedy
  simp only [Array.getElem_toList, Array.getElem_zipWith, List.getElem_map, Handle.getElem_range,
    Suffixes.mk.injEq]
  refine ⟨hlocal, ?_⟩
  cases hn : (separating ⟨k⟩).isEmpty with
  | true =>
    rw [if_neg (by simp [hneedy, hn]), if_pos rfl]
    exact hlocal
  | false =>
    rw [if_pos (hneedy.mpr hn), if_neg Bool.false_ne_true]
    exact h.maximalWords_fold hT hwords hall

/-- A leaf of a state leads to its path word. -/
theorem exists_leaf_pathWord_iff (h : a.Describes M) (hs : s ∈ M.states) :
    (∃ node ∈ a.leavesWithWord, s ∈ a.initials node.1 ∧ w = node.2) ↔
      w ∈ (a.pathWord? s).toList := by
  rw [exists_leaf_iff h hs (Q := fun _ p => w = p), Option.mem_toList]
  exact ⟨fun ⟨p, hp, heq⟩ => heq ▸ hp, fun hp => ⟨w, hp, rfl⟩⟩

/-- At its leaf, a state meets the entries for its companions. -/
theorem exists_leaf_entry_iff (h : a.Describes M) (hs : s ∈ M.states) :
    (∃ node ∈ a.leavesWithWord, s ∈ a.initials node.1 ∧ ∃ u ∈ a.initials node.1,
      u ≠ s ∧ m.wordOf s u = w ∧ w ≠ []) ↔ w ∈ a.entries m s := by
  obtain ⟨leaf, -, -, hp, -⟩ := h.exists_ending hs
  rw [AdaptiveSequence.mem_entries, exists_leaf_iff h hs
    (Q := fun states _ => ∃ u ∈ states, u ≠ s ∧ m.wordOf s u = w ∧ w ≠ []), hp]
  simp

/-- All leaves together add the path words and the entries of all states. -/
theorem exists_gathered (h : a.Describes M) (hm : m.size = M.stateCount) :
    ∃ g, a.leavesWithWord.foldlM (fun g (leaf, w) => Gathered.addLeaf m g (a.initials leaf) w)
        (Gathered.blank a.stateCount) = .ok g ∧
      g.Collects M.stateCount (Sum.elim
        (fun e => e.1 ∈ M.states ∧ e.2 ∈ (a.pathWord? e.1).toList)
        fun e => e.1 ∈ M.states ∧ e.2 ∈ a.entries m e.1) := by
  have hblank : (Gathered.blank a.stateCount).Collects M.stateCount fun _ => False := by
    rw [h.stateCount_eq]
    exact .blank _
  have hin (node : Nat × Word) (hnode : node ∈ a.leavesWithWord) (s : State)
      (hs : s ∈ a.initials node.1) : s ∈ M.states := mem_states_of_mem_initials h hnode s hs
  have hpass : ∀ node ∈ a.leavesWithWord, ∀ (g : Gathered) A, g.Collects M.stateCount A →
      ∃ g', Gathered.addLeaf m g (a.initials node.1) node.2 = .ok g' ∧
        g'.Collects M.stateCount fun i => A i ∨
          i.elim (fun e => e.1 ∈ a.initials node.1 ∧ e.2 = node.2)
            fun e => e.1 ∈ a.initials node.1 ∧ ∃ u ∈ a.initials node.1,
              u ≠ e.1 ∧ m.wordOf e.1 u = e.2 ∧ e.2 ≠ [] :=
    fun node hnode _ _ h' =>
      h'.addLeaf hm (fun s hs => Machine.mem_states.mp (hin node hnode s hs)) node.2
  obtain ⟨g, hok, hadded⟩ := exists_foldlM_adds hpass hblank
  refine ⟨g, hok, hadded.congr ?_⟩
  rintro (⟨s, w⟩ | ⟨s, w⟩) <;> simp only [false_or, Sum.elim_inl, Sum.elim_inr]
  · rw [← and_congr_right fun hs => exists_leaf_pathWord_iff h hs]
    exact (and_iff_right_of_imp fun ⟨node, hnode, hs, _⟩ => hin node hnode s hs).symm
  · rw [← and_congr_right fun hs => exists_leaf_entry_iff h hs]
    exact (and_iff_right_of_imp fun ⟨node, hnode, hs, _⟩ => hin node hnode s hs).symm

/-- The family that takes words from a matrix exists if the matrix is for the states of the
machine. -/
theorem ofMatrix_eq (h : a.Describes M) (hm : m.size = M.stateCount) :
    ofMatrix a m = .ok ⟨M.states.map fun s =>
      let own := (a.pathWord? s).toList ++ a.entries m s
      { localWords := maximalWords own
        globalWords := maximalWords <| if (a.entries m s).isEmpty then own
          else own ++ (Trie.ofList (M.states.map (a.entries m)).flatten).words }⟩ := by
  obtain ⟨g, hok, hwords⟩ := exists_gathered h hm
  have hown (s : State) (hs : s.index < M.stateCount) (w : Word) :
      w ∈ (a.pathWord? s).toList ++ a.entries m s ↔
        (s ∈ M.states ∧ w ∈ (a.pathWord? s).toList) ∨ (s ∈ M.states ∧ w ∈ a.entries m s) := by
    rw [← Machine.mem_states] at hs
    simp [hs]
  have hsep (s : State) (w : Word) : (s ∈ M.states ∧ w ∈ a.entries m s) ↔
      s.index < M.stateCount ∧ w ∈ a.entries m s := by rw [Machine.mem_states]
  rw [ofMatrix, hok]
  exact congrArg Except.ok (hwords.family_eq hown hsep)

end Matrices

end SeparatingFamily

end StateIdentification
