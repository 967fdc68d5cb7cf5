import StateIdentification.Partition.Refine

/-!
# Contents of a partition

A partition stores its blocks as linked lists in one pool of links. Here a partition is related to
the plain lists of members that it stands for, and splitting a block is described by these lists.

## Main definitions

- `Partition.Chain`: following the links runs through a list.
- `Partition.Linked`: the links and the two ends of a block describe a list.
- `Partition.Holds`: what a partition stands for, a list of members for every live block.

## Main results

- `Partition.Holds.members`: a live block has the members that it stands for.
- `Partition.Holds.append`, `Partition.Holds.addBlock`, `Partition.Holds.retire`: what becomes of
  the lists if a partition changes.
- `Partition.Holds.refine`: splitting a block replaces its members by their classes.
-/

namespace StateIdentification.Partition

/-- Following the links from each member leads to the next one, and from the last one to `stop`. -/
def Chain (links : Array (Option Nat)) : List Nat → Option Nat → Prop
  | [], _ => True
  | e :: es, stop => links[e]? = some (es.head?.or stop) ∧ Chain links es stop

theorem chain_append {links : Array (Option Nat)} {es fs : List Nat} {stop : Option Nat} :
    Chain links (es ++ fs) stop ↔ Chain links es (fs.head?.or stop) ∧ Chain links fs stop := by
  induction es with
  | nil => simp [Chain]
  | cons e es ih =>
    have : (es ++ fs).head?.or stop = es.head?.or (fs.head?.or stop) := by
      cases es <;> simp
    simp only [List.cons_append, Chain, this, ih, and_assoc]

/-- Only the links of the members matter. -/
theorem Chain.congr {links links' : Array (Option Nat)} {es : List Nat} {stop : Option Nat}
    (h : Chain links es stop) (eq : ∀ e ∈ es, links'[e]? = links[e]?) : Chain links' es stop := by
  induction es with
  | nil => trivial
  | cons e es ih =>
    exact ⟨(eq e List.mem_cons_self).trans h.1, ih h.2 fun f hf => eq f (List.mem_cons_of_mem _ hf)⟩

/-- If the last member of a list is linked to something else, the list leads there. -/
theorem Chain.relink {links : Array (Option Nat)} {es : List Nat} {last : Nat}
    (h : Chain links es none) (nodup : es.Nodup) (hlast : es.getLast? = some last)
    (stop : Option Nat) : Chain (links.setIfInBounds last stop) es stop := by
  obtain ⟨init, rfl⟩ := List.getLast?_eq_some_iff.mp hlast
  obtain ⟨hinit, hold, -⟩ := chain_append.mp h
  obtain ⟨hlt, -⟩ := Array.getElem?_eq_some_iff.mp hold
  refine chain_append.mpr ⟨hinit.congr fun e he => ?_, ?_, trivial⟩
  · have hne : last ≠ e := by grind
    rw [Array.getElem?_setIfInBounds_ne hne]
  · simp [hlt]

/-- Following the links from the first member gives all of them. -/
theorem Chain.walk {links : Array (Option Nat)} {es : List Nat} (h : Chain links es none) :
    walk links es.length es.head? = es := by
  induction es with
  | nil => rfl
  | cons e es ih => simp [Partition.walk, h.1, ih h.2]

/-- The list of a block: both ends, the length, and the links in both directions. -/
structure Linked (p : Partition) (block : Block) (es : List Nat) : Prop where
  head : block.head = es.head?
  tail : block.tail = es.getLast?
  size : block.size = es.length
  next : Chain p.next es none
  prev : Chain p.prev es.reverse none

theorem Linked.memberList {p : Partition} {block : Block} {es : List Nat} (h : p.Linked block es) :
    p.memberList block = es := by
  rw [Partition.memberList, h.size, h.head, h.next.walk]

theorem Linked.congr {p q : Partition} {block : Block} {es : List Nat} (h : p.Linked block es)
    (next : ∀ e ∈ es, q.next[e]? = p.next[e]?) (prev : ∀ e ∈ es, q.prev[e]? = p.prev[e]?) :
    q.Linked block es :=
  ⟨h.head, h.tail, h.size, h.next.congr next,
    h.prev.congr fun e he => prev e (List.mem_reverse.mp he)⟩

section Append

variable {p : Partition} {b e f : Nat} {block : Block}

theorem next_append_of_ne (hb : p.blocks[b]? = some block) (hf : f ≠ e)
    (ht : block.tail ≠ some f) : (p.append b e).next[f]? = p.next[f]? := by
  simp only [append, hb]
  cases hl : block.tail with
  | none => simp [Ne.symm hf]
  | some last => grind

theorem prev_append_of_ne (hb : p.blocks[b]? = some block) (hf : f ≠ e) :
    (p.append b e).prev[f]? = p.prev[f]? := by
  simp [append, hb, Ne.symm hf]

theorem blockOf_append_of_ne (hb : p.blocks[b]? = some block) (hf : f ≠ e) :
    (p.append b e).blockOf[f]? = p.blockOf[f]? := by
  simp [append, hb, Ne.symm hf]

@[simp]
theorem universeSize_append (p : Partition) (b e : Nat) :
    (p.append b e).universeSize = p.universeSize := by
  simp only [append, universeSize]
  split <;> simp

theorem size_next_append (p : Partition) (b e : Nat) :
    (p.append b e).next.size = p.next.size := by
  simp only [append]
  split
  · rfl
  · dsimp only
    split <;> simp

/-- The block to which an element is appended has a longer list. -/
theorem Linked.append {es : List Nat} (h : p.Linked block es) (hb : p.blocks[b]? = some block)
    (hnext : e < p.next.size) (hprev : e < p.prev.size) (nodup : es.Nodup) (free : e ∉ es) :
    (p.append b e).Linked
      { block with head := block.head.or (some e), tail := some e, size := block.size + 1 }
      (es ++ [e]) := by
  have ne_of_mem {f : Nat} (hf : f ∈ es) : f ≠ e := fun heq => free (heq ▸ hf)
  constructor
  · cases es <;> simp [h.head]
  · simp
  · simp [h.size]
  · refine chain_append.mpr ⟨?_, ?_, trivial⟩
    · -- only the link of the last member is new
      have unchanged : Chain (p.next.setIfInBounds e none) es none :=
        h.next.congr fun f hf => Array.getElem?_setIfInBounds_ne (Ne.symm (ne_of_mem hf))
      simp only [Partition.append, hb, h.tail]
      cases hlast : es.getLast? with
      | none =>
        rw [List.getLast?_eq_none_iff.mp hlast]
        trivial
      | some last => exact unchanged.relink nodup hlast (some e)
    · simp only [Partition.append, hb]
      have : block.tail ≠ some e := fun ht => free (List.mem_of_getLast? (h.tail ▸ ht))
      cases hl : block.tail <;> grind
  · rw [List.reverse_append, List.reverse_singleton, List.singleton_append]
    refine ⟨?_, h.prev.congr fun f hf => ?_⟩
    · simp [Partition.append, hb, hprev, h.tail]
    · exact prev_append_of_ne hb (ne_of_mem (List.mem_reverse.mp hf))

end Append

/-- An entry after one entry is replaced is the new one, or an old one at another place. -/
theorem entry_set {contents : List (Option (List Nat))} {b c : Nat}
    {new value : Option (List Nat)} (hc : (contents.set b new)[c]? = some value) :
    (b = c ∧ value = new) ∨ (b ≠ c ∧ contents[c]? = some value) := by
  by_cases hbc : b = c
  · subst hbc
    rw [List.getElem?_set_self'] at hc
    obtain ⟨_, -, heq⟩ := Option.map_eq_some_iff.mp hc
    exact .inl ⟨rfl, heq.symm⟩
  · exact .inr ⟨hbc, by rwa [List.getElem?_set_ne hbc] at hc⟩

/-- An entry after a new one is added at the end is an old one or the new one. -/
theorem entry_concat {contents : List (Option (List Nat))} {c : Nat}
    {new value : Option (List Nat)} (hc : (contents ++ [new])[c]? = some value) :
    contents[c]? = some value ∨ (c = contents.length ∧ value = new) := by
  rcases Nat.lt_or_ge c contents.length with hlt | hge
  · exact .inl (by rwa [List.getElem?_append_left hlt] at hc)
  · rw [List.getElem?_append_right hge, List.getElem?_singleton] at hc
    split at hc
    case isTrue hzero => exact .inr ⟨by omega, (Option.some.inj hc).symm⟩
    case isFalse => cases hc

/-- A partition stands for `contents`: for every block the list of its members, or nothing if the
block is not in use. -/
structure Holds (p : Partition) (contents : List (Option (List Nat))) : Prop where
  size_next : p.next.size = p.universeSize
  size_prev : p.prev.size = p.universeSize
  size_blocks : p.blocks.size = contents.length
  linked : ∀ {b : Nat} {es : List Nat}, contents[b]? = some (some es) →
    ∃ block, p.blocks[b]? = some block ∧ block.live ∧ p.Linked block es
  nodup : ∀ {b : Nat} {es : List Nat}, contents[b]? = some (some es) → es.Nodup
  owner : ∀ {b e : Nat} {es : List Nat},
    contents[b]? = some (some es) → e ∈ es → p.blockOf[e]? = some b
  retired : ∀ {b : Nat}, contents[b]? = some none →
    ∃ block, p.blocks[b]? = some block ∧ ¬ block.live

theorem liveBlock_of_not_isLive {p : Partition} {b : Nat} (h : ¬ p.isLive b) :
    p.liveBlock b = .error (.staleBlock b) := by
  rw [liveBlock]
  split
  case h_1 block heq => exact if_neg (by simpa [isLive, heq] using h)
  case h_2 => rfl

theorem members_of_not_isLive {p : Partition} {b : Nat} (h : ¬ p.isLive b) :
    p.members b = .error (.staleBlock b) := by
  rw [members, liveBlock_of_not_isLive h]
  rfl

namespace Holds

variable {p : Partition} {contents : List (Option (List Nat))} {b e : Nat} {es : List Nat}

theorem mem_universe (h : p.Holds contents) (hb : contents[b]? = some (some es)) (he : e ∈ es) :
    e < p.universeSize :=
  (Array.getElem?_eq_some_iff.mp (h.owner hb he)).1

/-- Different blocks have no member in common. -/
theorem disjoint (h : p.Holds contents) {c : Nat} {fs : List Nat}
    (hb : contents[b]? = some (some es)) (hc : contents[c]? = some (some fs)) (he : e ∈ es)
    (hf : e ∈ fs) : b = c :=
  Option.some.inj ((h.owner hb he).symm.trans (h.owner hc hf))

/-- A live block has the members that it stands for. -/
theorem members (h : p.Holds contents) (hb : contents[b]? = some (some es)) :
    p.members b = .ok es := by
  obtain ⟨block, hblock, live, linked⟩ := h.linked hb
  simp [Partition.members, liveBlock, hblock, live, Except.map, linked.memberList]

/-- A live block counts the members that it stands for. -/
theorem size_eq (h : p.Holds contents) (hb : contents[b]? = some (some es)) :
    p.size b = .ok es.length := by
  obtain ⟨block, hblock, live, linked⟩ := h.linked hb
  simp [Partition.size, liveBlock, hblock, live, Except.map, linked.size]

/-- The live blocks are those that stand for a list. -/
theorem isLive_iff (h : p.Holds contents) : p.isLive b ↔ ∃ es, contents[b]? = some (some es) := by
  rw [isLive]
  match hb : contents[b]? with
  | none =>
    have hblock : p.blocks[b]? = none := by
      rw [Array.getElem?_eq_none_iff, h.size_blocks]
      exact List.getElem?_eq_none_iff.mp hb
    simp [hblock]
  | some none =>
    obtain ⟨block, hblock, hlive⟩ := h.retired hb
    simp [hblock, hlive]
  | some (some es) =>
    obtain ⟨block, hblock, hlive, -⟩ := h.linked hb
    simp [hblock, hlive]

/-- The members of a block are those that it stands for, and only a live one has any. -/
theorem members_eq_ok_iff (h : p.Holds contents) :
    p.members b = .ok es ↔ contents[b]? = some (some es) := by
  constructor
  · intro hb
    by_cases hlive : p.isLive b
    · obtain ⟨fs, hfs⟩ := h.isLive_iff.mp hlive
      obtain rfl := Except.ok.inj ((h.members hfs).symm.trans hb)
      exact hfs
    · rw [members_of_not_isLive hlive] at hb
      cases hb
  · exact h.members

/-- Behind its last member, a block takes any element that no block has. -/
theorem append (h : p.Holds contents) (hb : contents[b]? = some (some es))
    (he : e < p.universeSize)
    (free : ∀ {c : Nat} {fs : List Nat}, contents[c]? = some (some fs) → e ∉ fs) :
    (p.append b e).Holds (contents.set b (some (es ++ [e]))) := by
  obtain ⟨block, hblock, live, linked⟩ := h.linked hb
  have hlt : b < contents.length := (List.getElem?_eq_some_iff.mp hb).1
  have ne_of_mem {c f : Nat} {fs : List Nat} (hc : contents[c]? = some (some fs)) (hf : f ∈ fs) :
      f ≠ e := fun heq => free hc (heq ▸ hf)
  constructor
  · rw [size_next_append, universeSize_append, h.size_next]
  · simpa [Partition.append, hblock, universeSize] using h.size_prev
  · simpa [Partition.append, hblock] using h.size_blocks
  · intro c fs hc
    rcases entry_set hc with ⟨rfl, heq⟩ | ⟨hbc, hc⟩
    · cases heq
      have hnew := getElem?_blocks_append (e := e) hblock b
      rw [if_pos rfl] at hnew
      exact ⟨_, hnew, live, linked.append hblock
        (h.size_next.symm ▸ he) (h.size_prev.symm ▸ he) (h.nodup hb) (free hb)⟩
    · obtain ⟨other, hother, hlive, hlinked⟩ := h.linked hc
      refine ⟨other, ?_, hlive, hlinked.congr (fun f hf => ?_) fun f hf => ?_⟩
      · rw [getElem?_blocks_append hblock, if_neg hbc, hother]
      · exact next_append_of_ne hblock (ne_of_mem hc hf) fun ht =>
          hbc (h.disjoint hb hc (List.mem_of_getLast? (linked.tail ▸ ht)) hf)
      · exact prev_append_of_ne hblock (ne_of_mem hc hf)
  · intro c fs hc
    rcases entry_set hc with ⟨rfl, heq⟩ | ⟨hbc, hc⟩
    · cases heq
      have := h.nodup hb
      have := free hb
      grind
    · exact h.nodup hc
  · intro c f fs hc hf
    rcases entry_set hc with ⟨rfl, heq⟩ | ⟨hbc, hc⟩
    · cases heq
      rcases List.mem_append.mp hf with hf | hf
      · exact (blockOf_append_of_ne hblock (ne_of_mem hb hf)).trans (h.owner hb hf)
      · obtain rfl := List.mem_singleton.mp hf
        have : f < p.blockOf.size := he
        simp [Partition.append, hblock, this]
    · exact (blockOf_append_of_ne hblock (ne_of_mem hc hf)).trans (h.owner hc hf)
  · intro c hc
    rcases entry_set hc with ⟨rfl, heq⟩ | ⟨hbc, hc⟩
    · cases heq
    · obtain ⟨other, hother, hlive⟩ := h.retired hc
      exact ⟨other, by rw [getElem?_blocks_append hblock, if_neg hbc, hother], hlive⟩

/-- Behind its last member, a block takes any elements that no block has, one after the other. -/
theorem appendAll (h : p.Holds contents) (hb : contents[b]? = some (some es)) {fs : List Nat}
    (nodup : fs.Nodup) (known : ∀ f ∈ fs, f < p.universeSize)
    (free : ∀ {c : Nat} {gs : List Nat}, contents[c]? = some (some gs) → ∀ f ∈ fs, f ∉ gs) :
    (fs.foldl (fun q f => q.append b f) p).Holds (contents.set b (some (es ++ fs))) := by
  obtain ⟨hlt, heq⟩ := List.getElem?_eq_some_iff.mp hb
  induction fs generalizing p contents es with
  | nil => rwa [List.append_nil, ← heq, List.set_getElem_self]
  | cons f fs ih =>
    obtain ⟨hf, hfs⟩ := List.nodup_cons.mp nodup
    obtain ⟨hknown, hrest⟩ := List.forall_mem_cons.mp known
    have hfirst := h.append hb hknown fun hc => free hc f List.mem_cons_self
    have hb' : (contents.set b (some (es ++ [f])))[b]? = some (some (es ++ [f])) :=
      List.getElem?_set_self hlt
    have hlt' : b < (contents.set b (some (es ++ [f]))).length := by rwa [List.length_set]
    have hall := ih hfirst hb' hfs (by simpa using hrest) (fun {c gs} hc g hg hm => by
      rcases entry_set hc with ⟨-, heq⟩ | ⟨-, hc⟩
      · cases heq
        rcases List.mem_append.mp hm with hm | hm
        · exact free hb g (List.mem_cons_of_mem _ hg) hm
        · exact hf (List.mem_singleton.mp hm ▸ hg)
      · exact free hc g (List.mem_cons_of_mem _ hg) hm) hlt' (by simp)
    rwa [List.set_set, ← List.append_cons] at hall

/-- A block without members is added at the end. -/
theorem push_empty (h : p.Holds contents) :
    Holds { p with blocks := p.blocks.push .empty } (contents ++ [some []]) := by
  constructor
  · exact h.size_next
  · exact h.size_prev
  · simp [h.size_blocks]
  · intro c es hc
    rcases entry_concat hc with hc | ⟨rfl, heq⟩
    · obtain ⟨block, hblock, live, linked⟩ := h.linked hc
      exact ⟨block, by grind, live, linked.congr (fun _ _ => rfl) fun _ _ => rfl⟩
    · cases heq
      exact ⟨.empty, by simp [← h.size_blocks], rfl, rfl, rfl, rfl, trivial, trivial⟩
  · intro c es hc
    rcases entry_concat hc with hc | ⟨-, heq⟩
    · exact h.nodup hc
    · cases heq
      exact List.nodup_nil
  · intro c e es hc he
    rcases entry_concat hc with hc | ⟨-, heq⟩
    · exact h.owner hc he
    · cases heq
      cases he
  · intro c hc
    rcases entry_concat hc with hc | ⟨-, heq⟩
    · obtain ⟨block, hblock, hlive⟩ := h.retired hc
      exact ⟨block, by grind, hlive⟩
    · cases heq

/-- A new block takes any elements that no block has. -/
theorem addBlock (h : p.Holds contents) {fs : List Nat} (nodup : fs.Nodup)
    (known : ∀ f ∈ fs, f < p.universeSize)
    (free : ∀ {c : Nat} {es : List Nat}, contents[c]? = some (some es) → ∀ f ∈ fs, f ∉ es) :
    (p.addBlock fs).Holds (contents ++ [some fs]) := by
  have new : (contents ++ [some []])[p.blocks.size]? = some (some []) := by
    simp [h.size_blocks]
  have hall := h.push_empty.appendAll new nodup known fun {c es} hc f hf => by
    rcases entry_concat hc with hc | ⟨-, heq⟩
    · exact free hc f hf
    · cases heq
      exact List.not_mem_nil
  rwa [h.size_blocks, List.set_append_right _ _ (Nat.le_refl _), Nat.sub_self,
    ← h.size_blocks] at hall

/-- A block that is taken out of use stands for nothing. -/
theorem retire (h : p.Holds contents) (hb : contents[b]? = some (some es)) :
    (p.retire b).Holds (contents.set b none) := by
  obtain ⟨block, hblock, -⟩ := h.linked hb
  constructor
  · exact h.size_next
  · exact h.size_prev
  · simpa [Partition.retire] using h.size_blocks
  · intro c fs hc
    rcases entry_set hc with ⟨-, heq⟩ | ⟨hbc, hc⟩
    · cases heq
    · obtain ⟨other, hother, hlive, hlinked⟩ := h.linked hc
      refine ⟨other, ?_, hlive, hlinked.congr (fun _ _ => rfl) fun _ _ => rfl⟩
      simp [Partition.retire, Array.getElem?_modify, hbc, hother]
  · intro c fs hc
    rcases entry_set hc with ⟨-, heq⟩ | ⟨-, hc⟩
    · cases heq
    · exact h.nodup hc
  · intro c e fs hc he
    rcases entry_set hc with ⟨-, heq⟩ | ⟨-, hc⟩
    · cases heq
    · exact h.owner hc he
  · intro c hc
    rcases entry_set hc with ⟨rfl, -⟩ | ⟨hbc, hc⟩
    · exact ⟨{ block with live := false },
        by simp [Partition.retire, Array.getElem?_modify, hblock], by simp⟩
    · obtain ⟨other, hother, hlive⟩ := h.retired hc
      exact ⟨other, by simp [Partition.retire, Array.getElem?_modify, hbc, hother], hlive⟩

@[simp]
theorem universeSize_addBlock (p : Partition) (fs : List Nat) :
    (p.addBlock fs).universeSize = p.universeSize := by
  have fold (q : Partition) (b : Nat) :
      (fs.foldl (fun q e => q.append b e) q).universeSize = q.universeSize := by
    induction fs generalizing q with
    | nil => rfl
    | cons f fs ih => rw [List.foldl_cons, ih, universeSize_append]
  exact fold _ _

/-- New blocks for lists that have no element in common, with elements that no block has. -/
theorem addBlocks (h : p.Holds contents) (parts : List (List Nat))
    (nodup : ∀ fs ∈ parts, fs.Nodup) (known : ∀ fs ∈ parts, ∀ f ∈ fs, f < p.universeSize)
    (apart : parts.Pairwise fun fs gs => ∀ f ∈ gs, f ∉ fs)
    (free : ∀ {c : Nat} {es : List Nat}, contents[c]? = some (some es) →
      ∀ fs ∈ parts, ∀ f ∈ fs, f ∉ es) :
    (parts.foldl Partition.addBlock p).Holds (contents ++ parts.map some) := by
  induction parts generalizing p contents with
  | nil => simpa using h
  | cons fs parts ih =>
    have hnew := h.addBlock (nodup fs List.mem_cons_self) (known fs List.mem_cons_self)
      fun hc => free hc fs List.mem_cons_self
    obtain ⟨hfs, hparts⟩ := List.pairwise_cons.mp apart
    have := ih hnew (fun gs hg => nodup gs (List.mem_cons_of_mem _ hg))
      (fun gs hg g hm => by simpa using known gs (List.mem_cons_of_mem _ hg) g hm) hparts
      fun {c es} hc gs hg g hm he => by
        rcases entry_concat hc with hc | ⟨-, heq⟩
        · exact free hc gs (List.mem_cons_of_mem _ hg) g hm he
        · cases heq
          exact hfs gs hg g hm he
    simpa using this

/-- The first member whose code is out of range is reported. -/
theorem refine_of_find? (h : p.Holds contents) (hb : contents[b]? = some (some es))
    {code : Nat → Nat} {range : Nat} (hfind : es.find? (fun e => range ≤ code e) = some e) :
    p.refine b code range = .error (.codeOutOfRange e (code e) range) := by
  simp only [Partition.refine, h.members hb, hfind]

/-- A block whose members all have the same code stays as it is. -/
theorem refine_of_same (h : p.Holds contents) (hb : contents[b]? = some (some es))
    {code : Nat → Nat} {range : Nat} (hr : ∀ e ∈ es, code e < range)
    (hs : ¬ 2 ≤ (classes es code).length) : p.refine b code range = .ok ([b], p) := by
  have inRange : es.find? (fun e => range ≤ code e) = none := by
    simpa [List.find?_eq_none] using hr
  simp only [Partition.refine, h.members hb, inRange, if_pos (Nat.le_of_lt_succ (Nat.not_le.mp hs))]

/-- A block whose members have several codes is replaced by new blocks, one for each class of its
members. -/
theorem refine (h : p.Holds contents) (hb : contents[b]? = some (some es)) {code : Nat → Nat}
    {range : Nat} (hr : ∀ e ∈ es, code e < range) (hs : 2 ≤ (classes es code).length) :
    ∃ q, p.refine b code range =
        .ok (List.range' contents.length (classes es code).length, q) ∧
      q.Holds (contents.set b none ++ (classes es code).map some) := by
  have inRange : es.find? (fun e => range ≤ code e) = none := by
    simpa [List.find?_eq_none] using hr
  refine ⟨_, ?_, (h.retire hb).addBlocks (classes es code) ?_ ?_ ?_ ?_⟩
  · simp only [Partition.refine, h.members hb, inRange, if_neg (Nat.not_le.mpr hs), h.size_blocks]
  · intro fs hf
    obtain ⟨e, -, rfl⟩ := mem_classes.mp hf
    exact (h.nodup hb).filter _
  · intro fs hf f hm
    obtain ⟨e, -, rfl⟩ := mem_classes.mp hf
    exact h.mem_universe hb ((List.mem_filter.mp hm).1)
  · exact pairwise_classes _ _
  · intro c gs hc fs hf f hm hg
    obtain ⟨e, -, rfl⟩ := mem_classes.mp hf
    have hm := (List.mem_filter.mp hm).1
    rw [List.getElem?_set] at hc
    have hne : b ≠ c := by grind
    exact hne (h.disjoint hb (by simpa [hne] using hc) hm hg)

end Holds

/-- The coarsest partition has one block with all elements. -/
theorem holds_coarsest (size : Nat) : (coarsest size).Holds [some (List.range size)] := by
  let blank : Partition :=
    { next := Array.replicate size none
      prev := Array.replicate size none
      blockOf := Array.replicate size 0
      blocks := #[] }
  have hblank : blank.Holds [] := by
    constructor <;> simp [blank, universeSize]
  exact hblank.addBlock List.nodup_range (by simp [blank, universeSize]) (by simp)

end StateIdentification.Partition
