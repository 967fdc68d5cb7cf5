/-!
# Counting classes

How a function divides the members of a list into classes of members with equal values.

## Main definitions

- `total`: the sum of a measure over the members of a list.
- `distinctCount`: the number of different values in a list.
- `classes`: the members of a list by their values.
- `injectiveWithinClasses`: no two members of one class share a value.
-/

namespace StateIdentification

/-- The sum of a measure over the members of a list. -/
@[simp]
def total {α : Type u} (measure : α → Nat) : List α → Nat
  | [] => 0
  | x :: xs => measure x + total measure xs

@[simp]
theorem total_append {α : Type u} (measure : α → Nat) (xs ys : List α) :
    total measure (xs ++ ys) = total measure xs + total measure ys := by
  induction xs with
  | nil => simp
  | cons x xs ih => simp [ih, Nat.add_assoc]

@[simp]
theorem total_map {α : Type u} {β : Type v} (measure : β → Nat) (f : α → β) (xs : List α) :
    total measure (xs.map f) = total (measure ∘ f) xs := by
  induction xs with
  | nil => rfl
  | cons x xs ih => simp [ih]

theorem total_congr {α : Type u} {f g : α → Nat} {xs : List α} (h : ∀ x ∈ xs, f x = g x) :
    total f xs = total g xs := by
  induction xs with
  | nil => rfl
  | cons x xs ih =>
    obtain ⟨hx, hxs⟩ := List.forall_mem_cons.mp h
    rw [total, total, hx, ih hxs]

theorem total_flatMap {α : Type u} {β : Type v} (measure : β → Nat) (f : α → List β)
    (xs : List α) : total measure (xs.flatMap f) = total (fun x => total measure (f x)) xs := by
  induction xs with
  | nil => rfl
  | cons x xs ih => simp [ih]

theorem total_one {α : Type u} (xs : List α) : total (fun _ => 1) xs = xs.length := by
  induction xs with
  | nil => rfl
  | cons x xs ih => simp [ih, Nat.add_comm]

theorem total_mul {α : Type u} (k : Nat) (f : α → Nat) (xs : List α) :
    total (fun x => k * f x) xs = k * total f xs := by
  induction xs with
  | nil => rfl
  | cons x xs ih => simp [ih, Nat.mul_add]

theorem total_perm {α : Type u} (measure : α → Nat) {xs ys : List α} (h : xs.Perm ys) :
    total measure xs = total measure ys := by
  induction h with
  | nil => rfl
  | cons x _ ih => simp [ih]
  | swap x y xs => simp [Nat.add_left_comm]
  | trans _ _ ih ih' => exact ih.trans ih'

theorem total_le_total {α : Type u} {f g : α → Nat} {xs : List α} (h : ∀ x ∈ xs, f x ≤ g x) :
    total f xs ≤ total g xs := by
  induction xs with
  | nil => exact Nat.le_refl 0
  | cons x xs ih =>
    obtain ⟨hx, hxs⟩ := List.forall_mem_cons.mp h
    exact Nat.add_le_add hx (ih hxs)

/-- If one member is replaced, the sum changes by the difference. -/
theorem total_set {α : Type u} (measure : α → Nat) {xs : List α} {i : Nat} {x : α}
    (h : xs[i]? = some x) (y : α) :
    total measure (xs.set i y) + measure x = total measure xs + measure y := by
  induction xs generalizing i with
  | nil => cases h
  | cons z xs ih =>
    cases i with
    | zero =>
      obtain rfl : z = x := Option.some.inj h
      simp only [List.set_cons_zero, total]
      omega
    | succ i =>
      have hrest := ih (by simpa using h)
      simp only [List.set_cons_succ, total]
      omega

theorem total_length {α : Type u} (xss : List (List α)) :
    total List.length xss = xss.flatten.length := by
  induction xss with
  | nil => rfl
  | cons xs xss ih => simp [ih]

theorem length_le_total_of_pos {α : Type u} {f : α → Nat} {xs : List α} (h : ∀ x ∈ xs, 0 < f x) :
    xs.length ≤ total f xs :=
  total_one xs ▸ total_le_total h

theorem length_le_total {α : Type u} {xss : List (List α)} (h : ∀ xs ∈ xss, xs ≠ []) :
    xss.length ≤ total List.length xss :=
  length_le_total_of_pos fun xs hxs => List.length_pos_iff.mpr (h xs hxs)

/-- One of several members has less than all of them together. -/
theorem lt_total_of_mem {α : Type u} {f : α → Nat} {xs : List α} (htwo : 2 ≤ xs.length)
    (hpos : ∀ x ∈ xs, 0 < f x) {x : α} (hx : x ∈ xs) : f x < total f xs := by
  obtain ⟨front, back, rfl⟩ := List.append_of_mem hx
  have hfront : front.length ≤ total f front :=
    length_le_total_of_pos fun y hy => hpos y (by simp [hy])
  have hback : back.length ≤ total f back :=
    length_le_total_of_pos fun y hy => hpos y (by simp [hy])
  simp only [List.length_append, List.length_cons, total_append, total] at htwo ⊢
  omega

/-- Lists that are not empty have as many members as there are lists only if none has several. -/
theorem length_eq_total_iff {α : Type u} {xss : List (List α)} (h : ∀ xs ∈ xss, xs ≠ []) :
    xss.length = total List.length xss ↔ ∀ xs ∈ xss, xs.length ≤ 1 := by
  induction xss with
  | nil => simp
  | cons xs xss ih =>
    obtain ⟨hxs, hxss⟩ := List.forall_mem_cons.mp h
    have hle := length_le_total hxss
    have hpos := List.length_pos_iff.mpr hxs
    rw [List.forall_mem_cons, ← ih hxss, total, List.length_cons]
    omega

/-- The number of different values in a list. -/
def distinctCount {α : Type u} [BEq α] (xs : List α) : Nat := xs.eraseDups.length

/-- The members of a list by their values: one list for every value, in the order in which the
values occur first, and in each of them the members in their order. -/
def classes {α : Type u} {κ : Type v} [BEq κ] (xs : List α) (value : α → κ) : List (List α) :=
  (xs.map value).eraseDups.map fun k => xs.filter (value · == k)

/-- No two members that fall into the same class are mapped to the same value. -/
def injectiveWithinClasses {α : Type u} {κ : Type v} {β : Type w} [DecidableEq κ] [DecidableEq β]
    (xs : List α) (classOf : α → κ) (value : α → β) : Bool :=
  decide (xs.map fun x => (classOf x, value x)).Nodup

section

variable {α : Type u} {κ : Type v} [BEq κ] [LawfulBEq κ]

omit [LawfulBEq κ] in
/-- A property of a list may be proved from the same property of the members behind the first one
that have another value than the first one. -/
@[elab_as_elim]
theorem inductionOnFirst (value : α → κ) {motive : List α → Prop} (nil : motive [])
    (cons : ∀ x xs, motive (xs.filter fun y => !value y == value x) → motive (x :: xs))
    (xs : List α) : motive xs := by
  induction h : xs.length using Nat.strongRecOn generalizing xs with
  | ind n ih =>
    cases xs with
    | nil => exact nil
    | cons x xs =>
      have hlt : (xs.filter fun y => !value y == value x).length < n :=
        h ▸ Nat.lt_succ_of_le (List.length_filter_le _ xs)
      exact cons x xs (ih _ hlt _ rfl)

theorem nodup_eraseDups (ks : List κ) : ks.eraseDups.Nodup := by
  induction ks using inductionOnFirst (fun k : κ => k) with
  | nil => simp
  | cons k ks ih =>
    rw [List.eraseDups_cons, List.nodup_cons]
    exact ⟨by simp, ih⟩

/-- A list has several different values if two of its members differ. -/
theorem two_le_distinctCount {ks : List κ} :
    2 ≤ distinctCount ks ↔ ∃ k ∈ ks, ∃ l ∈ ks, k ≠ l := by
  have hn := nodup_eraseDups ks
  have hm {k : κ} : k ∈ ks.eraseDups ↔ k ∈ ks := List.mem_eraseDups
  unfold distinctCount
  cases h : ks.eraseDups with
  | nil => rw [h] at hm; simp only [List.length_nil]; grind
  | cons k rest =>
    cases rest with
    | nil => rw [h] at hm; simp only [List.length_singleton]; grind
    | cons l rest =>
      rw [h] at hm hn
      have hne : k ≠ l := by grind
      have hk : k ∈ ks := hm.mp (by simp)
      have hl : l ∈ ks := hm.mp (by simp)
      exact iff_of_true (by simp) ⟨k, hk, l, hl, hne⟩

omit [BEq κ] [LawfulBEq κ] in
/-- A list without repetitions is longer than one if two of its members differ. -/
theorem two_le_length_iff {ks : List κ} (hn : ks.Nodup) :
    2 ≤ ks.length ↔ ∃ k ∈ ks, ∃ l ∈ ks, k ≠ l := by
  cases ks with
  | nil => simp
  | cons k rest =>
    cases rest with
    | nil => simp
    | cons l rest =>
      have hne : k ≠ l := by grind
      exact iff_of_true (by simp) ⟨k, by simp, l, by simp, hne⟩

omit [BEq κ] [LawfulBEq κ] in
/-- Several members of a list without repetitions have a property if two different ones have it. -/
theorem two_le_countP_iff {ks : List κ} (hn : ks.Nodup) {p : κ → Bool} :
    2 ≤ ks.countP p ↔ ∃ k ∈ ks, ∃ l ∈ ks, p k ∧ p l ∧ k ≠ l := by
  rw [List.countP_eq_length_filter, two_le_length_iff (hn.filter p)]
  simp only [List.mem_filter]
  grind

omit [LawfulBEq κ] in
@[simp]
theorem length_classes (xs : List α) (value : α → κ) :
    (classes xs value).length = distinctCount (xs.map value) := by
  simp [classes, distinctCount]

/-- A list has several classes if two of its members have different values. -/
theorem two_le_length_classes {xs : List α} {value : α → κ} :
    2 ≤ (classes xs value).length ↔ ∃ x ∈ xs, ∃ y ∈ xs, value x ≠ value y := by
  rw [length_classes, two_le_distinctCount]
  simp only [List.mem_map]
  grind

theorem mem_classes {xs ys : List α} {value : α → κ} :
    ys ∈ classes xs value ↔ ∃ x ∈ xs, xs.filter (value · == value x) = ys := by
  simp only [classes, List.mem_map, List.mem_eraseDups]
  grind

theorem ne_nil_of_mem_classes {xs ys : List α} {value : α → κ} (h : ys ∈ classes xs value) :
    ys ≠ [] := by
  obtain ⟨x, hx, rfl⟩ := mem_classes.mp h
  exact List.ne_nil_of_mem (List.mem_filter.mpr ⟨hx, by simp⟩)

/-- The first class has the members with the value of the first member, and the other classes are
those of all other members. -/
theorem classes_cons (x : α) (xs : List α) (value : α → κ) :
    classes (x :: xs) value = (x :: xs).filter (value · == value x) ::
      classes (xs.filter fun y => !value y == value x) value := by
  rw [classes, classes, List.map_cons, List.eraseDups_cons, List.map_cons, List.filter_map]
  congr 1
  refine List.map_congr_left fun k hk => ?_
  have hne : k ≠ value x := by
    obtain ⟨y, hy, rfl⟩ := List.mem_map.mp (List.mem_eraseDups.mp hk)
    simpa using (List.mem_filter.mp hy).2
  rw [List.filter_filter, List.filter_cons_of_neg (by simpa using hne.symm)]
  refine List.filter_congr fun y _ => ?_
  grind

/-- The classes do not depend on how the values are told apart. -/
theorem classes_comp {ι : Type w} [BEq ι] [LawfulBEq ι] (code : κ → ι)
    (inj : ∀ {k l}, code k = code l → k = l) (xs : List α) (value : α → κ) :
    classes xs (code ∘ value) = classes xs value := by
  have same (x y : α) : ((code ∘ value) y == (code ∘ value) x) = (value y == value x) := by
    rw [Bool.eq_iff_iff, beq_iff_eq, beq_iff_eq]
    exact ⟨inj, congrArg code⟩
  induction xs using inductionOnFirst value with
  | nil => rfl
  | cons x xs ih => simp only [classes_cons, same, ih]

omit [LawfulBEq κ] in
theorem classes_map {β : Type w} (g : β → α) (xs : List β) (value : α → κ) :
    classes (xs.map g) value = (classes xs (value ∘ g)).map (List.map g) := by
  simp [classes, List.filter_map, Function.comp_def]

/-- Different classes have no member in common. -/
theorem pairwise_classes (xs : List α) (value : α → κ) :
    (classes xs value).Pairwise fun ys zs => ∀ z ∈ zs, z ∉ ys := by
  rw [classes, List.pairwise_map]
  refine (nodup_eraseDups _).imp fun {k l} hne z hz hy => hne ?_
  have hl : value z = l := eq_of_beq (List.mem_filter.mp hz).2
  have hk : value z = k := eq_of_beq (List.mem_filter.mp hy).2
  exact hk.symm.trans hl

/-- In an ordered list, the classes are ordered by their first members. -/
theorem pairwise_classes_of_pairwise {R : α → α → Prop} {xs : List α} (h : xs.Pairwise R)
    (value : α → κ) :
    (classes xs value).Pairwise fun ys zs => ∃ y ∈ ys, ∀ z ∈ zs, R y z := by
  induction xs using inductionOnFirst value with
  | nil => simp [classes]
  | cons x xs ih =>
    obtain ⟨hx, hxs⟩ := List.pairwise_cons.mp h
    rw [classes_cons, List.pairwise_cons]
    refine ⟨fun zs hzs => ⟨x, by simp, fun z hz => ?_⟩, ih (hxs.filter _)⟩
    obtain ⟨y, -, rfl⟩ := mem_classes.mp hzs
    exact hx z (List.mem_filter.mp (List.mem_filter.mp hz).1).1

/-- The classes of a list have together the members of the list. -/
theorem perm_flatten_classes (xs : List α) (value : α → κ) :
    (classes xs value).flatten.Perm xs := by
  induction xs using inductionOnFirst value with
  | nil => simp [classes]
  | cons x xs ih =>
    have others : (xs.filter fun y => !value y == value x) =
        (x :: xs).filter fun y => !value y == value x := by simp
    rw [classes_cons, List.flatten_cons]
    refine (ih.append_left _).trans ?_
    rw [others]
    exact List.filter_append_perm _ _

theorem total_length_classes (xs : List α) (value : α → κ) :
    total List.length (classes xs value) = xs.length := by
  rw [total_length, (perm_flatten_classes xs value).length_eq]

/-- As many classes of a list have a member among `ks` as the members of `ks` have values. -/
theorem countP_classes [BEq α] [LawfulBEq α] {xs ks : List α} {value : α → κ}
    (h : ∀ k ∈ ks, k ∈ xs) :
    (classes xs value).countP (fun ys => ys.any (ks.contains ·)) =
      distinctCount (ks.map value) := by
  have hits (k : κ) :
      (xs.filter (value · == k)).any (ks.contains ·) ↔ k ∈ ks.map value := by
    simp only [List.any_eq_true, List.mem_filter, List.contains_iff_mem, beq_iff_eq, List.mem_map]
    grind
  rw [classes, List.countP_map, List.countP_eq_length_filter, distinctCount]
  refine List.Perm.length_eq ?_
  refine (List.perm_ext_iff_of_nodup ((nodup_eraseDups _).filter _) (nodup_eraseDups _)).mpr ?_
  intro k
  simp only [List.mem_filter, Function.comp_apply, hits, List.mem_eraseDups, List.mem_map]
  grind

end

end StateIdentification
