/-!
# Sorted sets

Names come in sets all over an access-control policy: the roles a condition
accepts, the variants it admits, the properties a resource secures. A set has
no order of its own, but it is printed, and printed sets have to agree: so the
elements are kept as a list in strictly increasing order, which makes the list
of a set unique.

* `mem_insert`, `mem_union`, `mem_inter` say what the operations hold;
* `ext` says that two sets with the same elements are the same set.
-/

namespace Authorization

/-- A finite set, as the strictly increasing list of its elements. -/
structure SortedSet (α : Type) [Ord α] where
  /-- The elements, in increasing order. -/
  toList : List α
  /-- Each element comes before all that follow it. -/
  increasing : toList.Pairwise fun a b => compare a b = .lt

namespace SortedSet

variable {α : Type} [Ord α]

/-! ### Inserting into an increasing list -/

/-- `x` put at its place into an increasing list, unless it is there already. -/
def place (x : α) : List α → List α
  | [] => [x]
  | y :: ys =>
    match compare x y with
    | .lt => x :: y :: ys
    | .eq => y :: ys
    | .gt => y :: place x ys

/-- The set without elements. -/
def empty : SortedSet α := ⟨[], .nil⟩

instance : EmptyCollection (SortedSet α) := ⟨empty⟩

instance : Inhabited (SortedSet α) := ⟨empty⟩

variable [Std.TransOrd α] [Std.LawfulEqOrd α]

omit [Std.TransOrd α] in
theorem mem_place {x y : α} {ys : List α} : y ∈ place x ys ↔ y = x ∨ y ∈ ys := by
  induction ys with
  | nil => simp [place]
  | cons z zs ih =>
    rw [place]
    split
    · simp
    · rename_i h
      rw [Std.LawfulEqCmp.eq_of_compare h]
      simp
    · simp only [List.mem_cons, ih]
      exact or_left_comm

theorem increasing_place {x : α} {ys : List α}
    (h : ys.Pairwise fun a b => compare a b = .lt) :
    (place x ys).Pairwise fun a b => compare a b = .lt := by
  induction ys with
  | nil => simp [place]
  | cons z zs ih =>
    rw [List.pairwise_cons] at h
    rw [place]
    split
    · rename_i hxz
      refine List.pairwise_cons.2 ⟨fun a ha => ?_, List.pairwise_cons.2 h⟩
      rcases List.mem_cons.1 ha with rfl | ha
      · exact hxz
      · exact Std.TransCmp.lt_trans hxz (h.1 a ha)
    · exact List.pairwise_cons.2 h
    · rename_i hxz
      refine List.pairwise_cons.2 ⟨fun a ha => ?_, ih h.2⟩
      rcases mem_place.1 ha with rfl | ha
      · exact Std.OrientedCmp.lt_of_gt hxz
      · exact h.1 a ha

/-! ### Sets -/

/-- The set with one more element. -/
def insert (s : SortedSet α) (x : α) : SortedSet α :=
  ⟨place x s.toList, increasing_place s.increasing⟩

/-- The set of the elements of a list, in any order and repeated at will. -/
def ofList (xs : List α) : SortedSet α := xs.foldl insert empty

/-- The elements of either set. -/
def union (s t : SortedSet α) : SortedSet α := t.toList.foldl insert s

/-- The elements that `p` keeps. -/
def filter (s : SortedSet α) (p : α → Bool) : SortedSet α :=
  ⟨s.toList.filter p, s.increasing.filter p⟩

/-- Whether the set has no elements. -/
def isEmpty (s : SortedSet α) : Bool := s.toList.isEmpty

variable [DecidableEq α]

instance : DecidableEq (SortedSet α) := fun s t =>
  if h : s.toList = t.toList then
    isTrue (by cases s; cases t; cases h; rfl)
  else
    isFalse fun hst => h (congrArg toList hst)

/-- Whether `x` is an element. -/
def contains (s : SortedSet α) (x : α) : Bool := s.toList.contains x

/-- The elements of both sets. -/
def inter (s t : SortedSet α) : SortedSet α := s.filter t.contains

/-- Whether the two sets share an element. -/
def meets (s t : SortedSet α) : Bool := s.toList.any t.contains

instance : Membership α (SortedSet α) := ⟨fun s x => x ∈ s.toList⟩

omit [Std.TransOrd α] [Std.LawfulEqOrd α] [DecidableEq α] in
theorem mem_def {s : SortedSet α} {x : α} : x ∈ s ↔ x ∈ s.toList := Iff.rfl

omit [Std.TransOrd α] [Std.LawfulEqOrd α] in
@[simp] theorem contains_eq_true {s : SortedSet α} {x : α} : s.contains x = true ↔ x ∈ s := by
  simp [contains, mem_def]

instance {s : SortedSet α} {x : α} : Decidable (x ∈ s) :=
  decidable_of_iff _ contains_eq_true

omit [Std.TransOrd α] [Std.LawfulEqOrd α] [DecidableEq α] in
@[simp] theorem not_mem_empty {x : α} : x ∉ (∅ : SortedSet α) := by
  simp [mem_def, EmptyCollection.emptyCollection, empty]

omit [DecidableEq α] in
@[simp] theorem mem_insert {s : SortedSet α} {x y : α} : y ∈ s.insert x ↔ y = x ∨ y ∈ s :=
  mem_place

omit [DecidableEq α] in
theorem mem_foldl_insert {xs : List α} {s : SortedSet α} {y : α} :
    y ∈ xs.foldl insert s ↔ y ∈ s ∨ y ∈ xs := by
  induction xs generalizing s with
  | nil => simp
  | cons x xs ih =>
    rw [List.foldl_cons, ih, mem_insert, List.mem_cons, or_comm (a := y = x), or_assoc]

omit [DecidableEq α] in
@[simp] theorem mem_ofList {xs : List α} {y : α} : y ∈ ofList xs ↔ y ∈ xs := by
  rw [ofList, mem_foldl_insert]
  exact or_iff_right not_mem_empty

omit [DecidableEq α] in
@[simp] theorem mem_union {s t : SortedSet α} {y : α} : y ∈ s.union t ↔ y ∈ s ∨ y ∈ t :=
  mem_foldl_insert

omit [Std.TransOrd α] [Std.LawfulEqOrd α] [DecidableEq α] in
@[simp] theorem mem_filter {s : SortedSet α} {p : α → Bool} {y : α} :
    y ∈ s.filter p ↔ y ∈ s ∧ p y = true := List.mem_filter

omit [Std.TransOrd α] [Std.LawfulEqOrd α] in
@[simp] theorem mem_inter {s t : SortedSet α} {y : α} : y ∈ s.inter t ↔ y ∈ s ∧ y ∈ t := by
  rw [inter, mem_filter, contains_eq_true]

omit [Std.TransOrd α] [Std.LawfulEqOrd α] in
theorem meets_eq_true {s t : SortedSet α} : s.meets t = true ↔ ∃ x, x ∈ s ∧ x ∈ t := by
  simp [meets, mem_def]

/-! ### A set is determined by its elements -/

omit [Std.LawfulEqOrd α] [DecidableEq α] in
private theorem eq_of_increasing : ∀ {xs ys : List α},
    xs.Pairwise (fun a b => compare a b = .lt) → ys.Pairwise (fun a b => compare a b = .lt) →
    (∀ z, z ∈ xs ↔ z ∈ ys) → xs = ys
  | [], [], _, _, _ => rfl
  | [], y :: ys, _, _, h => absurd ((h y).2 List.mem_cons_self) List.not_mem_nil
  | x :: xs, [], _, _, h => absurd ((h x).1 List.mem_cons_self) List.not_mem_nil
  | x :: xs, y :: ys, hx, hy, h => by
    rw [List.pairwise_cons] at hx hy
    have irrefl : ∀ a : α, compare a a ≠ .lt := fun a h => Std.OrientedCmp.not_lt_of_lt h h
    have hxy : x = y := by
      rcases List.mem_cons.1 ((h x).1 List.mem_cons_self) with hxy | hxy
      · exact hxy
      rcases List.mem_cons.1 ((h y).2 List.mem_cons_self) with hyx | hyx
      · exact hyx.symm
      exact absurd (Std.TransCmp.lt_trans (hx.1 y hyx) (hy.1 x hxy)) (irrefl x)
    subst hxy
    refine congrArg _ (eq_of_increasing hx.2 hy.2 fun z => ⟨fun hz => ?_, fun hz => ?_⟩)
    · rcases List.mem_cons.1 ((h z).1 (List.mem_cons_of_mem _ hz)) with rfl | hz'
      · exact absurd (hx.1 z hz) (irrefl z)
      · exact hz'
    · rcases List.mem_cons.1 ((h z).2 (List.mem_cons_of_mem _ hz)) with rfl | hz'
      · exact absurd (hy.1 z hz) (irrefl z)
      · exact hz'

omit [Std.LawfulEqOrd α] [DecidableEq α] in
/-- Two sets with the same elements are the same set. -/
theorem ext {s t : SortedSet α} (h : ∀ x, x ∈ s ↔ x ∈ t) : s = t := by
  obtain ⟨xs, hx⟩ := s
  obtain ⟨ys, hy⟩ := t
  have : xs = ys := eq_of_increasing hx hy h
  subst this
  rfl

end SortedSet

/-- A set of names: of roles, of variants, of properties. -/
abbrev NameSet := SortedSet String

end Authorization
