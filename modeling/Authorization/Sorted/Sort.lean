import Authorization.Sorted.Set

/-!
# Sorting lists

A list put in order, with its repetitions. The result depends only on how often
each element occurs, not on the order they came in (`sort_eq_of_perm`).
-/

namespace Authorization

variable {α : Type} [Ord α]

/-- `x` put into an ordered list, in front of the elements that are not before it. -/
def insertInOrder (x : α) : List α → List α
  | [] => [x]
  | y :: ys => if (compare x y).isLE then x :: y :: ys else y :: insertInOrder x ys

/-- The list in order. -/
def sort (xs : List α) : List α := xs.foldr insertInOrder []

theorem insertInOrder_perm (x : α) (ys : List α) : (insertInOrder x ys).Perm (x :: ys) := by
  induction ys with
  | nil => exact .refl _
  | cons y ys ih =>
    rw [insertInOrder]
    split
    · exact .refl _
    · exact (ih.cons y).trans (.swap x y ys)

/-- Sorting only changes the order. -/
theorem sort_perm (xs : List α) : (sort xs).Perm xs := by
  induction xs with
  | nil => exact .refl _
  | cons x xs ih => exact (insertInOrder_perm x (sort xs)).trans (ih.cons x)

variable [Std.TransOrd α] [Std.LawfulEqOrd α]

omit [Std.LawfulEqOrd α] in
theorem pairwise_insertInOrder {x : α} {ys : List α}
    (h : ys.Pairwise fun a b => (compare a b).isLE = true) :
    (insertInOrder x ys).Pairwise fun a b => (compare a b).isLE = true := by
  induction ys with
  | nil => simp [insertInOrder]
  | cons y ys ih =>
    rw [List.pairwise_cons] at h
    rw [insertInOrder]
    split
    · rename_i hxy
      refine List.pairwise_cons.2 ⟨fun a ha => ?_, List.pairwise_cons.2 h⟩
      rcases List.mem_cons.1 ha with rfl | ha
      · exact hxy
      · exact Std.TransCmp.isLE_trans hxy (h.1 a ha)
    · rename_i hxy
      refine List.pairwise_cons.2 ⟨fun a ha => ?_, ih h.2⟩
      rcases List.mem_cons.1 ((insertInOrder_perm x ys).mem_iff.1 ha) with rfl | ha
      · rcases hc : compare a y with _ | _ | _
        · simp [hc] at hxy
        · simp [hc] at hxy
        · rw [Std.OrientedCmp.gt_iff_lt] at hc
          simp [hc]
      · exact h.1 a ha

omit [Std.LawfulEqOrd α] in
theorem pairwise_sort (xs : List α) :
    (sort xs).Pairwise fun a b => (compare a b).isLE = true := by
  induction xs with
  | nil => exact .nil
  | cons x xs ih => exact pairwise_insertInOrder ih

/-- The same elements sort to the same list. -/
theorem sort_eq_of_perm {xs ys : List α} (h : xs.Perm ys) : sort xs = sort ys :=
  ((sort_perm xs).trans (h.trans (sort_perm ys).symm)).eq_of_pairwise
    (fun a b _ _ hab hba => by
      rcases hc : compare a b with _ | _ | _
      · rw [Std.OrientedCmp.gt_of_lt hc] at hba
        cases hba
      · exact Std.LawfulEqCmp.eq_of_compare hc
      · rw [hc] at hab
        cases hab)
    (pairwise_sort xs) (pairwise_sort ys)

end Authorization
