import Mathlib.Data.List.Basic

/-!
# Texts in pieces

A text is put together from pieces, which keep apart what is fixed and what
stands for a name or a value. Of parts that are joined by a fixed piece, what is
read off the pieces is what is read off the parts, one after the other.
-/

namespace Authorization.Text

variable {α β : Type} {read : α → Option β} {separator : α}

/-- Separators that nothing is read off do not count. -/
theorem filterMap_intercalate (h : read separator = none) (parts : List (List α)) :
    ([separator].intercalate parts).filterMap read = parts.flatMap (List.filterMap read) := by
  induction parts with
  | nil => rfl
  | cons p ps ih =>
    by_cases hnil : ps = []
    · rw [hnil, List.intercalate_singleton, List.flatMap_singleton]
    · rw [List.intercalate_cons_of_ne_nil hnil, List.filterMap_append, List.filterMap_append, ih,
        List.filterMap_cons_none h, List.filterMap_nil, List.append_nil, List.flatMap_cons]

/-- What is made of each piece is joined as the pieces are. -/
theorem map_intercalate (f : α → β) (parts : List (List α)) :
    ([separator].intercalate parts).map f = [f separator].intercalate (parts.map (List.map f)) := by
  induction parts with
  | nil => rfl
  | cons p ps ih =>
    by_cases h : ps = []
    · rw [h, List.intercalate_singleton, List.map_singleton, List.intercalate_singleton]
    · rw [List.intercalate_cons_of_ne_nil h, List.map_append, List.map_append, ih,
        List.map_singleton, List.map_cons,
        List.intercalate_cons_of_ne_nil (mt List.map_eq_nil_iff.1 h)]

end Authorization.Text
