import Authorization.Proofs.Condition.Leaves
import Authorization.RowSecurity.Predicate

/-!
# Computed data has no predicate

A condition has a predicate in the database unless one of its leaves is about
computed data, wherever that leaf stands; then there is one reason for which it has
none (`failsIff_predicate`).
-/

namespace Authorization.RowSecurity

open Condition (byParts leaves leaves_allOf leaves_anyOf)

/-- There is a result just if something is not so; otherwise the reason is given. -/
def FailsIff {α : Type} (so : Prop) (reason : Error) (x : Except Error α) : Prop :=
  so ∧ x = .error reason ∨ ¬so ∧ ∃ a, x = .ok a

theorem FailsIff.map {α β : Type} {so : Prop} {reason : Error} {x : Except Error α}
    (h : FailsIff so reason x) (f : α → β) : FailsIff so reason (do return f (← x)) := by
  rcases h with ⟨hso, rfl⟩ | ⟨hso, a, rfl⟩
  · exact .inl ⟨hso, rfl⟩
  · exact .inr ⟨hso, f a, rfl⟩

variable {storage : Storage}

/-- Conditions have predicates unless a leaf of one of them is about computed data. -/
theorem failsIff_predicates {cs : List Condition}
    (h : ∀ c ∈ cs, FailsIff (.calculated ∈ c.leaves) (.calculatedInDatabase storage.table)
      (predicate storage c)) :
    FailsIff (.calculated ∈ cs.flatMap leaves) (.calculatedInDatabase storage.table)
      (predicates storage cs) := by
  induction cs with
  | nil => exact .inr ⟨List.not_mem_nil, [], rfl⟩
  | cons c cs ih =>
    obtain ⟨hc, hcs⟩ := List.forall_mem_cons.1 h
    rw [List.flatMap_cons, List.mem_append, predicates]
    rcases hc with ⟨hmem, herror⟩ | ⟨hmem, ps, hps⟩
    · rw [herror]
      exact .inl ⟨.inl hmem, rfl⟩
    · rw [hps]
      rcases ih hcs with ⟨hmem', herror⟩ | ⟨hmem', pss, hpss⟩
      · rw [herror]
        exact .inl ⟨.inr hmem', rfl⟩
      · rw [hpss]
        exact .inr ⟨not_or.2 ⟨hmem, hmem'⟩, ps :: pss, rfl⟩

/-- A condition has a predicate unless one of its leaves is about computed data. -/
theorem failsIff_predicate (storage : Storage) : ∀ c : Condition,
    FailsIff (.calculated ∈ c.leaves) (.calculatedInDatabase storage.table)
      (predicate storage c) := by
  have hleaf : ∀ {c : Condition} {ps}, .calculated ∉ c.leaves → predicate storage c = .ok ps →
      FailsIff (.calculated ∈ c.leaves) (.calculatedInDatabase storage.table)
        (predicate storage c) := fun hmem hps => .inr ⟨hmem, _, hps⟩
  refine byParts (fun _ => hleaf ?_ rfl) (fun _ => hleaf ?_ rfl) (fun _ => hleaf ?_ rfl)
    (fun _ _ => hleaf ?_ rfl) (.inl ⟨List.mem_singleton_self _, rfl⟩) ?allOf ?anyOf
  iterate 4 exact fun h => nomatch List.mem_singleton.1 h
  case allOf =>
    intro parts ih
    rw [leaves_allOf, predicate]
    exact (failsIff_predicates ih).map _
  case anyOf =>
    intro parts ih
    rw [leaves_anyOf, predicate]
    exact (failsIff_predicates ih).map _

end Authorization.RowSecurity
