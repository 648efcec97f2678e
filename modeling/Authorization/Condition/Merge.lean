import Authorization.Condition.Identity

/-!
# Merging conditions

Conditions are joined by *all of* and *any of*; one condition needs no joining,
and alternatives of alternatives are alternatives (`all`, `any`).

Conditions of one kind can often be merged into one of the kind: alternatives
of roles, variants or memberships by the union of their names (`unionOfKind?`),
and all of them by the intersection (`intersectionOfKind?`). Where that is not
possible they are joined, without those that repeat the id of another (`union`,
`intersect`).
-/

namespace Authorization.Condition

/-- All of the conditions. -/
def all : List Condition → Condition
  | [c] => c
  | cs => .allOf cs

/-- The alternatives that a condition offers. -/
def alternatives : Condition → List Condition
  | .anyOf parts => parts
  | c => [c]

/-- Any of the conditions. -/
def any (cs : List Condition) : Condition :=
  match cs.flatMap alternatives with
  | [c] => c
  | flat => .anyOf flat

/-! ### Merging names -/

/-- The names in any of the sets. -/
def unionNames (sets : List NameSet) : NameSet := sets.foldl SortedSet.union ∅

/-- The names in each of the sets; none of no sets. -/
def intersectNames : List NameSet → NameSet
  | [] => ∅
  | set :: sets => sets.foldl SortedSet.inter set

/-- The roles of any of the memberships: unbound as soon as one of them is. -/
def unionRoles : List (Option NameSet) → Option NameSet
  | [] => some ∅
  | none :: _ => none
  | some names :: rest => (unionRoles rest).map names.union

/-- The roles of two memberships at once: an unbound one leaves the other as it is. -/
def bothRoles : Option NameSet → Option NameSet → Option NameSet
  | none, other => other
  | some names, none => some names
  | some names, some other => some (names.inter other)

/-- The roles of all of the memberships. -/
def intersectRoles (memberships : List (Option NameSet)) : Option NameSet :=
  memberships.foldl bothRoles none

/-! ### Merging conditions of one kind -/

/-- The names of a condition on roles. -/
def roleNames? : Condition → Option NameSet
  | .role names => some names
  | _ => none

/-- The names of a condition on variants. -/
def variantNames? : Condition → Option NameSet
  | .variant names => some names
  | _ => none

/-- The roles of a condition on membership. -/
def memberRoles? : Condition → Option (Option NameSet)
  | .member roles => some roles
  | _ => none

/-- The kind that all of the conditions have; there has to be a condition. -/
def commonKind? : List Condition → Option Kind
  | [] => none
  | c :: cs => if cs.all (·.kind == c.kind) then some c.kind else none

theorem kind_eq_of_commonKind? {cs : List Condition} {k : Kind} (h : commonKind? cs = some k) :
    ∀ c ∈ cs, c.kind = k := by
  cases cs with
  | nil => exact fun _ hc => absurd hc List.not_mem_nil
  | cons c cs =>
    rw [commonKind?] at h
    split at h
    · rename_i hall
      cases h
      exact List.forall_mem_cons.2 ⟨rfl, fun d hd => beq_iff_eq.1 (List.all_eq_true.1 hall d hd)⟩
    · cases h

/-- One condition that holds when any of the conditions does, of their common kind. -/
def unionOfKind? (cs : List Condition) : Option Condition :=
  (commonKind? cs).bind fun kind =>
    match kind with
    | .role => some (.role (unionNames (cs.filterMap roleNames?)))
    | .variant => some (.variant (unionNames (cs.filterMap variantNames?)))
    | .member => some (.member (unionRoles (cs.filterMap memberRoles?)))
    | .calculated => some .calculated
    | .field | .allOf | .anyOf => none

/-- One condition that holds when all of the conditions do, of their common kind. -/
def intersectionOfKind? (cs : List Condition) : Option Condition :=
  (commonKind? cs).bind fun kind =>
    match kind with
    | .role => some (.role (intersectNames (cs.filterMap roleNames?)))
    | .variant => some (.variant (intersectNames (cs.filterMap variantNames?)))
    | .member => some (.member (intersectRoles (cs.filterMap memberRoles?)))
    | .calculated => some .calculated
    | .field | .allOf | .anyOf => none

/-- A condition that holds when any of the conditions does. -/
def union (cs : List Condition) : Condition := (unionOfKind? cs).getD (any (distinct cs))

/-- A condition that holds when all of the conditions do. -/
def intersect (cs : List Condition) : Condition :=
  (intersectionOfKind? cs).getD (all (distinct cs))

end Authorization.Condition
