import Authorization.Proofs.Condition.Intersection
import Authorization.Proofs.Condition.Reordering
import Authorization.Proofs.Sorted.Agreement

/-!
# Permissions alike

Permissions are *alike* if they are the same but for the order of parts in their
conditions (`Permission.Alike`). They have one id, and allow the same.

What a policy says several times comes to alike permissions in whatever order it
was said (`Permission.alike_mergeWithin`). And what all of some permissions
allow is alike if they are alike one by one (`Permission.Alike.intersect`):
repetitions are told by ids, and names are intersected in the same order.
-/

namespace Authorization

/-! ### Conditions -/

namespace Condition

variable {c d : Condition} {cs ds : List Condition}

namespace Alike

theorem roleNames?_eq (h : Alike c d) : c.roleNames? = d.roleNames? := by cases h <;> rfl

theorem variantNames?_eq (h : Alike c d) : c.variantNames? = d.variantNames? := by cases h <;> rfl

theorem memberRoles?_eq (h : Alike c d) : c.memberRoles? = d.memberRoles? := by cases h <;> rfl

end Alike

theorem AlikeParts.of_forall₂ (h : cs.Forall₂ Alike ds) : AlikeParts cs ds := by
  induction h with
  | nil => exact .nil
  | cons hcd _ ih => exact .cons hcd ih

/-- Of alike conditions, the same are dropped for repeating an id. -/
theorem alike_distinct (h : cs.Forall₂ Alike ds) : (distinct cs).Forall₂ Alike (distinct ds) := by
  have hafter : ∀ seen, (distinctAfter seen cs).Forall₂ Alike (distinctAfter seen ds) := by
    induction h with
    | nil => exact fun _ => .nil
    | @cons c d cs ds hcd _ ih =>
      intro seen
      rw [distinctAfter, distinctAfter, hcd.id_eq]
      split
      · exact ih seen
      · exact .cons hcd (ih _)
  exact hafter []

/-- Alike conditions of one kind are intersected to the same condition of the kind. -/
theorem intersectionOfKind?_eq (h : cs.Forall₂ Alike ds) :
    intersectionOfKind? cs = intersectionOfKind? ds := by
  have hkind : commonKind? cs = commonKind? ds := by
    cases h with
    | nil => rfl
    | cons hcd hrest =>
      rw [commonKind?, commonKind?, hcd.kind_eq, hrest.all_eq fun _ _ hcd' => by rw [hcd'.kind_eq]]
  rw [intersectionOfKind?, intersectionOfKind?, hkind,
    h.filterMap_eq fun _ _ => Alike.roleNames?_eq,
    h.filterMap_eq fun _ _ => Alike.variantNames?_eq,
    h.filterMap_eq fun _ _ => Alike.memberRoles?_eq]

theorem alike_intersect (h : cs.Forall₂ Alike ds) : Alike (intersect cs) (intersect ds) := by
  rw [intersect, intersect, intersectionOfKind?_eq h]
  cases intersectionOfKind? ds with
  | none => exact (AlikeParts.of_forall₂ (alike_distinct h)).all
  | some d => exact .refl d

end Condition

/-! ### Permissions -/

namespace Permission

/-- Two permissions are the same but for the order of parts in their conditions. -/
inductive Alike : Permission → Permission → Prop
  | allow : Alike .allow .allow
  | deny : Alike .deny .deny
  | when {c d : Condition} : c.Alike d → Alike (.when c) (.when d)

variable {p q : Permission} {ps qs : List Permission}

namespace Alike

theorem refl (p : Permission) : Alike p p := by
  cases p with
  | allow => exact .allow
  | deny => exact .deny
  | when c => exact .when (.refl c)

theorem isAllow_eq (h : Alike p q) : p.isAllow = q.isAllow := by cases h <;> rfl

theorem isDeny_eq (h : Alike p q) : p.isDeny = q.isDeny := by cases h <;> rfl

theorem id_eq (h : Alike p q) : p.id = q.id := by
  cases h with
  | allow => rfl
  | deny => rfl
  | when h => exact h.id_eq

theorem holdsOn_eq (h : Alike p q) (s : Session) (o : Record) :
    p.holdsOn s o = q.holdsOn s o := by
  cases h with
  | allow => rfl
  | deny => rfl
  | when h => exact h.sameMeaning s o

theorem bind (h : Alike p q) (roles : Option NameSet) :
    Alike (p.map (.bind roles)) (q.map (.bind roles)) := by
  cases h with
  | allow => exact .allow
  | deny => exact .deny
  | when h => exact .when (h.bind roles)

end Alike

/-! ### Merging -/

theorem alike_whenAny {cs ds : List Condition} (h : cs.Perm ds) :
    Alike (whenAny cs) (whenAny ds) := by
  cases cs with
  | nil =>
    rw [← h.nil_eq]
    exact .deny
  | cons c cs =>
    cases ds with
    | nil => exact absurd h.eq_nil (List.cons_ne_nil c cs)
    | cons d ds => exact .when (Condition.AlikeParts.of_perm h).any

/-- What a policy says of an action comes to the same in whatever order it is said. -/
theorem alike_mergeWithin (h : ps.Perm qs) : Alike (mergeWithin ps) (mergeWithin qs) := by
  rw [mergeWithin, mergeWithin, h.any_eq, h.any_eq]
  split
  · exact .deny
  · split
    · exact .allow
    · exact alike_whenAny (h.filterMap condition?)

/-- What policies say together comes to the same in whatever order they are asked. -/
theorem alike_mergeAcross (h : ps.Perm qs) : Alike (mergeAcross ps) (mergeAcross qs) := by
  rw [mergeAcross, mergeAcross, h.any_eq]
  split
  · exact .allow
  · exact alike_whenAny (h.filterMap condition?)

/-- Alike permissions allow the same in common. -/
theorem Alike.intersect (h : ps.Forall₂ Alike qs) :
    Alike (Permission.intersect ps) (Permission.intersect qs) := by
  have hdeny : ps.any isDeny = qs.any isDeny := h.any_eq fun _ _ => isDeny_eq
  have hconditions : (ps.filterMap condition?).Forall₂ Condition.Alike
      (qs.filterMap condition?) := by
    refine List.rel_filterMap (fun p q hpq => ?_) h
    cases hpq with
    | allow => exact .none
    | deny => exact .none
    | when hcd => exact .some hcd
  rw [Permission.intersect, Permission.intersect, hdeny]
  split
  · exact .deny
  · generalize ps.filterMap condition? = cs at hconditions
    generalize qs.filterMap condition? = ds at hconditions
    cases hconditions with
    | nil => exact .allow
    | cons hcd hrest => exact .when (Condition.alike_intersect (.cons hcd hrest))

end Permission

end Authorization
