import Authorization.Permission
import Authorization.Proofs.Condition.Binding
import Authorization.Proofs.Simplification.Meaning

/-!
# Permissions on an object

With an object every permission is decided, as every condition is. What several
policies say together allows what one of them allows (`holdsOn_mergeAcross`),
and what they say can be optimized (`holdsOn_optimizePermission`). Permissions
with one id allow the same (`holdsOn_eq_of_id_eq`).

A permission passes a check if its condition does; what permissions are merged
to passes the checks that they pass.
-/

namespace Authorization.Permission

variable {s : Session} {r : Record} {k : Check}

/-- Whether a permission allows what is asked, for a session and an object. -/
def holdsOn (s : Session) (r : Record) : Permission → Bool
  | allow => true
  | deny => false
  | when c => c.holdsOn s r

/-- With an object a permission is decided, and never an error. -/
@[simp] theorem holds_some (p : Permission) : p.holds s (some r) = .ok (p.holdsOn s r) := by
  cases p with
  | allow => rfl
  | deny => rfl
  | when c => exact c.holds_some

/-- Allowed on an object is what is allowed without condition, or under one that holds. -/
theorem holdsOn_eq_true {p : Permission} :
    p.holdsOn s r = true ↔ p = allow ∨ ∃ c, p = when c ∧ c.holdsOn s r = true := by
  cases p with
  | allow => exact ⟨fun _ => .inl rfl, fun _ => rfl⟩
  | deny =>
    refine ⟨nofun, fun h => ?_⟩
    rcases h with h | ⟨_, h, _⟩
    · cases h
    · cases h
  | when c =>
    refine ⟨fun h => .inr ⟨c, rfl, h⟩, fun h => ?_⟩
    rcases h with h | ⟨_, h, htrue⟩
    · cases h
    · cases h
      exact htrue

theorem eq_allow_of_isAllow {p : Permission} (h : p.isAllow = true) : p = allow := by
  cases p with
  | allow => rfl
  | deny => cases h
  | when c => cases h

@[simp] theorem condition?_eq_some {p : Permission} {c : Condition} :
    p.condition? = some c ↔ p = when c := by
  cases p with
  | allow => exact ⟨nofun, nofun⟩
  | deny => exact ⟨nofun, nofun⟩
  | when d => rw [condition?, Option.some.injEq, when.injEq]

/-! ### Merging -/

@[simp] theorem holdsOn_whenAny (cs : List Condition) :
    (whenAny cs).holdsOn s r = cs.any (Condition.holdsOn s r) := by
  cases cs with
  | nil => rfl
  | cons c cs => exact Condition.holdsOn_any _

/-- What policies say together allows what one of them allows. -/
theorem holdsOn_mergeAcross (ps : List Permission) :
    (mergeAcross ps).holdsOn s r = ps.any (holdsOn s r) := by
  rw [Bool.eq_iff_iff, List.any_eq_true, mergeAcross]
  split
  · rename_i hallow
    obtain ⟨p, hp, hp'⟩ := List.any_eq_true.1 hallow
    exact ⟨fun _ => ⟨p, hp, by rw [eq_allow_of_isAllow hp']; rfl⟩, fun _ => rfl⟩
  · rename_i hallow
    rw [holdsOn_whenAny, List.any_eq_true]
    constructor
    · rintro ⟨c, hc, htrue⟩
      obtain ⟨p, hp, hpc⟩ := List.mem_filterMap.1 hc
      exact ⟨p, hp, holdsOn_eq_true.2 (.inr ⟨c, condition?_eq_some.1 hpc, htrue⟩)⟩
    · rintro ⟨p, hp, htrue⟩
      rcases holdsOn_eq_true.1 htrue with rfl | ⟨c, rfl, htrue⟩
      · exact absurd (List.any_eq_true.2 ⟨_, hp, rfl⟩) hallow
      · exact ⟨c, List.mem_filterMap.2 ⟨_, hp, rfl⟩, htrue⟩

/-! ### Checks -/

/-- Whether the condition of a permission, if it has one, passes a check. -/
def passes (k : Check) (p : Permission) : Bool := p.condition?.all (Condition.passes k)

theorem passes_of_condition? {ps : List Permission} (h : ∀ p ∈ ps, p.passes k = true) :
    ∀ c ∈ ps.filterMap condition?, c.passes k = true := by
  intro c hc
  obtain ⟨p, hp, hpc⟩ := List.mem_filterMap.1 hc
  have hpass := h p hp
  rw [condition?_eq_some.1 hpc] at hpass
  exact hpass

theorem passes_whenAny {cs : List Condition} (h : ∀ c ∈ cs, c.passes k = true) :
    (whenAny cs).passes k = true := by
  cases cs with
  | nil => rfl
  | cons c cs => exact Condition.passes_any h

theorem passes_mergeWithin {ps : List Permission} (h : ∀ p ∈ ps, p.passes k = true) :
    (mergeWithin ps).passes k = true := by
  rw [mergeWithin]
  split
  · rfl
  · split
    · rfl
    · exact passes_whenAny (passes_of_condition? h)

theorem passes_mergeAcross {ps : List Permission} (h : ∀ p ∈ ps, p.passes k = true) :
    (mergeAcross ps).passes k = true := by
  rw [mergeAcross]
  split
  · rfl
  · exact passes_whenAny (passes_of_condition? h)

/-! ### Binding -/

/-- What is allowed with memberships bound is allowed without. -/
theorem holdsOn_of_holdsOn_bind {roles : Option NameSet} {p : Permission}
    (h : (p.map (.bind roles)).holdsOn s r = true) : p.holdsOn s r = true := by
  cases p with
  | allow => rfl
  | deny => exact h
  | when c => exact Condition.holdsOn_of_holdsOn_bind roles c h

/-- Where the roles of a membership are not known, binding does not matter. -/
theorem holdsOn_bind_of_unknown (hr : r.membershipRoles = none) (roles : Option NameSet)
    (p : Permission) : (p.map (.bind roles)).holdsOn s r = p.holdsOn s r := by
  cases p with
  | allow => rfl
  | deny => rfl
  | when c => exact Condition.holdsOn_bind_of_unknown hr roles c

/-! ### Identity -/

/-- Permissions with one id allow the same. -/
theorem holdsOn_eq_of_id_eq {p q : Permission} (hp : p.passes .plain = true)
    (hq : q.passes .plain = true) (h : p.id = q.id) : p.holdsOn s r = q.holdsOn s r := by
  cases p with
  | allow =>
    cases q with
    | allow => rfl
    | deny => exact absurd h (by decide)
    | when d => exact absurd h.symm d.id_ne_true
  | deny =>
    cases q with
    | allow => exact absurd h (by decide)
    | deny => rfl
    | when d => exact absurd h.symm d.id_ne_false
  | when c =>
    cases q with
    | allow => exact absurd h c.id_ne_true
    | deny => exact absurd h c.id_ne_false
    | when d => exact Condition.sameMeaning_of_id_eq hp hq h s r

/-! ### Optimizing -/

/-- Optimizing a permission with plain names leaves it what it allows. -/
theorem holdsOn_optimizePermission (o : Optimizer) {p : Permission} (hp : p.passes .plain = true) :
    (o.optimizePermission p).holdsOn s r = p.holdsOn s r := by
  cases p with
  | allow => rfl
  | deny => rfl
  | when c => exact (o.keeps_optimize hp).meaning s r

theorem passes_optimizePermission (o : Optimizer) {p : Permission} (hplain : p.passes .plain = true)
    (hp : p.passes k = true) : (o.optimizePermission p).passes k = true := by
  cases p with
  | allow => rfl
  | deny => rfl
  | when c => exact (o.keeps_optimize hplain).passes k hp

end Authorization.Permission
