import Authorization.Engine.Executor
import Authorization.Proofs.Policy.Compilation
import Authorization.Proofs.Policy.Defaults

/-!
# Look-ups in live grants

The grants for decisions are those that follow for interfaces and
implementations, with more on relations, and with memberships bound. What a
policy says about an action under a key is read off the grants before: what
follows for a relation (`Catalogue.followed?`) is less specific than what is
said of the key as a relation, and more than all else
(`Policy.IsCompiled.permission_live`).
-/

namespace Authorization

variable {c : Catalogue} {raw m : GrantMap} {r : Resource} {g : ResourceGrants} {a : Action}

/-! ### Entries that go by their keys -/

namespace SortedMap

variable {κ α : Type} [Ord κ] [Std.TransOrd κ] [Std.LawfulEqOrd κ] {m : SortedMap κ α} {k : κ}

omit [Std.TransOrd κ] [Std.LawfulEqOrd κ] in
theorem get?_of_contains_eq_false (h : m.contains k = false) : m.get? k = none := by
  rw [contains, Option.isSome_eq_false_iff, Option.isNone_iff_eq_none] at h
  exact h

/-- Where the entries under a key are determined, that is what is found. -/
theorem get?_insertAll_of_iff [DecidableEq κ] {es : List (κ × α)} {v : Option α}
    (h : ∀ a, (k, a) ∈ es ↔ v = some a) : (m.insertAll es).get? k = v.or (m.get? k) := by
  cases v with
  | none =>
    refine get?_insertAll_of_forall_ne fun e he hk => ?_
    cases (h e.2).1 (hk ▸ he)
  | some a =>
    refine get?_insertAll_of_mem ((h a).2 rfl) fun b hb => ?_
    exact (Option.some.inj ((h b).1 hb)).symm

end SortedMap

/-! ### Binding -/

namespace ResourceGrants

theorem onRelation?_bind (roles : Option NameSet) (g : ResourceGrants) (r : Resource) (a : Action)
    (key : String) : (g.bind roles).onRelation? r a key =
      (g.onRelation? r a key).map (·.map (.bind roles)) := by
  simp only [onRelation?, bind, mapPermissions, SortedMap.get?_mapValues]
  cases r.relation? key with
  | none => rfl
  | some rel =>
    cases g.relations.get? key with
    | none => rfl
    | some d => exact SortedMap.get?_mapValues

theorem onProp?_bind (roles : Option NameSet) (g : ResourceGrants) (a : Action) (key : String) :
    (g.bind roles).onProp? a key = (g.onProp? a key).map (·.map (.bind roles)) := by
  simp only [onProp?, bind, mapPermissions, SortedMap.get?_mapValues]
  cases g.props.get? key with
  | none => rfl
  | some d => exact SortedMap.get?_mapValues

theorem get?_object_bind (roles : Option NameSet) (g : ResourceGrants) (a : Action) :
    (g.bind roles).object.get? a = (g.object.get? a).map (·.map (.bind roles)) :=
  SortedMap.get?_mapValues

/-- Looking up in bound grants is binding what is looked up. -/
theorem lookup_bind (roles : Option NameSet) (g : ResourceGrants) (r : Resource) (a : Action)
    (key : Option String) :
    (g.bind roles).lookup r a key = (g.lookup r a key).map (.bind roles) := by
  have hkey : (key.bind ((g.bind roles).onRelation? r a)).or (key.bind ((g.bind roles).onProp? a)) =
      ((key.bind (g.onRelation? r a)).or (key.bind (g.onProp? a))).map (·.map (.bind roles)) := by
    cases key with
    | none => rfl
    | some key =>
      rw [Option.bind_some, Option.bind_some, onRelation?_bind, onProp?_bind, Option.map_or]
      rfl
  rw [lookup, lookup, get?_object_bind, hkey, ← Option.map_or]
  cases ((key.bind (g.onRelation? r a)).or (key.bind (g.onProp? a))).or (g.object.get? a) with
  | none => rfl
  | some p => rfl

end ResourceGrants

namespace Catalogue

/-! ### Relations -/

/-- What is said before anything follows for relations. -/
abbrev beforeRelations (c : Catalogue) (raw : GrantMap) : GrantMap :=
  c.withDefaultImplementations (c.withDefaultInterfaces raw)

/-- What follows for an action on a relation, if something is said of its resource, nothing of
    the relation, and something of the objects that it leads to. -/
def followed? (m : GrantMap) (r : Resource) (a : Action) (key : String) : Option Permission :=
  (m.get? r.name).bind fun g =>
    if g.relations.contains key then none
    else (r.relation? key).bind fun rel => (defaultRelation? m rel).bind (·.get? a)

theorem get?_relations_withRelationsOf (m : GrantMap) (r : Resource) (g : ResourceGrants)
    (key : String) : (withRelationsOf m r g).relations.get? key =
      if g.relations.contains key then g.relations.get? key
      else (r.relation? key).bind (defaultRelation? m) := by
  have hentry : ∀ d, (key, d) ∈ (r.relations.toList.filterMap fun e =>
      if g.relations.contains e.1 then none
      else (defaultRelation? m e.2).map fun d => (e.1, d)) ↔
        (if g.relations.contains key then none
          else (r.relation? key).bind (defaultRelation? m)) = some d := by
    intro d
    rw [List.mem_filterMap]
    constructor
    · rintro ⟨⟨key', rel⟩, he, hd⟩
      split at hd
      · cases hd
      · rename_i hnew
        obtain ⟨d', hd', heq⟩ := Option.map_eq_some_iff.1 hd
        cases heq
        rw [if_neg hnew, Resource.relation?, SortedMap.get?_eq_some_iff.2 he]
        exact hd'
    · intro hd
      split at hd
      · cases hd
      · rename_i hnew
        obtain ⟨rel, hrel, hd⟩ := Option.bind_eq_some_iff.1 hd
        exact ⟨(key, rel), SortedMap.get?_eq_some_iff.1 hrel, by rw [if_neg hnew, hd]; rfl⟩
  refine (SortedMap.get?_insertAll_of_iff hentry).trans ?_
  split
  · exact Option.none_or
  · rename_i hnew
    rw [SortedMap.get?_of_contains_eq_false (Bool.eq_false_iff.2 hnew), Option.or_none]

/-- The grants for decisions on a resource are those before, with what follows for relations, and
    with memberships bound. -/
theorem get?_liveGrants (roles : Option NameSet) (hr : c.get? r.name = some r) :
    (c.liveGrants roles raw).get? r.name = ((c.beforeRelations raw).get? r.name).map fun g =>
      (withRelationsOf (c.beforeRelations raw) r g).bind roles := by
  rw [liveGrants, SortedMap.get?_mapValues, withDefaultRelations, SortedMap.get?_mapValues,
    Option.map_map]
  simp only [Function.comp_def, hr]

/-- On a relation that is said which is said, or else what follows. -/
theorem onRelation?_withRelationsOf (hg : m.get? r.name = some g) (a : Action) (key : String) :
    (withRelationsOf m r g).onRelation? r a key =
      (g.onRelation? r a key).or (followed? m r a key) := by
  rw [ResourceGrants.onRelation?, get?_relations_withRelationsOf, followed?, hg, Option.bind_some,
    ResourceGrants.onRelation?]
  cases hnew : g.relations.contains key with
  | true => simp only [if_true, Option.or_none]
  | false =>
    rw [SortedMap.get?_of_contains_eq_false hnew]
    cases r.relation? key with
    | none => rfl
    | some rel => rfl

end Catalogue

/-- What is said most specifically about an action: on the key as a relation, what follows for it,
    on the key as a property, or on objects. -/
def ResourceGrants.lookupWith (g : ResourceGrants) (r : Resource) (a : Action)
    (key : Option String) (followed : Option Permission) : Permission :=
  ((((key.bind (g.onRelation? r a)).or followed).or (key.bind (g.onProp? a))).or
    (g.object.get? a)).getD .deny

theorem ResourceGrants.lookupWith_none (g : ResourceGrants) (r : Resource) (a : Action)
    (key : Option String) : g.lookupWith r a key none = g.lookup r a key := by
  rw [lookupWith, Option.or_none, lookup]

/-- What a policy says about an action, from what is said before anything follows for
    relations. -/
theorem Policy.IsCompiled.permission_live {p : Policy} {d : Declaration}
    (h : p.IsCompiled c d raw) (hr : c.get? r.name = some r)
    (hg : (c.beforeRelations raw).get? r.name = some g) (a : Action) (key : Option String) :
    p.permission r a key = (g.lookupWith r a key
      (key.bind (Catalogue.followed? (c.beforeRelations raw) r a))).map (.bind d.roles) := by
  rw [permission, h.live, Catalogue.get?_liveGrants d.roles hr, hg]
  simp only [Option.map_some, Option.getD_some, ResourceGrants.lookup_bind]
  rw [ResourceGrants.lookup, ResourceGrants.lookupWith]
  cases key with
  | none => rfl
  | some key =>
    simp only [Option.bind_some]
    rw [Catalogue.onRelation?_withRelationsOf hg]
    rfl

end Authorization
