import Authorization.Proofs.Permission.Alike
import Authorization.Proofs.Policy.CommonGrants

/-!
# Grants alike

Grants are *alike* if they say alike of the same (`ResourceGrants.Alike`). What
follows from grants, for decisions and for the database, is alike if the grants
are: `Catalogue.alike_liveGrants`, `Catalogue.alike_databaseGrants`. Whether
anything follows depends on what is spoken of, and on ids, and these are the
same; so are the powers that come with them (`Catalogue.powers?_eq`).
-/

namespace Authorization

/-- The decisions are about the same actions, and alike. -/
abbrev Decisions.Alike (d e : Decisions) : Prop := d.Agree Permission.Alike e

/-- Grants say alike of the same. -/
structure ResourceGrants.Alike (g h : ResourceGrants) : Prop where
  /-- What is said of objects. -/
  object : Decisions.Alike g.object h.object
  /-- What is said of properties. -/
  props : g.props.Agree Decisions.Alike h.props
  /-- What is said of relations. -/
  relations : g.relations.Agree Decisions.Alike h.relations

/-- Grants by resource are about the same resources, and alike. -/
abbrev GrantMap.Alike (m n : GrantMap) : Prop := m.Agree ResourceGrants.Alike n

variable {c : Catalogue} {m n : GrantMap} {g g' h h' : ResourceGrants}
  {gs hs : List ResourceGrants}

namespace ResourceGrants.Alike

theorem onRelation? (hgh : g.Alike h) (r : Resource) (a : Action) (key : String) :
    Option.Rel Permission.Alike (g.onRelation? r a key) (h.onRelation? r a key) :=
  (Option.Rel.refl (fun _ => rfl) (r.relation? key)).bind fun _ _ _ =>
    (hgh.relations key).bind fun _ _ hde => hde a

theorem onProp? (hgh : g.Alike h) (a : Action) (key : String) :
    Option.Rel Permission.Alike (g.onProp? a key) (h.onProp? a key) :=
  (hgh.props key).bind fun _ _ hde => hde a

/-- What is looked up is alike. -/
theorem lookup (hgh : g.Alike h) (r : Resource) (a : Action) (key : Option String) :
    (g.lookup r a key).Alike (h.lookup r a key) := by
  rw [ResourceGrants.lookup, ResourceGrants.lookup]
  refine Option.Rel.getD (.or (.or ?_ ?_) (hgh.object a)) .deny
  · cases key with
    | none => exact .none
    | some key => exact hgh.onRelation? r a key
  · cases key with
    | none => exact .none
    | some key => exact hgh.onProp? a key

theorem bind (hgh : g.Alike h) (roles : Option NameSet) : (g.bind roles).Alike (h.bind roles) where
  object := hgh.object.mapValues fun _ _ _ hpq => hpq.bind roles
  props := hgh.props.mapValues fun _ _ _ hde => hde.mapValues fun _ _ _ hpq => hpq.bind roles
  relations := hgh.relations.mapValues fun _ _ _ hde =>
    hde.mapValues fun _ _ _ hpq => hpq.bind roles

theorem readOnly (hgh : g.Alike h) : g.readOnly.Alike h.readOnly where
  object := hgh.object.filter fun _ _ _ _ => rfl
  props := hgh.props.mapValues fun _ _ _ hde => hde.filter fun _ _ _ _ => rfl
  relations := hgh.relations.mapValues fun _ _ _ hde => hde.filter fun _ _ _ _ => rfl

end ResourceGrants.Alike

/-! ### What is common to grants -/

theorem alike_common (hgs : gs.Forall₂ ResourceGrants.Alike hs) (i : Resource) (a : Action)
    (key : Option String) : (common i gs a key).Alike (common i hs a key) :=
  .intersect (List.rel_map (fun _ _ hgh => hgh.lookup i a key) hgs)

theorem Permission.Alike.unlessDenied {p q : Permission} (hpq : p.Alike q) :
    Option.Rel Permission.Alike p.unlessDenied q.unlessDenied := by
  rw [Permission.unlessDenied, Permission.unlessDenied, hpq.isDeny_eq]
  split
  · exact .none
  · exact .some hpq

theorem alike_commonDecisions (hgs : gs.Forall₂ ResourceGrants.Alike hs) (i : Resource)
    (key : Option String) (actions : List Action) :
    Decisions.Alike (commonDecisions i gs key actions) (commonDecisions i hs key actions) := by
  intro a
  rw [get?_commonDecisions, get?_commonDecisions]
  split
  · exact (alike_common hgs i a key).unlessDenied
  · exact .none

/-- What is common to grants that are alike is alike. -/
theorem alike_commonGrants (hgs : gs.Forall₂ ResourceGrants.Alike hs) (i : Resource) :
    (commonGrants i gs).Alike (commonGrants i hs) where
  object a := by
    rw [object_commonGrants, object_commonGrants]
    exact (alike_common hgs i a none).unlessDenied
  props key := by
    rw [get?_props_commonGrants, get?_props_commonGrants,
      hgs.any_eq fun _ _ hgh => hgh.props.contains_eq key]
    split
    · exact .some (alike_commonDecisions hgs i _ _)
    · exact .none
  relations key := by
    rw [get?_relations_commonGrants, get?_relations_commonGrants,
      hgs.any_eq fun _ _ hgh => hgh.relations.contains_eq key]
    refine (Option.Rel.refl (fun _ => rfl) (i.relation? key)).bind ?_
    rintro rel _ rfl
    split
    · exact .some (alike_commonDecisions hgs i _ _)
    · exact .none

namespace Catalogue

/-! ### What follows for resources -/

theorem alike_inferred? (hmn : m.Alike n) (c : Catalogue) (r : Resource) :
    Option.Rel ResourceGrants.Alike (c.inferred? m r) (c.inferred? n r) := by
  rw [inferred?, inferred?, hmn.contains_eq]
  split
  · exact .none
  · exact (List.rel_mapM hmn _).map fun _ _ hgs => alike_commonGrants hgs r

theorem alike_withDefaultInterfaces (hmn : m.Alike n) :
    GrantMap.Alike (c.withDefaultInterfaces m) (c.withDefaultInterfaces n) := by
  refine hmn.insertAll_filterMap (fun r => ?_) c.toList
  exact (alike_inferred? hmn c r).map fun _ _ hgh => ⟨rfl, hgh⟩

theorem alike_nearest? (hmn : m.Alike n) (r : Resource) :
    Option.Rel ResourceGrants.Alike (nearest? m r) (nearest? n r) :=
  List.rel_findSome? hmn r.interfaces

theorem alike_inherited (hgh : g.Alike h) (r : Resource) :
    (inherited r g).Alike (inherited r h) where
  object := hgh.object
  props := hgh.props.filter fun _ _ _ _ => rfl
  relations := hgh.relations.filter fun _ _ _ _ => rfl

theorem alike_withDefaultImplementations (hmn : m.Alike n) :
    GrantMap.Alike (c.withDefaultImplementations m) (c.withDefaultImplementations n) := by
  rw [withDefaultImplementations_eq, withDefaultImplementations_eq]
  refine hmn.insertAll_filterMap (fun r => ?_) c.toList
  rw [takenOver?, takenOver?, hmn.contains_eq]
  split
  · exact .none
  · exact ((alike_nearest? hmn r).map fun _ _ hgh => alike_inherited hgh r).map fun _ _ hgh =>
      ⟨rfl, hgh⟩

/-! ### What follows for relations -/

theorem alike_defaultRelation? (hmn : m.Alike n) (rel : Relation) :
    Option.Rel Decisions.Alike (defaultRelation? m rel) (defaultRelation? n rel) :=
  (hmn rel.target).map fun _ _ hgh => hgh.object.filter fun _ _ _ _ => rfl

theorem alike_withRelationsOf (hmn : m.Alike n) (r : Resource) (hgh : g.Alike h) :
    (withRelationsOf m r g).Alike (withRelationsOf n r h) where
  object := hgh.object
  props := hgh.props
  relations := by
    refine hgh.relations.insertAll_filterMap (fun e => ?_) r.relations.toList
    rw [hgh.relations.contains_eq]
    split
    · exact .none
    · exact (alike_defaultRelation? hmn e.2).map fun _ _ hde => ⟨rfl, hde⟩

theorem alike_withDefaultRelations (hmn : m.Alike n) :
    GrantMap.Alike (c.withDefaultRelations m) (c.withDefaultRelations n) := by
  refine hmn.mapValues fun name g h hgh => ?_
  cases c.get? name with
  | none => exact hgh
  | some r => exact alike_withRelationsOf hmn r hgh

/-- Grants for decisions are alike if they follow from grants that are. -/
theorem alike_liveGrants (hmn : m.Alike n) (roles : Option NameSet) :
    GrantMap.Alike (c.liveGrants roles m) (c.liveGrants roles n) :=
  (alike_withDefaultRelations (alike_withDefaultImplementations
    (alike_withDefaultInterfaces hmn))).mapValues fun _ _ _ hgh => hgh.bind roles

/-! ### What is left to interfaces -/

theorem sameInDatabase_eq (hg : g.Alike g') (hh : h.Alike h') :
    sameInDatabase g h = sameInDatabase g' h' := by
  have hids : ∀ {g g' : ResourceGrants}, g.Alike g' → ∀ a,
      (g.object.get? a).map (·.id) = (g'.object.get? a).map (·.id) := fun hg a =>
    (hg.object a).map_eq fun _ _ => Permission.Alike.id_eq
  simp only [sameInDatabase, hids hg, hids hh]

theorem isRedundant_eq (hmn : m.Alike n) (r : Resource) (hgh : g.Alike h) :
    isRedundant m r g = isRedundant n r h :=
  (alike_nearest? hmn r).any_eq fun _ _ habove => sameInDatabase_eq hgh habove

theorem alike_withoutRedundant (hmn : m.Alike n) :
    GrantMap.Alike (c.withoutRedundant m) (c.withoutRedundant n) := by
  refine hmn.filter fun name g h hgh => ?_
  cases c.get? name with
  | none => rfl
  | some r => rw [Option.any_some, Option.any_some, isRedundant_eq hmn r hgh]

/-- Grants for the database are alike if they follow from grants that are. -/
theorem alike_databaseGrants (hmn : m.Alike n) :
    GrantMap.Alike (c.databaseGrants m) (c.databaseGrants n) := by
  refine (alike_withoutRedundant (alike_withDefaultImplementations hmn)).mapValues ?_
  intro name g h hgh
  split
  · exact hgh.readOnly
  · exact hgh

/-! ### Powers -/

theorem unsaid?_eq (hmn : m.Alike n) (c : Catalogue) (depth : Nat) :
    c.unsaid? m depth = c.unsaid? n depth := by
  induction depth with
  | zero => rfl
  | succ depth ih =>
    funext name
    rw [unsaid?, unsaid?, hmn.contains_eq, ih]

/-- What can be created is read off whether each resource can be. -/
theorem creatable_eq_filter (m : GrantMap) : creatable m =
    ((m.mapValues fun _ g => (g.object.get? .create).any Permission.isAllow).toList.filter
      (·.2)).map Prod.fst := by
  rw [creatable, SortedMap.mapValues, List.filter_map, List.map_map]
  rfl

theorem creatable_eq (hmn : m.Alike n) : creatable m = creatable n := by
  rw [creatable_eq_filter, creatable_eq_filter, hmn.mapValues_eq fun _ _ _ hgh =>
    (hgh.object .create).any_eq fun _ _ => Permission.Alike.isAllow_eq]

/-- Grants that are alike come with the same powers. -/
theorem powers?_eq (hmn : m.Alike n) (c : Catalogue) : c.powers? m = c.powers? n := by
  have hof : c.powersOf? m = c.powersOf? n := by
    funext name
    rw [powersOf?, powersOf?, unsaidBelow?, unsaidBelow?, unsaid?_eq hmn]
  rw [powers?, powers?, creatable_eq hmn, hof]

end Catalogue

end Authorization
