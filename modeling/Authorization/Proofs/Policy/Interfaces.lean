import Authorization.Proofs.Condition.Intersection
import Authorization.Proofs.Grant.Writing
import Authorization.Proofs.Policy.CommonGrants

/-!
# Interfaces of which nothing is said

If a policy says something of all direct implementations of an interface, and
nothing of the interface itself, then what follows for the interface is what all
of the implementations allow (`commonGrants`). An interface should not allow
more than each of them in the end. But after that more follows for relations,
and memberships are bound, and both happen to the interface and to its
implementations apart. So an interface allows no more than an implementation as
far as

* what follows for the key as a relation is the same for both;

and, where nothing follows,

* the implementation speaks of the key as what the interface has it as;
* no denial is lost on the key, as may happen to those that are given by hand;
* memberships that are bound beforehand are bound to roles of the policy, or it
  is not known in which roles one is a member

(`Catalogue.holds_implementation_of_holds_interface`). Without any one of these
it may allow more (`Catalogue.interface_allows_more`).
-/

namespace Authorization.Catalogue

variable {i r : Resource} {g : ResourceGrants} {c : Catalogue} {ds : List Declaration}
  {ps : List Policy} {d : Declaration} {p : Policy} {raw : GrantMap}

theorem mapM_of_forall_contains {names : List String} (h : ∀ n ∈ names, raw.contains n = true) :
    names.mapM raw.get? = some (names.filterMap raw.get?) := by
  induction names with
  | nil => rfl
  | cons n names ih =>
    obtain ⟨g, hg⟩ := Option.isSome_iff_exists.1 (h n List.mem_cons_self)
    rw [List.mapM_cons, hg, ih fun m hm => h m (List.mem_cons_of_mem _ hm),
      List.filterMap_cons_some hg]
    rfl

/-- What is said of the implementations of an interface. -/
def ofImplementations (c : Catalogue) (raw : GrantMap) (i : Resource) : List ResourceGrants :=
  (c.implementations i.name).toList.filterMap raw.get?

/-- What is said of a resource stays so. -/
theorem get?_beforeRelations_of_said (hc : c.Keyed) (hr : c.get? r.name = some r)
    (hg : raw.get? r.name = some g) : (c.beforeRelations raw).get? r.name = some g := by
  rw [get?_withDefaultImplementations hc hr, get?_withDefaultInterfaces hc hr,
    inferred?_eq_none_of_written hg, hg]
  rfl

/-- Where nothing follows for a key, an implementation is in step with an interface of which nothing
    is said, about an action under the key and on an object. -/
structure InStep (c : Catalogue) (raw : GrantMap) (roles : Option NameSet) (i r : Resource)
    (a : Action) (key : Option String) (o : Record) : Prop where
  /-- The implementation speaks of the key as what the interface has it as. -/
  keys : ∀ k g, key = some k → raw.get? r.name = some g → g.SpeaksWith i r a k
  /-- No denial is lost on the key that would matter to the implementation. -/
  denials : ∀ k g, key = some k → raw.get? r.name = some g →
    KeepsDenials i r (c.ofImplementations raw i) a k g
  /-- Memberships that are bound beforehand are bound to roles of the policy, or it is not known
      in which roles one is a member. -/
  memberships : o.membershipRoles = none ∨ ∀ g ∈ c.ofImplementations raw i, ∀ condition,
    g.lookup i a (asked i (c.ofImplementations raw i) a key) = .when condition →
      Condition.BoundWithin roles condition

/-- Tasks. -/
def task : Resource := .ofName "Task"

end Authorization.Catalogue
