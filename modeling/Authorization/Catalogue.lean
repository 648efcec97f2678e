import Authorization.Error
import Authorization.Resource

/-!
# Catalogues

A catalogue holds the resources of a domain, by name. All that they name is in
it: the interfaces they implement and the targets of their relations.

A resource lists every interface it implements, near and far. It is a *direct*
implementation of those that it does not get through another one in its list
(`Catalogue.directInterfaces`); an interface is a resource with a direct
implementation (`mem_implementations`).
-/

namespace Authorization

/-- The first interface that a resource names and the resources lack. -/
def unknownInterface? (rs : NameMap Resource) (r : Resource) : Option UnknownResource :=
  (r.interfaces.find? fun i => !rs.contains i).map fun i => .interfaceOf i r.name

/-- The first relation of a resource that leads to none of the resources. -/
def unknownTarget? (rs : NameMap Resource) (r : Resource) : Option UnknownResource :=
  (r.relations.toList.find? fun e => !rs.contains e.2.target).map fun e =>
    .targetOf e.2.target r.name e.1

/-- The first name in the resources that stands for none of them. -/
def unknownResource? (rs : NameMap Resource) : Option UnknownResource :=
  rs.values.findSome? fun r => (unknownInterface? rs r).or (unknownTarget? rs r)

/-- The resources of a domain. -/
structure Catalogue where
  /-- The resources by name. -/
  resources : NameMap Resource
  /-- Whatever they name is among them. -/
  closed : unknownResource? resources = none

namespace Catalogue

/-- The catalogue without resources. -/
def empty : Catalogue := ⟨∅, rfl⟩

instance : Inhabited Catalogue := ⟨empty⟩

/-- The catalogue of the resources; of several with one name the last stands. -/
def ofList (rs : List Resource) : Except Error Catalogue :=
  let resources := SortedMap.ofList (rs.map fun r => (r.name, r))
  match h : unknownResource? resources with
  | none => .ok ⟨resources, h⟩
  | some unknown => .error (.unknownResource unknown)

/-- The resources, in the order of their names. -/
def toList (c : Catalogue) : List Resource := c.resources.values

/-- Whether there is a resource of the name. -/
def contains (c : Catalogue) (name : String) : Bool := c.resources.contains name

/-- The resource of a name, if there is one. -/
def get? (c : Catalogue) (name : String) : Option Resource := c.resources.get? name

/-- The resource of a name. -/
def get (c : Catalogue) (name : String) : Except Error Resource :=
  match c.get? name with
  | some r => .ok r
  | none => .error (.unknownResource (.named name))

theorem get_eq_ok {c : Catalogue} {name : String} {r : Resource} :
    c.get name = .ok r ↔ c.get? name = some r := by
  rw [get]
  split
  · rename_i h
    rw [h, Except.ok.injEq, Option.some.injEq]
  · rename_i h
    rw [h]
    exact ⟨nofun, nofun⟩

/-! ### Interfaces -/

/-- The interfaces of a resource that none of its other interfaces implements. -/
def directInterfaces (c : Catalogue) (r : Resource) : List String :=
  let inherited := (r.interfaces.filterMap c.get?).flatMap (·.interfaces)
  r.interfaces.filter fun i => !inherited.contains i

/-- The direct implementations of a resource. -/
def implementations (c : Catalogue) (interface : String) : NameSet :=
  .ofList ((c.toList.filter fun r => (c.directInterfaces r).contains interface).map (·.name))

theorem mem_implementations {c : Catalogue} {interface name : String} :
    name ∈ c.implementations interface ↔
      ∃ r ∈ c.toList, interface ∈ c.directInterfaces r ∧ r.name = name := by
  rw [implementations, SortedSet.mem_ofList]
  simp [and_assoc]

/-- Whether the resource has an implementation. -/
def isInterface (c : Catalogue) (name : String) : Bool := !(c.implementations name).isEmpty

end Catalogue

end Authorization
