import Authorization.Action
import Authorization.Sorted.Map
import Authorization.Text.Snake

/-!
# Resources

A resource is a type of secured objects: its properties, its relations to other
resources, the interfaces it implements, the variants its objects can be in,
and where they are stored. Properties and relations are its *secured keys*.

Calculated data is computed by the application: a whole resource, or single
properties. A calculated property is a secured property too.
-/

namespace Authorization

/-- A relation of a resource to the objects of another. -/
structure Relation where
  /-- How many objects it leads to. -/
  cardinality : Cardinality
  /-- The resource of these objects. -/
  target : String
  deriving DecidableEq, Repr

/-- Where the objects of a resource are stored. -/
structure Storage where
  /-- The table of the objects. -/
  table : String
  /-- Its column of identifiers. -/
  idColumn : String
  /-- Its column of variants. -/
  variantColumn : String
  /-- The table of memberships: rows of an object, a user and a role. -/
  membershipTable : String
  deriving DecidableEq, Repr

/-- The storage of a resource that says nothing else: names follow its own. -/
def Storage.ofName (name : String) : Storage where
  table := Text.snakeCase name
  idColumn := "id"
  variantColumn := "variant"
  membershipTable := Text.snakeCase name ++ "_members"

/-- A type of secured objects. -/
structure Resource where
  /-- The name of the resource. -/
  name : String
  /-- The secured properties. -/
  props : NameSet
  /-- The properties computed by the application. -/
  calculatedProps : NameSet
  /-- The relations by name. -/
  relations : NameMap Relation
  /-- Whether the whole resource is computed by the application. -/
  calculated : Bool
  /-- The interfaces it implements, nearest first. -/
  interfaces : List String
  /-- The variants its objects can be in. -/
  variants : List String
  /-- Where its objects are stored. -/
  storage : Storage

namespace Resource

/-- A resource with nothing but a name. -/
def ofName (name : String) : Resource :=
  ⟨name, ∅, ∅, ∅, false, [], [], .ofName name⟩

/-- The resource with further properties. -/
def withProps (r : Resource) (props : List String) : Resource :=
  { r with props := r.props.union (.ofList props) }

/-- The resource with further properties that are computed. -/
def withCalculatedProps (r : Resource) (props : List String) : Resource :=
  { r with
    props := r.props.union (.ofList props)
    calculatedProps := r.calculatedProps.union (.ofList props) }

/-- The resource with a relation, in place of any other of its name. -/
def withRelation (r : Resource) (name : String) (cardinality : Cardinality) (target : String) :
    Resource :=
  { r with relations := r.relations.insert name ⟨cardinality, target⟩ }

/-- The secured keys: first the properties, then the relations. -/
def securedKeys (r : Resource) : List String := r.props.toList ++ r.relations.keys

/-- The relation of a name, if there is one. -/
def relation? (r : Resource) (key : String) : Option Relation := r.relations.get? key

/-- Whether an action means anything for a key: a relation goes by its cardinality,
    anything else is a property. -/
def supports (r : Resource) (key : String) (a : Action) : Bool :=
  match r.relation? key with
  | some relation => relation.cardinality.allows a
  | none => Action.onProperty.contains a

/-- Whether the data under a key, or of the whole object, is computed. -/
def isCalculated (r : Resource) (key : Option String) : Bool :=
  r.calculated || key.any r.calculatedProps.contains

end Resource

end Authorization
