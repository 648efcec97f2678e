import Authorization.Catalogue
import Authorization.Policy.Basic

/-!
# Default grants

A policy need not speak of every resource. From the grants that were written,
others follow:

* an interface of which nothing is said allows what all its direct
  implementations do, if something is said of each of them
  (`withDefaultInterfaces`);
* any other resource takes over what is said of its nearest interface
  (`withDefaultImplementations`);
* a relation of which nothing is said allows on the objects it leads to what is
  allowed on these objects, as far as that makes sense on the relation
  (`withDefaultRelations`).

For the database it is the other way round: an implementation whose grants are
those of its interface is left to the interface (`withoutRedundant`).
-/

namespace Authorization

/-- The decisions of all that hold for an action under a key, as they follow for an
    interface from its implementations. -/
def commonDecisions (interface : Resource) (gs : List ResourceGrants) (key : Option String)
    (actions : List Action) : Decisions :=
  .ofActions actions fun a => .intersect (gs.map (·.lookup interface a key))

/-- What follows for an interface from what is said of its implementations. -/
def commonGrants (interface : Resource) (gs : List ResourceGrants) : ResourceGrants where
  object := commonDecisions interface gs none Action.all
  props := .ofList <|
    (interface.props.toList.filter fun p => gs.any (·.props.contains p)).map fun p =>
      (p, commonDecisions interface gs (some p) Action.onProperty)
  relations := .ofList <|
    (interface.relations.toList.filter fun e => gs.any (·.relations.contains e.1)).map fun e =>
      (e.1, commonDecisions interface gs (some e.1) e.2.cardinality.actions)

namespace Catalogue

/-- What follows for a resource of which nothing is said, if it is an interface and
    something is said of all its direct implementations. -/
def inferred? (c : Catalogue) (raw : GrantMap) (r : Resource) : Option ResourceGrants :=
  if raw.contains r.name || !c.isInterface r.name then none
  else ((c.implementations r.name).toList.mapM raw.get?).map (commonGrants r)

/-- The grants and what follows from them for interfaces. -/
def withDefaultInterfaces (c : Catalogue) (raw : GrantMap) : GrantMap :=
  (c.toList.filterMap fun r => (c.inferred? raw r).map fun g => (r.name, g)).foldl
    (fun m e => m.insert e.1 e.2) raw

/-- The grants of the nearest interface of which something is said. -/
def nearest? (m : GrantMap) (r : Resource) : Option ResourceGrants := r.interfaces.findSome? m.get?

/-- What a resource takes over from an interface: what is said of keys that it has. -/
def inherited (r : Resource) (g : ResourceGrants) : ResourceGrants where
  object := g.object
  props := g.props.filter fun p _ => r.props.contains p
  relations := g.relations.filter fun k _ => r.relations.contains k

/-- The grants and what other resources take over from them. -/
def withDefaultImplementations (c : Catalogue) (m : GrantMap) : GrantMap :=
  (c.toList.filterMap fun r =>
    if m.contains r.name then none
    else (nearest? m r).map fun g => (r.name, inherited r g)).foldl
    (fun m e => m.insert e.1 e.2) m

/-- What follows for a relation from what is said of the resource it leads to. -/
def defaultRelation? (m : GrantMap) (rel : Relation) : Option Decisions :=
  (m.get? rel.target).map fun g => g.object.filter fun a _ => rel.cardinality.allows a

/-- The grants on a resource and what follows for its relations. -/
def withRelationsOf (m : GrantMap) (r : Resource) (g : ResourceGrants) : ResourceGrants :=
  { g with
    relations := (r.relations.toList.filterMap fun e =>
      if g.relations.contains e.1 then none
      else (defaultRelation? m e.2).map fun d => (e.1, d)).foldl
      (fun relations e => relations.insert e.1 e.2) g.relations }

/-- The grants and what follows from them for relations. -/
def withDefaultRelations (c : Catalogue) (m : GrantMap) : GrantMap :=
  m.mapValues fun name g =>
    match c.get? name with
    | some r => withRelationsOf m r g
    | none => g

/-- The actions that statements in the database are about. -/
def databaseActions : List Action := [.read, .create, .delete]

/-- Whether two grants say the same, by its id, about the objects in the database. -/
def sameInDatabase (g h : ResourceGrants) : Bool :=
  databaseActions.all fun a => (g.object.get? a).map (·.id) == (h.object.get? a).map (·.id)

/-- Whether what is said of a resource is what is said of its nearest interface. -/
def isRedundant (m : GrantMap) (r : Resource) (g : ResourceGrants) : Bool :=
  (nearest? m r).any (sameInDatabase g)

/-- The grants without those that interfaces stand for. -/
def withoutRedundant (c : Catalogue) (m : GrantMap) : GrantMap :=
  m.filter fun name g => !(c.get? name).any (isRedundant m · g)

/-- The grants where computed resources can only be read. -/
def withoutComputedWrites (c : Catalogue) (m : GrantMap) : GrantMap :=
  m.mapValues fun name g => if (c.get? name).any (·.calculated) then g.readOnly else g

end Catalogue

end Authorization
