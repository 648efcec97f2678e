import Authorization.Cypher.Filter
import Authorization.Engine.Basic
import Authorization.Sql.Filter

/-!
# Privileges

The privileges of a session on a resource, or on one object of it: what can be
done is resolved and decided for the object (`Privileges.can`), enforced as the
settings say (`Privileges.verify`), used to blank what must not be seen of a
record (`Privileges.secure`), and put into queries for the objects that can be
read (`Privileges.filter`).
-/

namespace Authorization

/-- The privileges of a session on a resource, or on an object of it. -/
structure Privileges where
  /-- The session. -/
  session : Session
  /-- The resource. -/
  resource : Resource
  /-- The object, unless the resource is meant as a whole. -/
  object : Option Record

namespace Privileges

/-- The privileges of a session on a resource of a name. -/
def of (s : Session) (resource : String) (object : Option Record) : Operation Privileges := do
  let r ← Engine.ask (·.catalogue.get resource)
  return ⟨s, r, object⟩

/-- The privileges on another object. -/
def withObject (p : Privileges) (object : Record) : Privileges := { p with object := some object }

/-- Whether they are privileges on one object. -/
def isBound (p : Privileges) : Bool := p.object.isSome

/-- The permission for an action, on a key or on the object as a whole. -/
def resolve (p : Privileges) (a : Action) (key : Option String) : Operation Permission :=
  Engine.resolve p.session a p.resource.name key false

/-- Whether an action can be done. -/
def can (p : Privileges) (a : Action) (key : Option String) : Operation Bool := do
  ofExcept ((← p.resolve a key).holds p.session p.object)

/-- Enforces that an action can be done. -/
def verify (p : Privileges) (a : Action) (key : Option String) : Operation Unit := do
  match (← get).settings.mode with
  | .off => return
  | .advisory =>
    unless ← p.can a key do
      Engine.warn .allowedAnyway
  | .strict =>
    unless ← p.can a key do
      throw (.accessDenied p.resource.name key a)

end Privileges

/-! ### Secured records -/

/-- A field as a session gets to see it. -/
structure SecuredField where
  /-- The value, or nothing in its place. -/
  value : Json
  /-- Whether the field can be read. -/
  canRead : Bool
  /-- Whether the field can be changed. -/
  canEdit : Bool

/-- A record as a session gets to see it. -/
structure SecuredRecord where
  /-- The resource. -/
  resource : String
  /-- The fields by name. -/
  fields : NameMap SecuredField

/-- What stands in place of a value that cannot be read: a list shows that it is one. -/
def blanked : Json → Json
  | .array _ => .array []
  | _ => .null

/-- A value as it is shown. -/
def shown (canRead : Bool) (value : Json) : Json := if canRead then value else blanked value

namespace Privileges

/-- Whether the value under a key can be changed: a relation also by adding to it. -/
def canChange (p : Privileges) (key : String) : Operation Bool := do
  if (p.resource.relation? key).isSome then
    if ← p.can .create (some key) then return true else p.can .edit (some key)
  else p.can .edit (some key)

/-- The value under a secured key, as it is shown. -/
def secureKey (p : Privileges) (record : Record) (key : String) : Operation SecuredField := do
  let canRead ← p.can .read (some key)
  let canEdit ← p.canChange key
  return ⟨shown canRead ((record.fields.get? key).getD .null), canRead, canEdit⟩

/-- The fields that are not secured: they are shown, and cannot be changed. -/
def unsecured (r : Resource) (record : Record) : NameMap SecuredField :=
  (record.fields.filter fun name _ => !r.props.contains name && (r.relation? name).isNone).mapValues
    fun _ value => ⟨value, true, false⟩

/-- The secured keys, each with its value as it is shown. -/
def secureKeys (p : Privileges) (record : Record) :
    List String → NameMap SecuredField → Operation (NameMap SecuredField)
  | [], fields => return fields
  | key :: keys, fields => do
    let field ← p.secureKey record key
    p.secureKeys record keys (fields.insert key field)

/-- A record as the session gets to see it, if it can see it at all. Without another object,
    conditions are decided on the record. -/
def secure (p : Privileges) (record : Record) : Operation SecuredRecord := do
  let p := { p with object := some (p.object.getD record) }
  p.verify .read none
  let fields ← p.secureKeys record p.resource.securedKeys (unsecured p.resource record)
  return ⟨p.resource.name, fields⟩

end Privileges

/-! ### Filters -/

/-- What a filter is made for. -/
inductive Backend
  /-- A graph query, in which a node has the given name. -/
  | cypher (node : String)
  /-- A table query, in which the table has the given name. -/
  | sql (qualifier : String)
  deriving DecidableEq, Repr

/-- A permission as part of a query. -/
inductive Filter
  /-- Every object passes. -/
  | always
  /-- No object passes. -/
  | never
  /-- A part of a graph query. -/
  | cypher (fragment : Cypher.Fragment)
  /-- A part of a table query. -/
  | sql (filter : Sql.Filter)

namespace Filter

/-- Whether every object passes. -/
def isAlways : Filter → Bool
  | always => true
  | _ => false

/-- Whether no object passes. -/
def isNever : Filter → Bool
  | never => true
  | _ => false

/-- The part of a table query. -/
def toSql : Filter → Except Error Sql.Fragment
  | always => .ok (Sql.Predicate.constant true).fragment
  | never => .ok (Sql.Predicate.constant false).fragment
  | sql filter => .ok filter.fragment
  | cypher _ => .error (.configuration .cypherIntoSql)

/-- The part of a graph query. -/
def toCypher : Filter → Except Error Cypher.Fragment
  | always => .ok ((Cypher.Predicate.constant true).fragment "")
  | never => .ok ((Cypher.Predicate.constant false).fragment "")
  | cypher fragment => .ok fragment
  | sql _ => .error (.configuration .sqlAsCypher)

/-- The filter for a permission. -/
def ofPermission (s : Session) (storage : Storage) (backend : Backend) : Permission → Filter
  | .allow => always
  | .deny => never
  | .when c =>
    match backend with
    | .cypher node => cypher (Cypher.fragment node s c)
    | .sql qualifier => sql ⟨⟨qualifier, storage, s⟩, c⟩

end Filter

/-- The filter for the objects on which an action can be done. -/
def Privileges.filter (p : Privileges) (a : Action) (backend : Backend) : Operation Filter := do
  let optimized := (← get).settings.optimizeFilters
  let permission ← Engine.resolve p.session a p.resource.name none optimized
  return .ofPermission p.session p.resource.storage backend permission

end Authorization
