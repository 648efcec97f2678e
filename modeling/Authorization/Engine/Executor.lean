import Authorization.Policy.Compilation
import Authorization.Settings

/-!
# Resolving permissions

What a session may do is asked of the compiled policies:

* what is computed can only be read;
* of the policies that apply to the session, each says what it says most
  specifically;
* what they say is merged: an allowance decides, and denials are passed over.

For the database nothing is known of the session, so what a policy for some
roles says there is said under the condition that the session holds one of
them (`forRoles`).
-/

namespace Authorization

/-- What a policy says about an action on a resource. -/
def Policy.permission (p : Policy) (r : Resource) (a : Action) (key : Option String) :
    Permission :=
  ((p.live.get? r.name).map (·.lookup r a key)).getD .deny

/-- The permission for the sessions that hold one of the roles, if there are any given. -/
def forRoles (roles : Option NameSet) (p : Permission) : Permission :=
  match roles, p with
  | none, p => p
  | some _, .deny => .deny
  | some names, .allow => .when (.role names)
  | some names, .when c => .when (.all [.role names, c])

/-- The grants of a policy that stand for a resource in the database: its own or those of the
    first of its interfaces that has some. -/
def Policy.databaseGrants? (p : Policy) (r : Resource) : Option ResourceGrants :=
  (p.database.get? r.name).or (Catalogue.nearest? p.database r)

/-- What a policy says about an action in the database. -/
def Policy.databasePermission (p : Policy) (r : Resource) (a : Action) : Permission :=
  forRoles p.roles (((p.databaseGrants? r).map (·.lookup r a none)).getD .deny)

/-- The compiled policies of a catalogue, and how to ask them. -/
structure Executor where
  /-- The resources. -/
  catalogue : Catalogue
  /-- What simplifies conditions. -/
  optimizer : Optimizer
  /-- The policies, once they are compiled. -/
  policies : Option (List Policy)

namespace Executor

/-- An executor without policies. -/
def ofSettings (c : Catalogue) (s : Settings) : Executor := ⟨c, s.optimizer, none⟩

/-- The executor with compiled policies. Policies are compiled once. -/
def compile (x : Executor) (ds : List Declaration) : Except Error Executor := do
  let ps ← x.catalogue.compile ds
  if x.policies.isSome then .error (.configuration .alreadyCompiled)
  else .ok { x with policies := some ps }

/-- Whether there are policies. -/
def isCompiled (x : Executor) : Bool := x.policies.isSome

/-- The policies. -/
def compiled (x : Executor) : Except Error (List Policy) :=
  match x.policies with
  | some ps => .ok ps
  | none => .error (.configuration .notCompiled)

/-- What policies say together about an action on a resource, for a session. -/
def merged (ps : List Policy) (s : Session) (r : Resource) (a : Action) (key : Option String) :
    Permission :=
  .mergeAcross ((ps.filter (·.appliesTo s)).map (·.permission r a key))

/-- What a session may do: an action on objects of a resource, or on a key of them. -/
def resolve (x : Executor) (s : Session) (a : Action) (resource : String)
    (key : Option String) : Except Error Permission := do
  let ps ← x.compiled
  let r ← x.catalogue.get resource
  return if r.isCalculated key && a != .read then .deny else merged ps s r a key

/-- What may be done in the database: an action on objects of a resource. -/
def resolveForDatabase (x : Executor) (a : Action) (resource : String) :
    Except Error Permission := do
  let ps ← x.compiled
  let r ← x.catalogue.get resource
  return .mergeAcross (ps.map (·.databasePermission r a))

/-- Whether a policy has grants of its own for a resource in the database. -/
def declaredForDatabase (x : Executor) (resource : String) : Except Error Bool := do
  return (← x.compiled).any (·.database.contains resource)

/-- The powers of a session. -/
def powersFor (x : Executor) (s : Session) : Except Error (SortedSet Power) := do
  return .ofList (((← x.compiled).filter (·.appliesTo s)).flatMap (·.powers.toList))

/-- Whether a session has a power. -/
def hasPower (x : Executor) (s : Session) (p : Power) : Except Error Bool := do
  return (← x.powersFor s).contains p

end Executor

end Authorization
