import Authorization.Engine.Privileges

/-!
# Edges and views

An *edge* is a secured key of a resource, with the privileges on it. A *view*
is on all keys at once: what was once found out about a key and an action is
remembered, as long as the view is kept.
-/

namespace Authorization

/-- Privileges on one secured key. -/
structure Edge where
  /-- The privileges on the object. -/
  privileges : Privileges
  /-- The key. -/
  key : String

namespace Edge

/-- The edge of a key, which has to be secured. -/
def of (p : Privileges) (key : String) : Except Error Edge :=
  if p.resource.securedKeys.contains key then .ok ⟨p, key⟩
  else .error (.configuration (.unknownKey p.resource.name key))

/-- Whether the key is a relation. -/
def isRelation (e : Edge) : Bool := (e.privileges.resource.relation? e.key).isSome

/-- Whether an action means anything for the key. -/
def supports (e : Edge) (a : Action) : Bool := e.privileges.resource.supports e.key a

/-- The permission for an action; what means nothing is denied. -/
def resolve (e : Edge) (a : Action) : Operation Permission :=
  if e.supports a then e.privileges.resolve a (some e.key) else return .deny

/-- Whether an action can be done; what means nothing cannot. -/
def can (e : Edge) (a : Action) : Operation Bool :=
  if e.supports a then e.privileges.can a (some e.key) else return false

/-- Enforces that an action can be done. -/
def verify (e : Edge) (a : Action) : Operation Unit := e.privileges.verify a (some e.key)

end Edge

/-! ### Views -/

/-- What was found out about keys, or the object as a whole, and actions. -/
abbrev Memo := List ((Option String × Action) × Bool)

/-- An operation on an engine that remembers what it finds out. -/
abbrev Viewing := ExceptT Error (StateM (Memo × Engine))

namespace View

/-- An operation on the engine alone. -/
def lift {α : Type} (op : Operation α) : Viewing α :=
  fun (memo, e) =>
    let (outcome, e) := op e
    (outcome, memo, e)

/-- The outcome of an operation with a memo, and memo and engine after it. -/
def run {α : Type} (memo : Memo) (e : Engine) (op : Viewing α) : Except Error α × Memo × Engine :=
  op (memo, e)

/-- Whether an action can be done, found out only once. -/
def can (p : Privileges) (a : Action) (key : Option String) : Viewing Bool := do
  match (← get).1.lookup (key, a) with
  | some allowed => return allowed
  | none =>
    let allowed ← lift (p.can a key)
    modify fun (memo, e) => (((key, a), allowed) :: memo, e)
    return allowed

/-- What can be done with a property, for each action that means anything on one. -/
def entry (p : Privileges) (key : String) :
    List Action → SortedMap Action Bool → Viewing (SortedMap Action Bool)
  | [], found => return found
  | a :: as, found => do
    let allowed ← can p a (some key)
    entry p key as (found.insert a allowed)

/-- Whether each of the keys can be read and edited. -/
def entries (p : Privileges) :
    List String → NameMap (SortedMap Action Bool) → Viewing (NameMap (SortedMap Action Bool))
  | [], found => return found
  | key :: keys, found => do
    let actions ← entry p key Action.onProperty ∅
    entries p keys (found.insert key actions)

/-- Whether each secured key can be read and edited. -/
def toMap (p : Privileges) : Viewing (NameMap (SortedMap Action Bool)) :=
  entries p p.resource.securedKeys ∅

end View

end Authorization
