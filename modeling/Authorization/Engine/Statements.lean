import Authorization.Engine.Basic
import Authorization.RowSecurity.Statement

/-!
# Statements for the database

The permissions in the database as row security statements. The table of an
interface holds the rows of its implementations too, so an implementation
without grants of its own needs no statement. Computed data is written by the
application, never by a session: whoever writes it may.
-/

namespace Authorization.Engine

/-- Whether an interface of a resource is computed. -/
def hasCalculatedInterface (c : Catalogue) (r : Resource) : Bool :=
  (r.interfaces.filterMap c.get?).any (·.calculated)

/-- The predicate that a permission comes to; none for a denial. -/
def rowPredicate? (storage : Storage) : Permission → Except Error (Option (List RowSecurity.Piece))
  | .deny => .ok none
  | .allow => .ok (some [.fixed "true"])
  | .when c => return some (← RowSecurity.predicate storage c)

/-- The permission in the database, optimized if the settings say so. -/
def databasePermission (a : Action) (resource : String) : Operation Permission := do
  let p ← ask (·.resolveForDatabase a resource)
  if (← get).settings.optimizeFilters then optimize p else return p

/-- The statement that lets the application write a computed resource; its interface has one
    already, if it is computed too. -/
def computedStatement? (c : Catalogue) (r : Resource) (kind : RowSecurity.Kind) :
    Option RowSecurity.Statement :=
  if hasCalculatedInterface c r then none
  else some (.of r kind "calculated" [.fixed "true"])

/-- The statement for a resource and a kind, if one is needed. -/
def statement? (resource : String) (kind : RowSecurity.Kind) :
    Operation (Option RowSecurity.Statement) := do
  let x := (← get).executor
  let r ← ofExcept (x.catalogue.get resource)
  if r.calculated && kind != .select then
    return computedStatement? x.catalogue r kind
  else if ← ofExcept (x.declaredForDatabase resource) then
    let p ← databasePermission kind.action resource
    let predicate? ← ofExcept (rowPredicate? r.storage p)
    return predicate?.map (.of r kind p.fingerprint)
  else return none

/-- The statements that are needed for resources and kinds, in their order. -/
def statementsFor : List (String × RowSecurity.Kind) → Operation (List RowSecurity.Statement)
  | [] => return []
  | (resource, kind) :: rest => do
    let s ← statement? resource kind
    let ss ← statementsFor rest
    return s.toList ++ ss

/-- All statements that are needed, by resource and then by kind. -/
def statements : Operation (List RowSecurity.Statement) := do
  let rs := (← get).executor.catalogue.toList
  statementsFor (rs.flatMap fun r => RowSecurity.Kind.all.map fun kind => (r.name, kind))

end Authorization.Engine
