import Authorization.Condition.Basic
import Authorization.Json.Printer
import Authorization.Resource
import Authorization.Session
import Authorization.Sql.Predicate

/-!
# Conditions on rows

A condition, for a session, as a predicate on the rows of the table in which
the objects of a resource are stored. What depends on the session alone is
decided beforehand; so is what takes a user, for a session without one. The
membership of an object is looked up in the table of memberships.
-/

namespace Authorization.Sql

/-- Where a condition is to be tested. -/
structure Context where
  /-- What the query calls the table of the objects. -/
  qualifier : String
  /-- How the objects are stored. -/
  storage : Storage
  /-- The session for which the query is made. -/
  session : Session

namespace Context

/-- A column of the objects. -/
def column (ctx : Context) (name : String) : Column := ⟨ctx.qualifier, name⟩

/-- The user of the session, as a bound value. -/
def user? (ctx : Context) : Option Value := ctx.session.user.map fun u => .text u.text

end Context

/-- The bound value of a number: the integer that fits 64 bits, and otherwise a double. -/
def Value.ofNumber (n : Number) : Value :=
  match n.toInt64? with
  | some i => .integer i
  | none => .real n.toReal

/-- The test of a column against a value. Null is tested as such, and lists and objects are
    stored as their texts. -/
def comparison (column : Column) : Json → Predicate
  | .null => .isNull column
  | .bool b => .equals column (.integer b.toInt)
  | .number n => .equals column (.ofNumber n)
  | .string s => .equals column (.text s)
  | value => .equals column (.text value.compact)

mutual

/-- The predicate for a condition. -/
def Predicate.ofCondition (ctx : Context) : Condition → Predicate
  | .role names => .constant (ctx.session.hasAnyRole names)
  | .variant names =>
    if names.isEmpty then .constant false
    else .oneOf (ctx.column ctx.storage.variantColumn) (names.toList.map .text)
  | .member roles =>
    match ctx.user? with
    | none => .constant false
    | some user =>
      .membership ctx.storage.membershipTable (ctx.column ctx.storage.idColumn) user
        (roles.map fun names => names.toList.map .text)
  | .field name .requester =>
    match ctx.user? with
    | none => .constant false
    | some user => .equals (ctx.column name) user
  | .field name (.value v) => comparison (ctx.column name) v
  | .calculated => .constant false
  | .allOf parts => .allOf (Predicate.ofConditions ctx parts)
  | .anyOf parts => .anyOf (Predicate.ofConditions ctx parts)

/-- The predicates for conditions. -/
def Predicate.ofConditions (ctx : Context) : List Condition → List Predicate
  | [] => []
  | c :: cs => Predicate.ofCondition ctx c :: Predicate.ofConditions ctx cs

end

/-- A condition to be put into a query, together with where it is to be tested. -/
structure Filter extends Context where
  /-- The condition. -/
  condition : Condition

namespace Filter

/-- The predicate that the filter puts into a query. -/
def predicate (f : Filter) : Predicate := .ofCondition f.toContext f.condition

/-- The text that the filter puts into a query and the values it binds. -/
def fragment (f : Filter) : Fragment := f.predicate.fragment

end Filter

end Authorization.Sql
