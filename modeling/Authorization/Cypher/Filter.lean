import Authorization.Condition.Basic
import Authorization.Cypher.Predicate
import Authorization.Session

/-!
# Conditions on nodes

A condition, for a session, as a predicate on the nodes that stand for the
objects of a resource. What depends on the session alone is decided beforehand;
so is what takes a user, for a session without one. Memberships are nodes of
their own between objects and users, and list the roles held.
-/

namespace Authorization.Cypher

/-- The user of a session, as a parameter. -/
def requester? (s : Session) : Option Parameter := s.user.map fun u => .requester u.text

/-- A set of names, as a parameter. -/
def namesParameter (stem : String) (names : NameSet) : Parameter :=
  .numbered stem (.ofTexts names.toList)

mutual

/-- The predicate for a condition. -/
def Predicate.ofCondition (s : Session) : Condition → Predicate
  | .role names => .constant (s.hasAnyRole names)
  | .variant names => .oneOf "variant" (namesParameter "variants" names)
  | .member roles =>
    match requester? s with
    | none => .constant false
    | some user => .membership user (roles.map (namesParameter "memberRoles"))
  | .field name .requester =>
    match requester? s with
    | none => .constant false
    | some user => .equals name user
  | .field name (.value v) => .equals name (.numbered name v)
  | .calculated => .constant false
  | .allOf parts => .allOf (Predicate.ofConditions s parts)
  | .anyOf parts => .anyOf (Predicate.ofConditions s parts)

/-- The predicates for conditions. -/
def Predicate.ofConditions (s : Session) : List Condition → List Predicate
  | [] => []
  | c :: cs => Predicate.ofCondition s c :: Predicate.ofConditions s cs

end

/-- The text that tests a condition on `node`, and its parameters. -/
def fragment (node : String) (s : Session) (c : Condition) : Fragment :=
  (Predicate.ofCondition s c).fragment node

end Authorization.Cypher
