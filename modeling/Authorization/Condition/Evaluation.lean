import Authorization.Condition.Basic
import Authorization.Error
import Authorization.Record
import Authorization.Session

/-!
# Deciding conditions

A condition is decided for a session, and for an object if there is one. The
parts of *all of* and *any of* are decided from left to right, and only until
the answer is known: what comes after may lack its object without harm. A
condition on the object that has to be decided without one is an error.
-/

namespace Authorization.Condition

/-- Whether the field of a record equals the operand. A field that is not there
    equals nothing, and the user is named by the text of the identifier. -/
def fieldHolds (s : Session) (r : Record) (name : String) : Operand → Bool
  | .requester =>
    match s.user, (r.fields.get? name).bind Json.text? with
    | some user, some actual => actual == user.text
    | _, _ => false
  | .value expected =>
    match r.fields.get? name with
    | some actual => actual.same expected
    | none => false

/-- Whether the membership of a record is one with the roles. Where either side is
    not known, any membership is. -/
def memberHolds (r : Record) (roles : Option NameSet) : Bool :=
  r.member &&
    match roles, r.membershipRoles with
    | some required, some held => required.meets held
    | _, _ => true

/-- Whether the variant of a record is among the names. -/
def variantHolds (r : Record) (names : NameSet) : Bool := r.variant.any names.contains

mutual

/-- Decides a condition. -/
def holds (s : Session) (o : Option Record) : Condition → Except Error Bool
  | role names => .ok (s.hasAnyRole names)
  | variant names =>
    match o with
    | some r => .ok (variantHolds r names)
    | none => .error (.missingContext (variant names))
  | member roles =>
    match o with
    | some r => .ok (memberHolds r roles)
    | none => .error (.missingContext (member roles))
  | field name operand =>
    match o with
    | some r => .ok (fieldHolds s r name operand)
    | none => .error (.missingContext (field name operand))
  | calculated => .ok false
  | allOf parts => allHold s o parts
  | anyOf parts => anyHolds s o parts

/-- Decides whether each of the conditions holds, up to the first that does not. -/
def allHold (s : Session) (o : Option Record) : List Condition → Except Error Bool
  | [] => .ok true
  | c :: cs =>
    match holds s o c with
    | .ok true => allHold s o cs
    | .ok false => .ok false
    | .error e => .error e

/-- Decides whether one of the conditions holds, up to the first that does. -/
def anyHolds (s : Session) (o : Option Record) : List Condition → Except Error Bool
  | [] => .ok false
  | c :: cs =>
    match holds s o c with
    | .ok true => .ok true
    | .ok false => anyHolds s o cs
    | .error e => .error e

end

end Authorization.Condition
