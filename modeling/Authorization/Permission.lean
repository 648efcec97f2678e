import Authorization.Condition.Evaluation
import Authorization.Condition.Merge

/-!
# Permissions

What one policy says about an action, or what comes of all that apply: it is
allowed, it is denied, or it is allowed under a condition.

A denial means different things in merging. Within a policy it is a decision,
and stands against all else the policy grants (`mergeWithin`); across policies
it is only the policy's declining, and another one may still allow
(`mergeAcross`).
-/

namespace Authorization

/-- What is said about an action. -/
inductive Permission
  /-- It is allowed. -/
  | allow
  /-- It is denied. -/
  | deny
  /-- It is allowed where the condition holds. -/
  | when (condition : Condition)

namespace Permission

instance : Inhabited Permission := ⟨.deny⟩

/-- Allowed or denied. -/
def ofBool (allowed : Bool) : Permission := if allowed then .allow else .deny

/-- Whether it is allowed without condition. -/
def isAllow : Permission → Bool
  | allow => true
  | _ => false

/-- Whether it is denied. -/
def isDeny : Permission → Bool
  | deny => true
  | _ => false

/-- The condition, if there is one. -/
def condition? : Permission → Option Condition
  | when c => some c
  | _ => none

/-- Decides a permission for a session, and for an object if there is one. -/
def holds (s : Session) (o : Option Record) : Permission → Except Error Bool
  | allow => .ok true
  | deny => .ok false
  | when c => c.holds s o

/-- The permission with its condition replaced by what `f` makes of it. -/
def map (f : Condition → Condition) : Permission → Permission
  | when c => when (f c)
  | p => p

/-! ### Merging -/

/-- Where any of the conditions holds; nowhere if there are none. -/
def whenAny : List Condition → Permission
  | [] => .deny
  | cs => .when (.any cs)

/-- What a policy says that grants the same action several times: a denial decides,
    then an allowance, and otherwise any of the conditions is enough. -/
def mergeWithin (ps : List Permission) : Permission :=
  if ps.any isDeny then .deny
  else if ps.any isAllow then .allow
  else whenAny (ps.filterMap condition?)

/-- What several policies say together: an allowance decides, denials are passed over,
    and any of the conditions is enough. -/
def mergeAcross (ps : List Permission) : Permission :=
  if ps.any isAllow then .allow else whenAny (ps.filterMap condition?)

/-- What all of the permissions allow. -/
def intersect (ps : List Permission) : Permission :=
  if ps.any isDeny then .deny
  else
    match ps.filterMap condition? with
    | [] => .allow
    | cs => .when (.intersect cs)

/-! ### Identity -/

/-- The canonical text of a permission. -/
def id : Permission → String
  | allow => "true"
  | deny => "false"
  | when c => c.id

instance : ToString Permission := ⟨id⟩

/-- The fingerprint of a permission is that of its id. -/
def fingerprint (p : Permission) : String := Authorization.fingerprint p.id

end Permission

end Authorization
