import Authorization.Json.Value

/-!
# Conditions

A permission may depend on a *condition*: a predicate over the session that
makes a request and the object it is about. A condition is built from facts

* on the session: it holds one of some roles;
* on the object: it is in one of some variants, or a field of it has a value;
* on both: the session is a member of the object, or is the user named in a
  field of it;

and from the condition that never holds, that of calculated data, by *all of*
and *any of*. There is no negation: more roles never make less hold.
-/

namespace Authorization

/-- What a field is compared with. -/
inductive Operand
  /-- The user of the session. -/
  | requester
  /-- A value. -/
  | value (v : Json)

/-- A predicate over a session and an object. -/
inductive Condition
  /-- The session holds one of the roles. -/
  | role (names : NameSet)
  /-- The object is in one of the variants. -/
  | variant (names : NameSet)
  /-- The session is a member of the object: with one of the roles, once they are
      bound. -/
  | member (roles : Option NameSet)
  /-- A field of the object equals the operand. -/
  | field (name : String) (operand : Operand)
  /-- The data is computed: never holds. -/
  | calculated
  /-- Each of the parts holds. -/
  | allOf (parts : List Condition)
  /-- One of the parts holds. -/
  | anyOf (parts : List Condition)

namespace Condition

instance : Inhabited Condition := ⟨.calculated⟩

/-- Membership with any role. -/
def membership : Condition := .member none

/-- The field names the user of the session. -/
def owner (field : String) : Condition := .field field .requester

/-- What kind of condition it is. -/
inductive Kind
  | role
  | variant
  | member
  | field
  | calculated
  | allOf
  | anyOf
  deriving DecidableEq, Repr

/-- The kind of a condition. -/
def kind : Condition → Kind
  | role _ => .role
  | variant _ => .variant
  | member _ => .member
  | field _ _ => .field
  | calculated => .calculated
  | allOf _ => .allOf
  | anyOf _ => .anyOf

/-- Whether alternatives of this kind can be made one condition of the kind. -/
def Kind.mergeable : Kind → Bool
  | .role | .variant | .member => true
  | _ => false

/-- The parts of an *all of* or an *any of*. -/
def parts? : Condition → Option (List Condition)
  | allOf parts => some parts
  | anyOf parts => some parts
  | _ => none

mutual

/-- Whether deciding the condition may take an object. -/
def requiresObject : Condition → Bool
  | role _ | calculated => false
  | variant _ | member _ | field _ _ => true
  | allOf parts | anyOf parts => anyRequiresObject parts

/-- Whether deciding one of the conditions may take an object. -/
def anyRequiresObject : List Condition → Bool
  | [] => false
  | c :: cs => requiresObject c || anyRequiresObject cs

end

/-! ### Sameness -/

/-- Whether two operands are the same. -/
def sameOperand : Operand → Operand → Bool
  | .requester, .requester => true
  | .value v, .value w => v.same w
  | _, _ => false

mutual

/-- Whether two conditions are built alike, from the same values. -/
def same : Condition → Condition → Bool
  | role a, role b => a == b
  | variant a, variant b => a == b
  | member a, member b => a == b
  | field f v, field g w => f == g && sameOperand v w
  | calculated, calculated => true
  | allOf a, allOf b => sameParts a b
  | anyOf a, anyOf b => sameParts a b
  | _, _ => false

/-- Whether two lists of conditions are the same. -/
def sameParts : List Condition → List Condition → Bool
  | [], [] => true
  | a :: as, b :: bs => same a b && sameParts as bs
  | _, _ => false

end

instance : BEq Condition := ⟨same⟩

/-! ### Induction

What holds of a condition whenever it holds of all its parts, holds of every
condition. -/

mutual

/-- What passes from parts to wholes holds of every condition. -/
theorem byParts {P : Condition → Prop} (role : ∀ names, P (.role names))
    (variant : ∀ names, P (.variant names)) (member : ∀ roles, P (.member roles))
    (field : ∀ name operand, P (.field name operand)) (calculated : P .calculated)
    (allOf : ∀ parts, (∀ c ∈ parts, P c) → P (.allOf parts))
    (anyOf : ∀ parts, (∀ c ∈ parts, P c) → P (.anyOf parts)) : ∀ c, P c
  | .role names => role names
  | .variant names => variant names
  | .member roles => member roles
  | .field name operand => field name operand
  | .calculated => calculated
  | .allOf parts => allOf parts (eachByParts role variant member field calculated allOf anyOf parts)
  | .anyOf parts => anyOf parts (eachByParts role variant member field calculated allOf anyOf parts)

/-- What passes from parts to wholes holds of every condition in a list. -/
theorem eachByParts {P : Condition → Prop} (role : ∀ names, P (.role names))
    (variant : ∀ names, P (.variant names)) (member : ∀ roles, P (.member roles))
    (field : ∀ name operand, P (.field name operand)) (calculated : P .calculated)
    (allOf : ∀ parts, (∀ c ∈ parts, P c) → P (.allOf parts))
    (anyOf : ∀ parts, (∀ c ∈ parts, P c) → P (.anyOf parts)) :
    ∀ cs : List Condition, ∀ c ∈ cs, P c
  | [] => fun _ h => absurd h List.not_mem_nil
  | c :: cs => List.forall_mem_cons.2
      ⟨byParts role variant member field calculated allOf anyOf c,
        eachByParts role variant member field calculated allOf anyOf cs⟩

end

end Condition

end Authorization
