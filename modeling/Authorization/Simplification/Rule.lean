import Authorization.Simplification.Factoring

/-!
# Simplification rules

A rule simplifies the top of a condition, or says that it has nothing to do
there. None changes what the condition means:

* `flatten` replaces a joining of one part by the part, and lifts the parts of
  *all of* inside *all of*, and of *any of* inside *any of*, one level up;
* `dropRepeats` drops parts that repeat the id of an earlier one;
* `factor` factors alternatives by a kind of condition (`factorBy?`).
-/

namespace Authorization

/-- A rule for simplifying conditions. -/
inductive Rule
  | flatten
  | dropRepeats
  | factor (kind : Condition.Kind)
  deriving DecidableEq, Repr

namespace Rule

/-- The parts that *all of* would take over from a part of it. -/
def conjuncts : Condition → List Condition
  | .allOf parts => parts
  | c => [c]

/-- Lifts the parts of joinings of the same kind. -/
def flatten? : Condition → Option Condition
  | .allOf [c] => some c
  | .anyOf [c] => some c
  | .allOf parts =>
    if parts.any (·.kind == .allOf) then some (.allOf (parts.flatMap conjuncts)) else none
  | .anyOf parts =>
    if parts.any (·.kind == .anyOf) then some (.anyOf (parts.flatMap Condition.alternatives))
    else none
  | _ => none

/-- The distinct ones of the conditions, if they are fewer. -/
def fewer? (cs : List Condition) : Option (List Condition) :=
  let distinct := Condition.distinct cs
  if distinct.length = cs.length then none else some distinct

/-- Drops parts that repeat an earlier one. -/
def dropRepeats? : Condition → Option Condition
  | .allOf parts => (fewer? parts).map .allOf
  | .anyOf parts => (fewer? parts).map .anyOf
  | _ => none

/-- What a rule makes of a condition, if it has something to do at its top. -/
def simplified? : Rule → Condition → Option Condition
  | flatten => flatten?
  | dropRepeats => dropRepeats?
  | factor kind => factorBy? kind

/-- The name of a kind of condition, in the names of rules. -/
def kindName : Condition.Kind → String
  | .role => "role"
  | .variant => "variant"
  | .member => "member"
  | .field => "field"
  | .calculated => "calculated"
  | .allOf => "and"
  | .anyOf => "or"

/-- The name of a rule. -/
def name : Rule → String
  | flatten => "flatten"
  | dropRepeats => "dedupe-siblings"
  | factor kind => "factor-" ++ kindName kind

end Rule

end Authorization
