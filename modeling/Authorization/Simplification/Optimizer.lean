import Authorization.Permission
import Authorization.Simplification.Rule

/-!
# Optimizing conditions

A pass simplifies a condition from the inside out: first its parts, then, by
each rule in turn, the condition itself. Passes are repeated until one finds
nothing to do, but only so many times: a condition that is still changing then
is left as it is, and not *settled*.
-/

namespace Authorization

/-- Rules, and how often to pass over a condition with them. -/
structure Optimizer where
  /-- The rules, in the order in which they are tried. -/
  rules : List Rule
  /-- The most passes there may be. -/
  maxPasses : Nat
  /-- There is at least one pass. -/
  pos : 0 < maxPasses

/-- A condition after optimizing. -/
structure Optimized where
  /-- The condition. -/
  condition : Condition
  /-- Whether the last pass found nothing to do. -/
  settled : Bool

namespace Optimizer

/-- The optimizer with the rules. Of no passes it makes one. -/
def ofRules (rules : List Rule) (maxPasses : Nat) : Optimizer :=
  ⟨rules, max maxPasses 1, by omega⟩

/-- The standard rules: for each kind whose conditions can be merged there is one to
    factor by it. -/
def standardRules : List Rule :=
  [.flatten, .dropRepeats, .factor .role, .factor .variant, .factor .member]

/-- The optimizer with the standard rules. -/
def standard (maxPasses : Nat) : Optimizer := ofRules standardRules maxPasses

/-- The number of passes where nothing else is said. -/
def usualPasses : Nat := 32

/-- The standard optimizer with the usual number of passes. -/
def usual : Optimizer := standard usualPasses

instance : Inhabited Optimizer := ⟨usual⟩

/-! ### Passes -/

/-- What the rules, one after the other, make of a condition, if any has something to
    do. -/
def applyRules : List Rule → Condition → Option Condition
  | [], _ => none
  | r :: rs, c =>
    match r.simplified? c with
    | none => applyRules rs c
    | some d => some ((applyRules rs d).getD d)

/-- What the rules make of a condition whose parts were passed over. -/
def finish (rules : List Rule) (c : Condition) : Option Condition → Option Condition
  | none => applyRules rules c
  | some d => some ((applyRules rules d).getD d)

mutual

/-- What one pass makes of a condition, if it finds something to do. -/
def pass (rules : List Rule) : Condition → Option Condition
  | .allOf parts => finish rules (.allOf parts) ((passParts rules parts).map .allOf)
  | .anyOf parts => finish rules (.anyOf parts) ((passParts rules parts).map .anyOf)
  | c => applyRules rules c

/-- What one pass makes of the parts of a condition, if it finds something to do in any. -/
def passParts (rules : List Rule) : List Condition → Option (List Condition)
  | [] => none
  | c :: cs =>
    match pass rules c, passParts rules cs with
    | none, none => none
    | d, ds => some (d.getD c :: ds.getD cs)

end

/-- The condition after as many passes as there is something to do, at most `passes`. -/
def repeatPass (rules : List Rule) : Nat → Condition → Optimized
  | 0, c => ⟨c, false⟩
  | passes + 1, c =>
    match pass rules c with
    | none => ⟨c, true⟩
    | some d => repeatPass rules passes d

/-- Optimizes a condition. -/
def run (o : Optimizer) (c : Condition) : Optimized := repeatPass o.rules o.maxPasses c

/-- The optimized condition. -/
def optimize (o : Optimizer) (c : Condition) : Condition := (o.run c).condition

/-- The permission with its condition optimized. -/
def optimizePermission (o : Optimizer) (p : Permission) : Permission := p.map o.optimize

/-- Whether the condition of a permission, if there is one, settles. -/
def settles (o : Optimizer) : Permission → Bool
  | .when c => (o.run c).settled
  | _ => true

/-- How an optimizer is described in listings. -/
def describe (o : Optimizer) : String :=
  let names := o.rules.map fun r => "\"" ++ r.name ++ "\""
  "Optimizer \x7b modules: [" ++ ", ".intercalate names ++ "], max_passes: " ++
    toString o.maxPasses ++ " \x7d"

end Optimizer

end Authorization
