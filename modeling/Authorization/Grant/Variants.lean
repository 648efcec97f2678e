import Authorization.Grant.Objects

/-!
# Grants on variants

For a resource whose objects come in variants, grants can be restricted to some
of them. The restriction to variants and the condition staged besides are set
apart from each other, each in place of the one before, and what is granted is
granted under both.
-/

namespace Authorization

/-- A step in writing grants on variants. -/
inductive VariantStep
  /-- Restricts what follows to variants. -/
  | variants (names : List String)
  /-- Grants an action. -/
  | grant (action : Action)
  /-- Stages a condition. -/
  | when (condition : Condition)
  /-- Clears the stage and lifts the restriction. -/
  | or
  /-- Grants on properties. -/
  | specifically (steps : List KeyStep)
  /-- Grants on relations. -/
  | children (steps : List KeyStep)

/-- Grants on variants of a resource, as they are being written. -/
structure VariantGranter where
  /-- The grants on the resource. -/
  base : Granter
  /-- The condition staged besides the restriction. -/
  condition : Option Condition
  /-- The restriction to variants. -/
  restriction : Option Condition
  /-- What was written wrongly. -/
  faults : List GrantFault

namespace VariantGranter

/-- The start. -/
def start (r : Resource) : VariantGranter := ⟨.start r, none, none, []⟩

/-- The condition and the restriction together. -/
def both (condition restriction : Option Condition) : Option Condition :=
  match condition, restriction with
  | some c, some v => some (.all [c, v])
  | some c, none => some c
  | none, v => v

/-- Restricts to variants. -/
def variants (g : VariantGranter) (names : List String) : VariantGranter :=
  let r := g.base.resource
  let restriction := some (.variant (.ofList names))
  { g with
    base := g.base.rework (both g.condition restriction)
    restriction
    faults := g.faults ++
      (names.filter (!r.variants.contains ·)).map fun v => .unknownVariant r.name v }

/-- Stages a condition. -/
def when (g : VariantGranter) (c : Condition) : VariantGranter :=
  { g with
    base := if g.restriction.isSome then g.base.rework (both (some c) g.restriction)
      else g.base.when c
    condition := some c }

/-- Takes a step. -/
def step (g : VariantGranter) : VariantStep → VariantGranter
  | .variants names => g.variants names
  | .grant a => { g with base := g.base.grant [a] }
  | .when c => g.when c
  | .or => { g with base := g.base.or, condition := none, restriction := none }
  | .specifically steps => { g with base := g.base.onKeys .prop steps }
  | .children steps => { g with base := g.base.onKeys .relation steps }

/-- Takes steps one after the other. -/
def run (g : VariantGranter) (steps : List VariantStep) : VariantGranter := steps.foldl step g

/-- What was granted in the end. -/
def finish (g : VariantGranter) : Grant :=
  let grant := g.base.finish
  { grant with faults := grant.faults ++ g.faults }

end VariantGranter

end Authorization
