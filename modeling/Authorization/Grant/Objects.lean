import Authorization.Grant.Keys

/-!
# Grants on objects

Grants on the objects of a resource, each under the condition staged at the
time. Grants on properties and relations are written inside, and start under
the condition in force.
-/

namespace Authorization

/-- A step in writing grants on objects. -/
inductive Step
  /-- Grants actions. -/
  | grant (actions : List Action)
  /-- Stages a condition. -/
  | when (condition : Condition)
  /-- Clears the stage. -/
  | or
  /-- Grants on properties. -/
  | specifically (steps : List KeyStep)
  /-- Grants on relations. -/
  | children (steps : List KeyStep)

/-- Grants on a resource, as they are being written. -/
structure Granter where
  /-- The resource. -/
  resource : Resource
  /-- The condition under which is granted. -/
  stage : Stage
  /-- What was written so far. -/
  written : Grant

namespace Granter

/-- The start. -/
def start (r : Resource) : Granter := ⟨r, .empty, .empty r.name⟩

/-- Grants each of the actions. -/
def grant (g : Granter) (actions : List Action) : Granter :=
  { g with
    stage := g.stage.use
    written := { g.written with
      object := g.written.object ++ entriesOf actions g.stage.permission } }

/-- Stages a condition. -/
def when (g : Granter) (c : Condition) : Granter := { g with stage := g.stage.put c }

/-- Clears the stage. -/
def or (g : Granter) : Granter := { g with stage := g.stage.clear }

/-- Stages a condition that takes up the present one. -/
def rework (g : Granter) (c : Option Condition) : Granter := { g with stage := g.stage.rework c }

/-- Grants on keys, starting under the condition in force. -/
def onKeys (g : Granter) (sort : KeySort) (steps : List KeyStep) : Granter :=
  { g with
    stage := g.stage.use
    written :=
      ((KeyGranter.start g.resource sort g.stage.condition?).run steps).addTo g.written }

/-- Takes a step. -/
def step (g : Granter) : Step → Granter
  | .grant actions => g.grant actions
  | .when c => g.when c
  | .or => g.or
  | .specifically steps => g.onKeys .prop steps
  | .children steps => g.onKeys .relation steps

/-- Takes steps one after the other. -/
def run (g : Granter) (steps : List Step) : Granter := steps.foldl step g

/-- What was granted in the end. -/
def finish (g : Granter) : Grant :=
  { g.written with unused := g.written.unused ++ g.stage.allUnused }

end Granter

end Authorization
