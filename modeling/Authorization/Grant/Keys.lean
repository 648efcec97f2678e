import Authorization.Grant.Basic
import Authorization.Grant.Stage
import Authorization.Resource

/-!
# Grants on keys

Properties and relations can be granted apart from the object that they belong
to. Either way keys are *selected* first, and what follows is granted on each
selected key. A property can be read and edited; what makes sense on a relation
depends on its cardinality (`KeySort.allows`).
-/

namespace Authorization

/-- The two sorts of keys of a resource. -/
inductive KeySort
  | prop
  | relation
  deriving DecidableEq, Repr

namespace KeySort

/-- Whether the resource has a key of the sort. -/
def has (r : Resource) (key : String) : KeySort → Bool
  | prop => r.props.contains key
  | relation => (r.relation? key).isSome

/-- The fault of selecting a key that the resource does not have. -/
def unknown (r : Resource) (key : String) : KeySort → GrantFault
  | prop => .unknownProp r.name key
  | relation => .unknownRelation r.name key

/-- Whether an action makes sense on a key. -/
def allows (r : Resource) (key : String) (a : Action) : KeySort → Bool
  | prop => Action.onProperty.contains a
  | relation => (r.relation? key).any (·.cardinality.allows a)

/-- The faults of granting actions that make no sense: on properties an action is wrong
    once and for all, on relations for each one. -/
def misuse (r : Resource) (keys : List String) (actions : List Action) :
    KeySort → List GrantFault
  | prop =>
    (actions.filter fun a => !Action.onProperty.contains a).map fun a => .notOnProps a r.name
  | relation =>
    keys.flatMap fun key =>
      (actions.filter fun a => !relation.allows r key a).map fun a =>
        .notOnRelation a r.name key

end KeySort

/-- A step in writing grants on keys. -/
inductive KeyStep
  /-- Selects keys, in place of those selected before. -/
  | select (keys : List String)
  /-- Grants actions on the selected keys. -/
  | grant (actions : List Action)
  /-- Stages a condition. -/
  | when (condition : Condition)
  /-- Clears the stage. -/
  | or

/-- Grants on keys of one sort, as they are being written. -/
structure KeyGranter where
  /-- The resource. -/
  resource : Resource
  /-- The sort of keys. -/
  sort : KeySort
  /-- The selected keys. -/
  selected : List String
  /-- The condition under which is granted. -/
  stage : Stage
  /-- The entries written so far. -/
  entries : NameMap Entries
  /-- What was written wrongly. -/
  faults : List GrantFault

namespace KeyGranter

/-- The start, under a condition taken over from outside. -/
def start (r : Resource) (sort : KeySort) (c : Option Condition) : KeyGranter :=
  ⟨r, sort, [], .inherit c, ∅, []⟩

/-- Selects those of the keys that there are. -/
def select (g : KeyGranter) (keys : List String) : KeyGranter :=
  { g with
    selected := keys.filter (g.sort.has g.resource ·)
    faults := g.faults ++
      (keys.filter (!g.sort.has g.resource ·)).map (g.sort.unknown g.resource ·) }

/-- Grants those of the actions that make sense, on each selected key. -/
def grant (g : KeyGranter) (actions : List Action) : KeyGranter :=
  { g with
    stage := g.stage.use
    entries := g.selected.foldl (fun m key =>
      addEntries m key
        (entriesOf (actions.filter (g.sort.allows g.resource key ·)) g.stage.permission))
      g.entries
    faults := g.faults ++ g.sort.misuse g.resource g.selected actions }

/-- Takes a step. -/
def step (g : KeyGranter) : KeyStep → KeyGranter
  | .select keys => g.select keys
  | .grant actions => g.grant actions
  | .when c => { g with stage := g.stage.put c }
  | .or => { g with stage := g.stage.clear }

/-- Takes steps one after the other. -/
def run (g : KeyGranter) (steps : List KeyStep) : KeyGranter := steps.foldl step g

/-- The grant with what was written on keys. -/
def addTo (g : KeyGranter) (written : Grant) : Grant :=
  { written with
    props := match g.sort with
      | .prop => joinEntries written.props g.entries
      | .relation => written.props
    relations := match g.sort with
      | .prop => written.relations
      | .relation => joinEntries written.relations g.entries
    unused := written.unused ++ g.stage.allUnused
    faults := written.faults ++ g.faults }

end KeyGranter

end Authorization
