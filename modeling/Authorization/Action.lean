import Authorization.Text.Keyword

/-!
# Actions

What a session may want to do with a resource: read or edit it, create or
delete one. Maps over actions list them in this order. A property can only be
read or edited; a relation to one resource likewise, while a relation to many
is read, added to and removed from.
-/

namespace Authorization

/-- What is done with a resource. -/
inductive Action
  | read
  | edit
  | create
  | delete
  deriving DecidableEq, Repr

namespace Action

/-- The place of an action in the order of actions. -/
def rank : Action → Nat
  | read => 0
  | edit => 1
  | create => 2
  | delete => 3

instance : Ord Action := ⟨compareOn rank⟩

instance : Std.TransOrd Action := inferInstanceAs (Std.TransCmp (compareOn rank))

instance : Std.LawfulEqOrd Action where
  eq_of_compare {a b} h := by cases a <;> cases b <;> first | rfl | cases h

/-- All actions, in order. -/
def all : List Action := [read, edit, create, delete]

/-- The actions on a property. -/
def onProperty : List Action := [read, edit]

/-- The name of an action. -/
def name : Action → String
  | read => "read"
  | edit => "edit"
  | create => "create"
  | delete => "delete"

instance : ToString Action := ⟨name⟩

/-- The action that a keyword names. -/
def parse? (s : String) : Option Action := all.find? fun a => a.name == Text.keyword s

/-- The name of an action names it. -/
theorem parse?_name (a : Action) : parse? a.name = some a := by cases a <;> decide +kernel

end Action

/-- How many resources a relation leads to. -/
inductive Cardinality
  /-- One resource. -/
  | single
  /-- A list of resources. -/
  | list
  deriving DecidableEq, Repr

namespace Cardinality

/-- The actions that make sense on a relation. -/
def actions : Cardinality → List Action
  | single => [.read, .edit]
  | list => [.read, .create, .delete]

/-- Whether an action makes sense on a relation. -/
def allows (c : Cardinality) (a : Action) : Bool := c.actions.contains a

end Cardinality

end Authorization
