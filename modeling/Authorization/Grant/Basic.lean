import Authorization.Permission
import Authorization.Sorted.Map

/-!
# Grants

A grant is what was written for one resource: a list of entries for its objects
as a whole, and lists for some of its properties and relations. Entries are
kept in the order in which they were written. Alongside, a grant reports what
was written wrongly and which conditions nothing was granted under.
-/

namespace Authorization

/-- Actions with what is said about them. -/
abbrev Entries := List (Action × Permission)

/-- The entries that say the same about each of the actions. -/
def entriesOf (actions : List Action) (p : Permission) : Entries := actions.map fun a => (a, p)

/-- The map with further entries under a key. -/
def addEntries (m : NameMap Entries) (key : String) (entries : Entries) : NameMap Entries :=
  m.update key fun old => old.getD [] ++ entries

/-- The map with all the entries of another one added. -/
def joinEntries (m n : NameMap Entries) : NameMap Entries :=
  n.toList.foldl (fun m e => addEntries m e.1 e.2) m

/-- What was granted on a resource. -/
structure Grant where
  /-- The name of the resource. -/
  resource : String
  /-- The entries for its objects. -/
  object : Entries
  /-- The entries for properties. -/
  props : NameMap Entries
  /-- The entries for relations. -/
  relations : NameMap Entries
  /-- The staged conditions that nothing was granted under. -/
  unused : List Condition
  /-- What was written wrongly. -/
  faults : List GrantFault

namespace Grant

/-- The grant of nothing. -/
def empty (resource : String) : Grant := ⟨resource, [], ∅, ∅, [], []⟩

instance : Inhabited Grant := ⟨empty ""⟩

end Grant

end Authorization
