import Authorization.Grant.Script
import Authorization.Policy.Defaults
import Authorization.Policy.Powers

/-!
# Compiling policies

A policy is declared by its name, its roles and its grants. Whoever declares it
says what it grants on the resources of a catalogue, by scripts
(`Declaration.ofScripts`) or in any other way. Compiling it merges the grants by
resource and action, and derives from that the grants for decisions, those for
the database, and the powers. Declarations are compiled in their order, and the
first thing that is wrong ends it.
-/

namespace Authorization

/-- A policy as it is declared. -/
structure Declaration where
  /-- The name of the policy. -/
  name : String
  /-- The roles it is for; for all sessions if there are none given. -/
  roles : Option NameSet
  /-- Its grants on the resources of a catalogue. -/
  grants : Catalogue → Except Error (List Grant)

/-- The declaration of a policy whose grants are written by scripts. -/
def Declaration.ofScripts (name : String) (roles : Option NameSet) (scripts : List Script) :
    Declaration where
  name
  roles
  grants c := Script.allGrants c scripts

/-! ### Collecting grants -/

/-- What is wrong with a grant of a policy. -/
def Grant.fault? (policy : String) (g : Grant) : Option ConfigurationFault :=
  if !g.faults.isEmpty then some (.misuse policy g.resource g.faults)
  else if !g.unused.isEmpty then some (.unusedConditions policy g.resource g.unused)
  else none

/-- Two grants on one resource, one after the other. -/
def Grant.join (g h : Grant) : Grant :=
  { g with
    object := g.object ++ h.object
    props := joinEntries g.props h.props
    relations := joinEntries g.relations h.relations }

/-- Grants joined by resource. -/
def collect (gs : List Grant) : NameMap Grant :=
  gs.foldl (fun m g => m.update g.resource fun old => (old.getD (.empty g.resource)).join g) ∅

/-- What grants come to. -/
def GrantMap.ofGrants (gs : List Grant) : GrantMap := (collect gs).mapValues fun _ => .ofGrant

namespace Declaration

/-- The grants of a declaration by resource, before anything follows from them. -/
def rawGrants (d : Declaration) (c : Catalogue) : Except Error GrantMap := do
  let gs ← d.grants c
  match gs.findSome? (Grant.fault? d.name) with
  | some fault => .error (.configuration fault)
  | none => .ok (.ofGrants gs)

end Declaration

namespace Catalogue

/-- The grants for decisions. -/
def liveGrants (c : Catalogue) (roles : Option NameSet) (raw : GrantMap) : GrantMap :=
  (c.withDefaultRelations (c.withDefaultImplementations (c.withDefaultInterfaces raw))).mapValues
    fun _ => .bind roles

/-- The grants for the database. -/
def databaseGrants (c : Catalogue) (raw : GrantMap) : GrantMap :=
  c.withoutComputedWrites (c.withoutRedundant (c.withDefaultImplementations raw))

/-- The powers that come with grants. -/
def powers (c : Catalogue) (policy : String) (raw : GrantMap) :
    Except Error (SortedSet Power) :=
  match c.powers? raw with
  | some powers => .ok powers
  | none => .error (.configuration (.circularImplementations policy))

/-- Compiles a policy. -/
def compilePolicy (c : Catalogue) (d : Declaration) : Except Error Policy := do
  let raw ← d.rawGrants c
  let powers ← c.powers d.name raw
  return {
    name := d.name
    roles := d.roles
    powers
    live := c.liveGrants d.roles raw
    database := c.databaseGrants raw }

/-- Compiles policies; `names` are those of the policies before. -/
def compileAfter (c : Catalogue) (names : List String) :
    List Declaration → Except Error (List Policy)
  | [] => .ok []
  | d :: ds =>
    if names.contains d.name then .error (.configuration (.duplicatePolicy d.name))
    else do
      let p ← c.compilePolicy d
      let ps ← c.compileAfter (d.name :: names) ds
      return p :: ps

/-- Compiles policies. -/
def compile (c : Catalogue) (ds : List Declaration) : Except Error (List Policy) :=
  c.compileAfter [] ds

end Catalogue

end Authorization
