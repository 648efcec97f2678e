import Authorization.Catalogue
import Authorization.Grant.Variants

/-!
# Scripts

A script writes grants: for every resource of a catalogue, or for the resource
of a name. A resource with variants has a vocabulary of its own.
-/

namespace Authorization

/-- Steps, and what they write grants for. -/
inductive Script
  /-- For each resource. -/
  | each (steps : List Step)
  /-- For one resource. -/
  | resource (name : String) (steps : List Step)
  /-- For the variants of a resource. -/
  | variants (name : String) (steps : List VariantStep)

namespace Script

/-- The grant that steps write for a resource. -/
def grantOn (r : Resource) (steps : List Step) : Grant := ((Granter.start r).run steps).finish

/-- The grant that steps write for the variants of a resource, which needs to have some. -/
def grantOnVariants (r : Resource) (steps : List VariantStep) : Except Error Grant :=
  if r.variants.isEmpty then .error (.configuration (.noVariants r.name))
  else .ok ((VariantGranter.start r).run steps).finish

/-- The grants that a script writes. -/
def grants (c : Catalogue) : Script → Except Error (List Grant)
  | each steps => .ok (c.toList.map (grantOn · steps))
  | resource name steps => return [grantOn (← c.get name) steps]
  | variants name steps => return [← grantOnVariants (← c.get name) steps]

/-- The grants that scripts write, one after the other. -/
def allGrants (c : Catalogue) : List Script → Except Error (List Grant)
  | [] => .ok []
  | s :: ss => return (← s.grants c) ++ (← allGrants c ss)

end Script

end Authorization
