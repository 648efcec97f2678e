import Authorization.Condition.Binding
import Authorization.Grant.Basic
import Authorization.Resource

/-!
# Policies

A compiled policy says, for the sessions with one of its roles, what they may
do: for each resource one permission per action, on the objects as a whole and,
where more was said, on single properties and relations. What is said most
specifically counts, action by action (`ResourceGrants.lookup`).

A policy has its grants in two forms. The *live* ones are looked up in
decisions made by the application; the ones for the *database* become statements
there.
-/

namespace Authorization

/-- One permission for each of some actions. -/
abbrev Decisions := SortedMap Action Permission

namespace Decisions

/-- The permissions that entries give for an action. -/
def permissionsFor (a : Action) (entries : Entries) : List Permission :=
  (entries.filter (·.1 == a)).map Prod.snd

/-- The decisions that entries come to: those for one action are merged. -/
def ofEntries (entries : Entries) : Decisions :=
  .ofList (entries.map fun e => (e.1, .mergeWithin (permissionsFor e.1 entries)))

/-- The decisions about actions, where a denial need not be said. -/
def ofActions (actions : List Action) (permission : Action → Permission) : Decisions :=
  .ofList ((actions.map fun a => (a, permission a)).filter fun e => !e.2.isDeny)

/-- The decisions with each permission replaced. -/
def mapPermissions (f : Permission → Permission) (d : Decisions) : Decisions :=
  d.mapValues fun _ => f

end Decisions

/-- What a policy says about a resource. -/
structure ResourceGrants where
  /-- About its objects as a whole. -/
  object : Decisions
  /-- About properties. -/
  props : NameMap Decisions
  /-- About relations. -/
  relations : NameMap Decisions

namespace ResourceGrants

/-- Grants that say nothing. -/
def empty : ResourceGrants := ⟨∅, ∅, ∅⟩

instance : Inhabited ResourceGrants := ⟨empty⟩

/-- What a grant comes to. -/
def ofGrant (g : Grant) : ResourceGrants where
  object := .ofEntries g.object
  props := g.props.mapValues fun _ => .ofEntries
  relations := g.relations.mapValues fun _ => .ofEntries

/-- What is said about an action under a key that may be a relation. -/
def onRelation? (g : ResourceGrants) (r : Resource) (a : Action) (key : String) :
    Option Permission :=
  (r.relation? key).bind fun _ => (g.relations.get? key).bind (·.get? a)

/-- What is said about an action under a key as a property. -/
def onProp? (g : ResourceGrants) (a : Action) (key : String) : Option Permission :=
  (g.props.get? key).bind (·.get? a)

/-- What is said most specifically about an action: on the key as a relation, on the key as
    a property, or on the object. Where nothing is said the action is denied. -/
def lookup (g : ResourceGrants) (r : Resource) (a : Action) (key : Option String) : Permission :=
  (((key.bind (g.onRelation? r a)).or (key.bind (g.onProp? a))).or (g.object.get? a)).getD .deny

/-- Where nothing is said, everything is denied. -/
@[simp] theorem lookup_empty {r : Resource} {a : Action} {key : Option String} :
    empty.lookup r a key = .deny := by
  cases key with
  | none => rfl
  | some key =>
    simp only [lookup, onRelation?, onProp?, Option.bind_some]
    cases r.relation? key <;> simp [empty]

/-- The grants with each permission replaced. -/
def mapPermissions (f : Permission → Permission) (g : ResourceGrants) : ResourceGrants where
  object := g.object.mapPermissions f
  props := g.props.mapValues fun _ => .mapPermissions f
  relations := g.relations.mapValues fun _ => .mapPermissions f

/-- The grants with the memberships in their conditions bound to the roles of a policy. -/
def bind (roles : Option NameSet) (g : ResourceGrants) : ResourceGrants :=
  g.mapPermissions (·.map (Condition.bind roles))

/-- The grants on reading alone. -/
def readOnly (g : ResourceGrants) : ResourceGrants where
  object := g.object.filter fun a _ => a == .read
  props := g.props.mapValues fun _ d => d.filter fun a _ => a == .read
  relations := g.relations.mapValues fun _ d => d.filter fun a _ => a == .read

end ResourceGrants

/-- Grants by resource. -/
abbrev GrantMap := NameMap ResourceGrants

/-- What a session can do without looking at an object: to create objects of a resource. -/
structure Power where
  /-- The resource of the objects. -/
  resource : String
  deriving DecidableEq, Repr

namespace Power

/-- Powers are ordered by resource. -/
instance : Ord Power := ⟨compareOn resource⟩

instance : Std.TransOrd Power := inferInstanceAs (Std.TransCmp (compareOn resource))

instance : Std.LawfulEqOrd Power where
  eq_of_compare {a b} h := by
    obtain ⟨r⟩ := a
    obtain ⟨r'⟩ := b
    have h' : compare r r' = .eq := h
    rw [Std.LawfulEqCmp.eq_of_compare h']

/-- The text of a power. -/
def text (p : Power) : String := "create:" ++ p.resource

end Power

/-- A compiled policy. -/
structure Policy where
  /-- The name of the policy. -/
  name : String
  /-- The roles it is for; for all sessions if there are none given. -/
  roles : Option NameSet
  /-- What it lets a session do without looking at an object. -/
  powers : SortedSet Power
  /-- The grants for decisions. -/
  live : GrantMap
  /-- The grants for the database. -/
  database : GrantMap

namespace Policy

/-- Whether the policy is for a session: for one that holds one of its roles. -/
def appliesTo (p : Policy) (s : Session) : Bool := p.roles.all s.hasAnyRole

theorem appliesTo_eq_true {p : Policy} {s : Session} :
    p.appliesTo s = true ↔
      ∀ names, p.roles = some names → ∃ role ∈ names, role ∈ s.roleNames := by
  simp only [appliesTo, Option.all_eq_true, Session.hasAnyRole_eq_true]

end Policy

end Authorization
