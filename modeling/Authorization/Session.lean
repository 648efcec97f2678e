import Authorization.Sorted.Set
import Authorization.Uuid

/-!
# Sessions

A request is made in a session: for a user or for nobody, with the roles it
holds. A role is held in a scope, everywhere (`global`) or in a part of the
domain; policies name roles without scopes, so what counts for a decision are
the names of the roles held in any scope (`Session.roleNames`).
-/

namespace Authorization

/-- A role held in a scope. -/
structure ScopedRole where
  /-- Where the role is held. -/
  scope : String
  /-- The name of the role. -/
  role : String
  deriving DecidableEq, Repr

namespace ScopedRole

/-- The scope of roles held everywhere. -/
def globalScope : String := "global"

/-- Roles are ordered by scope, then by name. -/
instance : Ord ScopedRole := ⟨compareLex (compareOn scope) (compareOn role)⟩

instance : Std.TransOrd ScopedRole :=
  inferInstanceAs (Std.TransCmp (compareLex (compareOn scope) (compareOn role)))

instance : Std.LawfulEqOrd ScopedRole where
  eq_of_compare {a b} h := by
    obtain ⟨s, r⟩ := a
    obtain ⟨s', r'⟩ := b
    have h' : (compare s s').then (compare r r') = .eq := h
    rw [Ordering.then_eq_eq] at h'
    rw [Std.LawfulEqCmp.eq_of_compare h'.1, Std.LawfulEqCmp.eq_of_compare h'.2]

/-- A role held everywhere. -/
def everywhere (role : String) : ScopedRole := ⟨globalScope, role⟩

/-- Whether the role is held everywhere. -/
def isGlobal (r : ScopedRole) : Bool := r.scope == globalScope

/-- The text of a role: scope and name with a colon between. -/
def text (r : ScopedRole) : String := r.scope ++ ":" ++ r.role

/-- The role that a text names: the scope stands before the first colon and the
    name after it. Where either is empty the role is held everywhere, and its
    name is the text without the colons in front. -/
def parse (s : String) : ScopedRole :=
  let cs := s.toList
  match cs.takeWhile (· != ':'), cs.dropWhile (· != ':') with
  | c :: scope, _ :: d :: role => ⟨String.ofList (c :: scope), String.ofList (d :: role)⟩
  | _, _ => everywhere (String.ofList (cs.dropWhile (· == ':')))

end ScopedRole

/-- The session that makes a request. -/
structure Session where
  /-- The user, unless nobody is known. -/
  user : Option Uuid
  /-- The roles held. -/
  roles : SortedSet ScopedRole
  /-- Whether the session is expressly nobody's. -/
  anonymous : Bool
  /-- The session that took this one's place to act in its name. -/
  impersonator : Option Session

namespace Session

/-- The session of a user, without roles. -/
def ofUser (user : Uuid) : Session := ⟨some user, ∅, false, none⟩

/-- The session of nobody. -/
def nobody : Session := ⟨none, ∅, true, none⟩

/-- A session that says nothing. -/
def blank : Session := ⟨none, ∅, false, none⟩

/-- The session with exactly the roles that the texts name. -/
def withRoles (s : Session) (roles : List String) : Session :=
  ⟨s.user, .ofList (roles.map ScopedRole.parse), s.anonymous, s.impersonator⟩

/-- The session as taken by another one. -/
def impersonatedBy (s other : Session) : Session := ⟨s.user, s.roles, s.anonymous, some other⟩

/-- The names of the roles held, in any scope. -/
def roleNames (s : Session) : NameSet := .ofList (s.roles.toList.map ScopedRole.role)

/-- Whether a role of the name is held, in any scope. -/
def hasRole (s : Session) (role : String) : Bool := s.roles.toList.any (·.role == role)

/-- Whether a role of any of the names is held, in any scope. -/
def hasAnyRole (s : Session) (roles : NameSet) : Bool := roles.toList.any s.hasRole

theorem hasRole_eq_true {s : Session} {role : String} :
    s.hasRole role = true ↔ role ∈ s.roleNames := by
  rw [roleNames, SortedSet.mem_ofList]
  simp [hasRole]

/-- What roles are held, counts by name only. -/
theorem hasAnyRole_eq_true {s : Session} {roles : NameSet} :
    s.hasAnyRole roles = true ↔ ∃ role ∈ roles, role ∈ s.roleNames := by
  simp [hasAnyRole, hasRole_eq_true, SortedSet.mem_def]

end Session

end Authorization
