import Authorization.Condition.Basic

/-!
# Binding memberships

A policy for some roles that grants something to members means members with one
of these roles. When a policy is compiled, the memberships in its conditions
are bound to its roles; what is bound stays bound, and a policy for everyone
binds nothing (`bind_none`).
-/

namespace Authorization.Condition

/-- The roles of a membership, bound to `roles` unless they are bound already. -/
def bindRoles (roles : Option NameSet) : Option NameSet → Option NameSet
  | none => roles
  | some bound => some bound

mutual

/-- The condition with its memberships bound to the roles of a policy, if it has
    any. -/
def bind (roles : Option NameSet) : Condition → Condition
  | .member bound => .member (bindRoles roles bound)
  | .allOf parts => .allOf (bindAll roles parts)
  | .anyOf parts => .anyOf (bindAll roles parts)
  | c => c

/-- The conditions with their memberships bound. -/
def bindAll (roles : Option NameSet) : List Condition → List Condition
  | [] => []
  | c :: cs => bind roles c :: bindAll roles cs

end

@[simp] theorem bindAll_eq_map (roles : Option NameSet) (cs : List Condition) :
    bindAll roles cs = cs.map (bind roles) := by
  induction cs with
  | nil => rw [bindAll, List.map_nil]
  | cons c cs ih => rw [bindAll, List.map_cons, ih]

/-- A policy for everyone binds nothing. -/
@[simp] theorem bind_none : ∀ c : Condition, c.bind none = c :=
  byParts (fun _ => rfl) (fun _ => rfl) (fun roles => by cases roles <;> rfl) (fun _ _ => rfl) rfl
    (fun parts ih => by rw [bind, bindAll_eq_map, List.map_congr_left ih, List.map_id'])
    (fun parts ih => by rw [bind, bindAll_eq_map, List.map_congr_left ih, List.map_id'])

end Authorization.Condition
