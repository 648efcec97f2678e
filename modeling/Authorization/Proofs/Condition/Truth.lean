import Authorization.Condition.Binding
import Authorization.Condition.Evaluation

/-!
# Conditions on an object

With an object every condition is decided: evaluation from left to right, with
its early ends, comes to no more than whether all or any of the parts hold
(`holds_some`). `holdsOn` says so without the order.

Two conditions *mean the same* if they hold for the same sessions and objects.
-/

namespace Authorization.Condition

mutual

/-- Whether a condition holds for a session and an object. -/
def holdsOn (s : Session) (r : Record) : Condition → Bool
  | role names => s.hasAnyRole names
  | variant names => variantHolds r names
  | member roles => memberHolds r roles
  | field name operand => fieldHolds s r name operand
  | calculated => false
  | allOf parts => allHoldOn s r parts
  | anyOf parts => anyHoldsOn s r parts

/-- Whether each of the conditions holds. -/
def allHoldOn (s : Session) (r : Record) : List Condition → Bool
  | [] => true
  | c :: cs => holdsOn s r c && allHoldOn s r cs

/-- Whether one of the conditions holds. -/
def anyHoldsOn (s : Session) (r : Record) : List Condition → Bool
  | [] => false
  | c :: cs => holdsOn s r c || anyHoldsOn s r cs

end

variable {s : Session} {r : Record}

@[simp] theorem allHoldOn_eq_all (cs : List Condition) :
    allHoldOn s r cs = cs.all (holdsOn s r) := by
  induction cs with
  | nil => rfl
  | cons c cs ih => rw [allHoldOn, List.all_cons, ih]

@[simp] theorem anyHoldsOn_eq_any (cs : List Condition) :
    anyHoldsOn s r cs = cs.any (holdsOn s r) := by
  induction cs with
  | nil => rfl
  | cons c cs ih => rw [anyHoldsOn, List.any_cons, ih]

@[simp] theorem holdsOn_allOf {cs : List Condition} :
    (allOf cs).holdsOn s r = cs.all (holdsOn s r) := by rw [holdsOn, allHoldOn_eq_all]

@[simp] theorem holdsOn_anyOf {cs : List Condition} :
    (anyOf cs).holdsOn s r = cs.any (holdsOn s r) := by rw [holdsOn, anyHoldsOn_eq_any]

/-- Deciding parts that are decided each for itself, up to the first that does not hold. -/
theorem allHold_some {cs : List Condition}
    (h : ∀ c ∈ cs, c.holds s (some r) = .ok (c.holdsOn s r)) :
    allHold s (some r) cs = .ok (cs.all (holdsOn s r)) := by
  induction cs with
  | nil => rfl
  | cons c cs ih =>
    rw [allHold, h c List.mem_cons_self, List.all_cons]
    cases c.holdsOn s r with
    | false => rfl
    | true => exact ih fun d hd => h d (List.mem_cons_of_mem _ hd)

/-- Deciding parts that are decided each for itself, up to the first that holds. -/
theorem anyHolds_some {cs : List Condition}
    (h : ∀ c ∈ cs, c.holds s (some r) = .ok (c.holdsOn s r)) :
    anyHolds s (some r) cs = .ok (cs.any (holdsOn s r)) := by
  induction cs with
  | nil => rfl
  | cons c cs ih =>
    rw [anyHolds, h c List.mem_cons_self, List.any_cons]
    cases c.holdsOn s r with
    | true => rfl
    | false => exact ih fun d hd => h d (List.mem_cons_of_mem _ hd)

/-- With an object a condition is decided, and never an error. -/
@[simp] theorem holds_some : ∀ c : Condition, c.holds s (some r) = .ok (c.holdsOn s r) :=
  byParts (fun _ => rfl) (fun _ => rfl) (fun _ => rfl) (fun _ _ => rfl) rfl
    (fun cs ih => by rw [holds, allHold_some ih, holdsOn_allOf])
    (fun cs ih => by rw [holds, anyHolds_some ih, holdsOn_anyOf])

/-- Two conditions mean the same: they hold for the same sessions and objects. -/
def SameMeaning (c d : Condition) : Prop := ∀ s r, c.holdsOn s r = d.holdsOn s r

namespace SameMeaning

theorem refl (c : Condition) : SameMeaning c c := fun _ _ => rfl

theorem trans {c d e : Condition} (h : SameMeaning c d) (h' : SameMeaning d e) :
    SameMeaning c e := fun s r => (h s r).trans (h' s r)

end SameMeaning

/-! ### Memberships -/

/-- Without roles to have, any membership will do. -/
@[simp] theorem memberHolds_none : memberHolds r none = r.member := Bool.and_true _

/-- Where the roles of a membership are not known, any membership will do. -/
theorem memberHolds_of_unknown (hr : r.membershipRoles = none) (roles : Option NameSet) :
    memberHolds r roles = r.member := by
  cases roles with
  | none => exact memberHolds_none
  | some names =>
    simp only [memberHolds, hr]
    exact Bool.and_true _

/-- Where they are known, one of them has to be among the roles to have. -/
theorem memberHolds_of_known {held : NameSet} (hr : r.membershipRoles = some held)
    (names : NameSet) : memberHolds r (some names) = (r.member && names.meets held) := by
  simp only [memberHolds, hr]

/-- Whatever role a membership has, it is a membership. -/
theorem member_of_memberHolds {roles : Option NameSet} (h : memberHolds r roles = true) :
    r.member = true := by
  unfold memberHolds at h
  exact (Bool.and_eq_true _ _ ▸ h).1

end Authorization.Condition
