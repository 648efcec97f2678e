import Authorization.Permission

/-!
# Stages

Grants are written one after the other, under a condition that is *staged* once
and holds for all that follow, until another one takes its place or it is
cleared. A condition under which nothing was granted is most likely an
oversight: it is *unused*, and the stage remembers it.
-/

namespace Authorization

/-- A staged condition. -/
structure Staged where
  /-- The condition. -/
  condition : Condition
  /-- Whether something was granted under it. -/
  used : Bool

/-- Where conditions are staged. -/
structure Stage where
  /-- The condition staged at present. -/
  current : Option Staged
  /-- The conditions that left the stage unused. -/
  unused : List Condition

namespace Stage

/-- The stage without a condition. -/
def empty : Stage := ⟨none, []⟩

instance : Inhabited Stage := ⟨empty⟩

/-- The stage with a condition taken over from another one, where it counts as used. -/
def inherit (c : Option Condition) : Stage := ⟨c.map fun c => ⟨c, true⟩, []⟩

/-- The condition staged at present, if it was not used. -/
def pending (s : Stage) : List Condition :=
  match s.current with
  | some ⟨c, false⟩ => [c]
  | _ => []

/-- The unused conditions if the stage is left now. -/
def allUnused (s : Stage) : List Condition := s.unused ++ s.pending

/-- The stage with another condition. -/
def put (s : Stage) (c : Condition) : Stage := ⟨some ⟨c, false⟩, s.allUnused⟩

/-- The stage with another condition that takes the present one up. -/
def rework (s : Stage) (c : Option Condition) : Stage :=
  ⟨c.map fun c => ⟨c, false⟩, s.unused⟩

/-- The stage without a condition from now on. -/
def clear (s : Stage) : Stage := ⟨none, s.allUnused⟩

/-- The stage with its condition used. -/
def use (s : Stage) : Stage := ⟨s.current.map fun c => ⟨c.condition, true⟩, s.unused⟩

/-- The condition staged at present. -/
def condition? (s : Stage) : Option Condition := s.current.map Staged.condition

/-- What is granted at present: under the staged condition, or without any. -/
def permission (s : Stage) : Permission :=
  match s.condition? with
  | some c => .when c
  | none => .allow

/-! ### What the operations leave on the stage -/

@[simp] theorem permission_put {s : Stage} {c : Condition} : (s.put c).permission = .when c := rfl

@[simp] theorem permission_clear {s : Stage} : s.clear.permission = .allow := rfl

@[simp] theorem condition?_use {s : Stage} : s.use.condition? = s.condition? := by
  rw [condition?, condition?, use]
  cases s.current <;> rfl

/-- A condition that was used leaves the stage without a trace. -/
@[simp] theorem allUnused_use {s : Stage} : s.use.allUnused = s.unused := by
  unfold allUnused pending use
  cases s.current <;> simp

end Stage

end Authorization
