import Authorization.Permission
import Authorization.Proofs.Condition.Binding
import Authorization.Proofs.Permission.Meaning

/-!
# Decisions without an object

Without an object a condition is decided as far as the session goes. *All of* and
*any of* go through their parts from left to right, so it depends on the order of
the parts whether there is a decision or an error. But a decision, where there
is one, is final (`holdsOn_of_holds_none`): no object changes it. An error says
which fact of the object was missed, and it is one that the condition asks for
(`exists_foundIn_of_holds_none`).

* `decided_for_good`: this, for conditions and permissions, along with what is
  always decided: everything with an object, and what does not ask for one.
-/

namespace Authorization

namespace Condition

/-- Whether a condition is a fact of the object by itself. -/
def isOfObject : Condition → Bool
  | variant _ | member _ | field _ _ => true
  | role _ | calculated | allOf _ | anyOf _ => false

variable {s : Session} {o : Option Record} {r : Record} {cs : List Condition} {b : Bool}
  {fault : Error}

/-! ### What the outcome for several conditions comes from -/

/-- All hold if each one is found to. -/
theorem forall_of_allHold_true (h : allHold s o cs = .ok true) :
    ∀ c ∈ cs, c.holds s o = .ok true := by
  induction cs with
  | nil => exact fun _ hc => absurd hc List.not_mem_nil
  | cons c cs ih =>
    rw [allHold] at h
    split at h
    · rename_i hc
      exact List.forall_mem_cons.2 ⟨hc, ih h⟩
    · cases h
    · cases h

/-- Not all hold if one is found not to. -/
theorem exists_of_allHold_false (h : allHold s o cs = .ok false) :
    ∃ c ∈ cs, c.holds s o = .ok false := by
  induction cs with
  | nil => cases h
  | cons c cs ih =>
    rw [allHold] at h
    split at h
    · obtain ⟨d, hd, hfalse⟩ := ih h
      exact ⟨d, List.mem_cons_of_mem _ hd, hfalse⟩
    · rename_i hc
      exact ⟨c, List.mem_cons_self, hc⟩
    · cases h

/-- The error is that of one of them. -/
theorem exists_of_allHold_error (h : allHold s o cs = .error fault) :
    ∃ c ∈ cs, c.holds s o = .error fault := by
  induction cs with
  | nil => cases h
  | cons c cs ih =>
    rw [allHold] at h
    split at h
    · obtain ⟨d, hd, hfault⟩ := ih h
      exact ⟨d, List.mem_cons_of_mem _ hd, hfault⟩
    · cases h
    · rename_i hc
      cases h
      exact ⟨c, List.mem_cons_self, hc⟩

/-- One holds if it is found to. -/
theorem exists_of_anyHolds_true (h : anyHolds s o cs = .ok true) :
    ∃ c ∈ cs, c.holds s o = .ok true := by
  induction cs with
  | nil => cases h
  | cons c cs ih =>
    rw [anyHolds] at h
    split at h
    · rename_i hc
      exact ⟨c, List.mem_cons_self, hc⟩
    · obtain ⟨d, hd, htrue⟩ := ih h
      exact ⟨d, List.mem_cons_of_mem _ hd, htrue⟩
    · cases h

/-- None holds if each one is found not to. -/
theorem forall_of_anyHolds_false (h : anyHolds s o cs = .ok false) :
    ∀ c ∈ cs, c.holds s o = .ok false := by
  induction cs with
  | nil => exact fun _ hc => absurd hc List.not_mem_nil
  | cons c cs ih =>
    rw [anyHolds] at h
    split at h
    · cases h
    · rename_i hc
      exact List.forall_mem_cons.2 ⟨hc, ih h⟩
    · cases h

/-- The error is that of one of them. -/
theorem exists_of_anyHolds_error (h : anyHolds s o cs = .error fault) :
    ∃ c ∈ cs, c.holds s o = .error fault := by
  induction cs with
  | nil => cases h
  | cons c cs ih =>
    rw [anyHolds] at h
    split at h
    · cases h
    · obtain ⟨d, hd, hfault⟩ := ih h
      exact ⟨d, List.mem_cons_of_mem _ hd, hfault⟩
    · rename_i hc
      cases h
      exact ⟨c, List.mem_cons_self, hc⟩

/-! ### Decisions -/

/-- What is decided without an object is so on every object. -/
theorem holdsOn_of_holds_none (r : Record) : ∀ (c : Condition) {b : Bool},
    c.holds s none = .ok b → c.holdsOn s r = b := by
  refine byParts ?role (fun _ _ => nofun) (fun _ _ => nofun) (fun _ _ _ => nofun) ?calculated ?allOf
    ?anyOf
  case role =>
    intro names b h
    cases h
    rfl
  case calculated =>
    intro b h
    cases h
    rfl
  -- All of the parts decide that all hold; a single one decides that not all do.
  case allOf =>
    intro parts ih b h
    rw [holds] at h
    rw [holdsOn_allOf]
    cases b with
    | true => exact List.all_eq_true.2 fun c hc => ih c hc (forall_of_allHold_true h c hc)
    | false =>
      obtain ⟨c, hc, hfalse⟩ := exists_of_allHold_false h
      refine List.all_eq_false.2 ⟨c, hc, ?_⟩
      rw [ih c hc hfalse]
      exact Bool.false_ne_true
  case anyOf =>
    intro parts ih b h
    rw [holds] at h
    rw [holdsOn_anyOf]
    cases b with
    | true =>
      obtain ⟨c, hc, htrue⟩ := exists_of_anyHolds_true h
      exact List.any_eq_true.2 ⟨c, hc, ih c hc htrue⟩
    | false =>
      refine List.any_eq_false.2 fun c hc => ?_
      rw [ih c hc (forall_of_anyHolds_false h c hc)]
      exact Bool.false_ne_true

/-! ### Errors -/

/-- An error is that a fact of the object is missing which is found in the condition. -/
theorem exists_foundIn_of_holds_none : ∀ (c : Condition) {fault : Error},
    c.holds s none = .error fault →
      ∃ d, FoundIn d c ∧ d.isOfObject = true ∧ fault = .missingContext d := by
  refine byParts (fun _ _ => nofun) ?variant ?member ?field nofun ?allOf ?anyOf
  case variant =>
    intro names fault h
    cases h
    exact ⟨_, .self, rfl, rfl⟩
  case member =>
    intro roles fault h
    cases h
    exact ⟨_, .self, rfl, rfl⟩
  case field =>
    intro name operand fault h
    cases h
    exact ⟨_, .self, rfl, rfl⟩
  case allOf =>
    intro parts ih fault h
    obtain ⟨c, hc, hfault⟩ := exists_of_allHold_error h
    obtain ⟨d, hd, hrest⟩ := ih c hc hfault
    exact ⟨d, .allOf hc hd, hrest⟩
  case anyOf =>
    intro parts ih fault h
    obtain ⟨c, hc, hfault⟩ := exists_of_anyHolds_error h
    obtain ⟨d, hd, hrest⟩ := ih c hc hfault
    exact ⟨d, .anyOf hc hd, hrest⟩

@[simp] theorem anyRequiresObject_eq_any (cs : List Condition) :
    anyRequiresObject cs = cs.any requiresObject := by
  induction cs with
  | nil => rfl
  | cons c cs ih => rw [anyRequiresObject, List.any_cons, ih]

/-- What has a fact of the object in it requires one. -/
theorem requiresObject_of_foundIn {c d : Condition} (hd : d.isOfObject = true)
    (h : FoundIn d c) : c.requiresObject = true := by
  induction h with
  | self =>
    cases d with
    | variant | member | field => rfl
    | role | calculated | allOf | anyOf => cases hd
  | allOf hc _ ih =>
    rw [requiresObject, anyRequiresObject_eq_any]
    exact List.any_eq_true.2 ⟨_, hc, ih⟩
  | anyOf hc _ ih =>
    rw [requiresObject, anyRequiresObject_eq_any]
    exact List.any_eq_true.2 ⟨_, hc, ih⟩

/-- What does not require an object is decided without one. -/
theorem exists_holds_none {c : Condition} (h : c.requiresObject = false) :
    ∃ b, c.holds s none = .ok b := by
  cases hholds : c.holds s none with
  | ok b => exact ⟨b, rfl⟩
  | error fault =>
    obtain ⟨d, hfound, hd, _⟩ := exists_foundIn_of_holds_none c hholds
    rw [requiresObject_of_foundIn hd hfound] at h
    cases h

end Condition

/-! ### Conditions and permissions -/

/-- How something is decided, given an object or not, if it asks for some facts of the object, and
    may require one. -/
structure DecidedForGood (facts : Condition → Prop) (required : Bool)
    (outcome : Option Record → Except Error Bool) : Prop where
  /-- With an object there is a decision. -/
  with_object : ∀ r, ∃ b, outcome (some r) = .ok b
  /-- A decision without an object is the one on every object. -/
  final : ∀ b, outcome none = .ok b → ∀ r, outcome (some r) = .ok b
  /-- An error without an object is that it takes one to decide one of the facts. -/
  missing : ∀ fault, outcome none = .error fault → ∃ d, facts d ∧ fault = .missingContext d ∧
    fault.message = "missing context: " ++ d.id ++ " requires an object to evaluate"
  /-- If no object is required there is a decision without one. -/
  without_object : required = false → ∃ b, outcome none = .ok b

/-- The facts of the object that are found in a condition. -/
def Condition.Asks (c d : Condition) : Prop := FoundIn d c ∧ d.isOfObject = true

/-- The facts of the object that are found in the condition of a permission. -/
def Permission.Asks (p : Permission) (d : Condition) : Prop :=
  ∃ c, p.condition? = some c ∧ c.Asks d

theorem Condition.decidedForGood (c : Condition) (s : Session) :
    DecidedForGood c.Asks c.requiresObject (c.holds s) where
  with_object r := ⟨_, c.holds_some⟩
  final b h r := by rw [c.holds_some, holdsOn_of_holds_none r c h]
  missing fault h := by
    obtain ⟨d, hfound, hd, rfl⟩ := exists_foundIn_of_holds_none c h
    exact ⟨d, ⟨hfound, hd⟩, rfl, rfl⟩
  without_object := exists_holds_none

theorem Permission.decidedForGood (p : Permission) (s : Session) :
    DecidedForGood p.Asks (p.condition?.any Condition.requiresObject) (p.holds s) := by
  cases p with
  | allow => exact ⟨fun _ => ⟨_, rfl⟩, fun _ h _ => h, fun _ => nofun, fun _ => ⟨_, rfl⟩⟩
  | deny => exact ⟨fun _ => ⟨_, rfl⟩, fun _ h _ => h, fun _ => nofun, fun _ => ⟨_, rfl⟩⟩
  | when c =>
    have hc := c.decidedForGood s
    refine ⟨hc.with_object, hc.final, fun fault h => ?_, hc.without_object⟩
    obtain ⟨d, hd, hrest⟩ := hc.missing fault h
    exact ⟨d, ⟨c, rfl, hd⟩, hrest⟩

/-- What is decided without an object is decided for good, for conditions and permissions alike;
    an error names a fact of the object that is missing. -/
theorem decided_for_good (c : Condition) (p : Permission) (s : Session) :
    DecidedForGood c.Asks c.requiresObject (c.holds s) ∧
      DecidedForGood p.Asks (p.condition?.any Condition.requiresObject) (p.holds s) :=
  ⟨c.decidedForGood s, p.decidedForGood s⟩

/-! ### The order of alternatives -/

/-- An editor, of whom nothing else is known. -/
def someEditor : Session := Session.blank.withRoles ["editor"]

/-- Editors, and authors of the object. -/
def editorsFirst : Condition := .anyOf [.role (.ofList ["editor"]), .owner "author"]

/-- Authors of the object, and editors. -/
def authorsFirst : Condition := .anyOf [.owner "author", .role (.ofList ["editor"])]

/-- An editor is found to be one for good, unless the author is asked for first. -/
theorem decided_editors :
    editorsFirst.holds someEditor none = .ok true ∧
      (∀ r, editorsFirst.holds someEditor (some r) = .ok true) ∧
      authorsFirst.holds someEditor none = .error (.missingContext (.owner "author")) ∧
      ∃ d, Condition.FoundIn d authorsFirst ∧
        (.missingContext (.owner "author") : Error).message =
          "missing context: " ++ d.id ++ " requires an object to evaluate" := by
  refine ⟨rfl, (decided_for_good editorsFirst .allow someEditor).1.final true rfl, rfl, ?_⟩
  obtain ⟨d, hd, _, hmessage⟩ :=
    (decided_for_good authorsFirst .allow someEditor).1.missing _ rfl
  exact ⟨d, hd.1, hmessage⟩

end Authorization
