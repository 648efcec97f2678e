import Authorization.Engine.View
import Authorization.Proofs.Resolution.Decision

/-!
# Enforcement

Enforcing an action *enforces* the check for it (`Enforces`) if it passes just
where the check says yes, is a denial just where the check says no, and fails as
the check does. That these are three different things is because a check never
fails with a denial itself (`Privileges.denied_can`).

In the strict mode this is so for the privileges on a resource, under any key.
It is also so for an edge and the actions that mean something for its key.
Others an edge says no to, but enforcing one asks the privileges on the resource
all the same, which fall back on what is granted on the object
(`Edge.verify_enforces`).
-/

namespace Authorization

/-! ### Denials -/

/-- Whether an error is a denial. -/
def Error.isDenial : Error → Bool
  | accessDenied _ _ _ => true
  | _ => false

/-- Whether an outcome is a denial. -/
def denied {α : Type} : Except Error α → Bool
  | .ok _ => false
  | .error fault => fault.isDenial

namespace Condition

variable {s : Session} {o : Option Record} {cs : List Condition}

theorem denied_allHold (h : ∀ c ∈ cs, denied (c.holds s o) = false) :
    denied (allHold s o cs) = false := by
  induction cs with
  | nil => rfl
  | cons c cs ih =>
    have hc := h c List.mem_cons_self
    rw [allHold]
    cases hholds : c.holds s o with
    | error fault =>
      rw [hholds] at hc
      exact hc
    | ok b =>
      cases b with
      | false => rfl
      | true => exact ih fun d hd => h d (List.mem_cons_of_mem _ hd)

theorem denied_anyHolds (h : ∀ c ∈ cs, denied (c.holds s o) = false) :
    denied (anyHolds s o cs) = false := by
  induction cs with
  | nil => rfl
  | cons c cs ih =>
    have hc := h c List.mem_cons_self
    rw [anyHolds]
    cases hholds : c.holds s o with
    | error fault =>
      rw [hholds] at hc
      exact hc
    | ok b =>
      cases b with
      | false => exact ih fun d hd => h d (List.mem_cons_of_mem _ hd)
      | true => rfl

/-- A denial is not among what may go wrong in deciding a condition. -/
theorem denied_holds (s : Session) (o : Option Record) :
    ∀ c : Condition, denied (c.holds s o) = false := by
  refine byParts (fun _ => rfl) ?variant ?member ?field rfl ?allOf ?anyOf
  case variant => cases o <;> exact fun _ => rfl
  case member => cases o <;> exact fun _ => rfl
  case field => cases o <;> exact fun _ _ => rfl
  case allOf => exact fun parts ih => denied_allHold ih
  case anyOf => exact fun parts ih => denied_anyHolds ih

end Condition

theorem Permission.denied_holds (s : Session) (o : Option Record) (p : Permission) :
    denied (p.holds s o) = false := by
  cases p with
  | allow => rfl
  | deny => rfl
  | when c => exact c.denied_holds s o

theorem Executor.denied_answer (x : Executor) (s : Session) (a : Action) (resource : String)
    (key : Option String) (optimized : Bool) :
    denied (x.answer s a resource key optimized) = false := by
  cases hps : x.policies with
  | none =>
    rw [answer_of_not_compiled hps]
    rfl
  | some ps =>
    cases hr : x.catalogue.get? resource with
    | none =>
      rw [answer, resolve, compiled, hps, Catalogue.get, hr]
      rfl
    | some r =>
      rw [answer_of_compiled hps hr]
      rfl

/-! ### Checks -/

namespace Engine

variable {α β : Type} {e : Engine}

theorem denied_run_bind {op : Operation α} {f : α → Operation β}
    (hop : denied (e.run op).1 = false) (hf : ∀ a e', denied (Engine.run e' (f a)).1 = false) :
    denied (e.run (op >>= f)).1 = false := by
  rw [run_bind]
  rcases hrun : e.run op with ⟨fault | a, e'⟩
  · rw [hrun] at hop
    exact hop
  · exact hf a e'

theorem denied_resolve (e : Engine) (s : Session) (a : Action) (resource : String)
    (key : Option String) (optimized : Bool) :
    denied (e.run (resolve s a resource key optimized)).1 = false := by
  rw [resolve, run_bind, run_get]
  simp only
  split
  · rfl
  · refine denied_run_bind ?_ fun _ _ => rfl
    obtain ⟨_, hanew⟩ := run_resolveAnew e s a resource key optimized
    rw [hanew]
    exact e.executor.denied_answer s a resource key optimized

end Engine

/-- A check may fail, but not with a denial. -/
theorem Privileges.denied_can (e : Engine) (p : Privileges) (a : Action) (key : Option String) :
    denied (e.run (p.can a key)).1 = false := by
  refine Engine.denied_run_bind (e.denied_resolve _ _ _ _ _) fun permission e' => ?_
  rw [Engine.run_ofExcept]
  exact permission.denied_holds _ _

/-! ### Enforcing -/

/-- An outcome of enforcing is the one that the outcome of a check asks for. -/
structure Enforces (check : Except Error Bool) (enforcement : Except Error Unit) : Prop where
  /-- What may be done, passes. -/
  passes : enforcement = .ok () ↔ check = .ok true
  /-- What may not be done, is denied. -/
  denies : denied enforcement = true ↔ check = .ok false
  /-- What cannot be decided, fails in the same way. -/
  fails : ∀ fault, check = .error fault → enforcement = .error fault

/-- What a check comes to if it is enforced, with a denial at hand. -/
def enforced (denial : Error) : Except Error Bool → Except Error Unit
  | .ok true => .ok ()
  | .ok false => .error denial
  | .error fault => .error fault

theorem enforces_enforced {check : Except Error Bool} (h : denied check = false)
    (resource : String) (key : Option String) (a : Action) :
    Enforces check (enforced (.accessDenied resource key a) check) := by
  rcases check with fault | _ | _
  · -- What fails, fails in the same way; and not with a denial.
    exact ⟨⟨nofun, nofun⟩, ⟨fun h' => absurd (h.symm.trans h') nofun, nofun⟩,
      fun _ h' => congrArg (enforced (.accessDenied resource key a)) h'⟩
  · exact ⟨⟨nofun, nofun⟩, ⟨fun _ => rfl, fun _ => rfl⟩, nofun⟩
  · exact ⟨⟨fun _ => rfl, fun _ => rfl⟩, ⟨nofun, nofun⟩, nofun⟩

namespace Privileges

variable {e : Engine}

/-- In the strict mode an action is checked, and denied by name if the check says no. -/
theorem run_verify_strict (h : e.settings.mode = .strict) (p : Privileges) (a : Action)
    (key : Option String) :
    (e.run (p.verify a key)).1 =
      enforced (.accessDenied p.resource.name key a) (e.run (p.can a key)).1 := by
  rw [verify, Engine.run_bind, Engine.run_get]
  simp only [h]
  rw [Engine.run_bind]
  rcases e.run (p.can a key) with ⟨fault | _ | _, e'⟩
  · rfl
  · rfl
  · rfl

theorem enforces_verify (h : e.settings.mode = .strict) (p : Privileges) (a : Action)
    (key : Option String) : Enforces (e.run (p.can a key)).1 (e.run (p.verify a key)).1 := by
  rw [run_verify_strict h]
  exact enforces_enforced (denied_can e p a key) p.resource.name key a

end Privileges

namespace Edge

variable {e : Engine} {p : Privileges} {key : String} {edge : Edge} {a : Action}

theorem eq_of_of_eq_ok (h : of p key = .ok edge) : edge = ⟨p, key⟩ := by
  rw [of] at h
  split at h
  · exact (Except.ok.inj h).symm
  · cases h

/-- What means something for the key of an edge is checked on the object; nothing else can be
    done. -/
theorem run_can (e : Engine) (edge : Edge) (a : Action) :
    (e.run (edge.can a)).1 =
      if edge.supports a then (e.run (edge.privileges.can a (some edge.key))).1 else .ok false := by
  rw [can]
  split
  · rfl
  · rfl

/-- In the strict mode, enforcing an action enforces the check for it: on a resource under any
    key, and on an edge if the action means something for its key. If it does not, the edge says
    no, and what is enforced is the check on the resource. -/
theorem verify_enforces (h : e.settings.mode = .strict) (p : Privileges) :
    (∀ a key, Enforces (e.run (p.can a key)).1 (e.run (p.verify a key)).1) ∧
      ∀ key edge, of p key = .ok edge → ∀ a,
        (edge.supports a = true → Enforces (e.run (edge.can a)).1 (e.run (edge.verify a)).1) ∧
        (edge.supports a = false → (e.run (edge.can a)).1 = .ok false ∧
          Enforces (e.run (p.can a (some key))).1 (e.run (edge.verify a)).1) := by
  refine ⟨fun a key => Privileges.enforces_verify h p a key, fun key edge hedge a => ?_⟩
  have hverify := Privileges.enforces_verify h p a (some key)
  cases eq_of_of_eq_ok hedge
  refine ⟨fun hmeans => ?_, fun hmeans => ⟨?_, hverify⟩⟩
  · rw [run_can, if_pos hmeans]
    exact hverify
  · rw [run_can, if_neg (Bool.eq_false_iff.1 hmeans)]

/-! ### Creating a title -/

/-- Authors may read and create notes. -/
def authorsCreate : Declaration :=
  .ofScripts "authors" (some (.ofList ["author"])) [.resource "Note" [.grant [.read, .create]]]

/-- An engine for notes that authors create. -/
def creating : Engine :=
  ((Engine.ofSettings Engine.notes .usual).run (Engine.compile [authorsCreate])).2

/-- The privileges of an author on notes. -/
def authorOnNotes : Privileges := ⟨Engine.author, Engine.note, none⟩

/-- An author's edge of titles. -/
def title : Edge := ⟨authorOnNotes, "title"⟩

/-- Reading a title passes, as the check says that it can be read. -/
theorem verify_enforces_title : creating.settings.mode = .strict ∧
    of authorOnNotes "title" = .ok title ∧ title.supports .read = true ∧
    (creating.run (title.can .read)).1 = .ok true ∧
    (creating.run (title.verify .read)).1 = .ok () := by
  have hedge : of authorOnNotes "title" = .ok title := rfl
  have hread : title.supports .read = true := rfl
  have hcan : (creating.run (title.can .read)).1 = .ok true := rfl
  have h := (verify_enforces (e := creating) rfl authorOnNotes).2 "title" title hedge .read
  exact ⟨rfl, hedge, hread, hcan, (h.1 hread).passes.2 hcan⟩

/-- A title cannot be created, and yet creating it passes: notes can be created. -/
theorem verify_create_title : creating.Reachable ∧ creating.settings.mode = .strict ∧
    creating.executor.isCompiled = true ∧ of authorOnNotes "title" = .ok title ∧
    (creating.run (title.can .create)).1 = .ok false ∧
    (creating.run (title.verify .create)).1 = .ok () ∧
    ¬Enforces (creating.run (title.can .create)).1 (creating.run (title.verify .create)).1 := by
  have hcan : (creating.run (title.can .create)).1 = .ok false := rfl
  have hverify : (creating.run (title.verify .create)).1 = .ok () := rfl
  refine ⟨.compile _ (.new _ _), rfl, rfl, rfl, hcan, hverify, fun h => ?_⟩
  have hdenied := h.denies.2 hcan
  rw [hverify] at hdenied
  cases hdenied

end Edge

end Authorization
