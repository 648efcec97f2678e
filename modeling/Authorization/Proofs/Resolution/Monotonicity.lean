import Authorization.Proofs.Resolution.Database

/-!
# More roles and more policies

Conditions deny nothing: what holds for a session holds for one of the same user
that has more roles (`Condition.holdsOn_mono`). Policies deny nothing either, to
one another: what one of them grants is allowed whatever others there are, and
what it grants is derived from its own declaration.

* `Executor.decision`, `Executor.databaseDecision`: what is decided about an
  action on an object, in the application and in the database;
* `Executor.more_allowed`: with more roles and more declarations nothing is lost
  of what was allowed, and no powers are.
-/

namespace Authorization

variable {s s' : Session} {o : Record} {r : Resource} {a : Action} {key : Option String}

/-! ### More roles -/

section Roles

variable (huser : s.user = s'.user) (hroles : ∀ n ∈ s.roleNames, n ∈ s'.roleNames)

include hroles in
theorem Session.hasAnyRole_mono {names : NameSet} (h : s.hasAnyRole names = true) :
    s'.hasAnyRole names = true := by
  obtain ⟨n, hn, hheld⟩ := hasAnyRole_eq_true.1 h
  exact hasAnyRole_eq_true.2 ⟨n, hn, hroles n hheld⟩

include huser in
theorem Condition.fieldHolds_congr (name : String) (operand : Operand) :
    fieldHolds s o name operand = fieldHolds s' o name operand := by
  cases operand with
  | requester => rw [fieldHolds, fieldHolds, huser]
  | value v => rfl

include huser hroles

/-- Nothing that holds ceases to hold with more roles. -/
theorem Condition.holdsOn_mono :
    ∀ c : Condition, c.holdsOn s o = true → c.holdsOn s' o = true := by
  refine byParts (fun _ h => Session.hasAnyRole_mono hroles h) (fun _ h => h) (fun _ h => h)
    ?field (fun h => h) ?allOf ?anyOf
  case field =>
    intro name operand h
    rw [holdsOn, fieldHolds_congr huser] at h
    exact h
  case allOf =>
    intro parts ih h
    rw [holdsOn_allOf, List.all_eq_true] at h ⊢
    exact fun c hc => ih c hc (h c hc)
  case anyOf =>
    intro parts ih h
    rw [holdsOn_anyOf, List.any_eq_true] at h ⊢
    obtain ⟨c, hc, htrue⟩ := h
    exact ⟨c, hc, ih c hc htrue⟩

theorem Permission.holdsOn_mono {p : Permission} (h : p.holdsOn s o = true) :
    p.holdsOn s' o = true := by
  cases p with
  | allow => rfl
  | deny => exact h
  | when c => exact c.holdsOn_mono huser hroles h

namespace Policy

variable {p : Policy}

omit huser in
theorem appliesTo_mono (h : p.appliesTo s = true) : p.appliesTo s' = true := by
  rw [appliesTo_eq_true] at h ⊢
  intro names hnames
  obtain ⟨role, hrole, hheld⟩ := h names hnames
  exact ⟨role, hrole, hroles role hheld⟩

theorem Grants.mono (h : p.Grants s r a key o) : p.Grants s' r a key o :=
  grants_iff.2 (Permission.holdsOn_mono huser hroles (grants_iff.1 h))

end Policy

/-- What some policies grant, more of them grant with more roles. -/
theorem Executor.Granted.mono {ps ps' : List Policy} (hps : ∀ p ∈ ps, p ∈ ps')
    (h : Granted ps s r a key o) : Granted ps' s' r a key o := by
  obtain ⟨hdoable, p, hp, hfor, hgrants⟩ := h
  exact ⟨hdoable, p, hps p hp,
    Policy.isFor_iff.2 (Policy.appliesTo_mono hroles (Policy.isFor_iff.1 hfor)),
    hgrants.mono huser hroles⟩

end Roles

/-! ### Decisions -/

namespace Executor

/-- What is decided about an action on an object of a resource, or on a key of it. -/
def decision (x : Executor) (s : Session) (a : Action) (resource : String) (key : Option String)
    (o : Record) : Except Error Bool := do
  (← x.resolve s a resource key).holds s (some o)

/-- What the database decides about an action on an object of a resource. -/
def databaseDecision (x : Executor) (s : Session) (a : Action) (resource : String) (o : Record) :
    Except Error Bool := do
  (← x.resolveForDatabase a resource).holds s (some o)

variable {x x' : Executor} {ps : List Policy} {resource : String}

theorem decision_of_unknown (hps : x.policies = some ps)
    (hr : x.catalogue.get? resource = none) :
    x.decision s a resource key o = .error (.unknownResource (.named resource)) := by
  rw [decision, resolve, compiled, hps, Catalogue.get, hr]
  rfl

theorem databaseDecision_of_unknown (hps : x.policies = some ps)
    (hr : x.catalogue.get? resource = none) :
    x.databaseDecision s a resource o = .error (.unknownResource (.named resource)) := by
  rw [databaseDecision, resolveForDatabase_of_unknown hps hr]
  rfl

theorem decision_of_compiled (hps : x.policies = some ps)
    (hr : x.catalogue.get? resource = some r) :
    x.decision s a resource key o = .ok ((unoptimized ps s r a key).holdsOn s o) := by
  rw [decision, resolve_of_compiled hps hr]
  exact Permission.holds_some _

theorem databaseDecision_of_compiled (hps : x.policies = some ps)
    (hr : x.catalogue.get? resource = some r) : x.databaseDecision s a resource o =
      .ok ((Permission.mergeAcross (ps.map (·.databasePermission r a))).holdsOn s o) := by
  rw [databaseDecision, resolveForDatabase_of_compiled hps hr]
  exact Permission.holds_some _

/-- What is decided in favour of a session is granted to it. -/
theorem decision_eq_true_iff (hps : x.policies = some ps) :
    x.decision s a resource key o = .ok true ↔
      ∃ r, x.catalogue.get? resource = some r ∧ Granted ps s r a key o := by
  cases hr : x.catalogue.get? resource with
  | none =>
    rw [decision_of_unknown hps hr]
    refine ⟨nofun, ?_⟩
    rintro ⟨_, hr, _⟩
    cases hr
  | some r =>
    rw [decision_of_compiled hps hr, Except.ok.injEq, holdsOn_unoptimized]
    refine ⟨fun h => ⟨r, rfl, h⟩, ?_⟩
    rintro ⟨_, hr, h⟩
    cases hr
    exact h

/-- What the database decides in favour of a session is granted by one of the policies. -/
theorem databaseDecision_eq_true_iff (hps : x.policies = some ps) :
    x.databaseDecision s a resource o = .ok true ↔ ∃ r, x.catalogue.get? resource = some r ∧
      ∃ p ∈ ps, (p.databasePermission r a).holdsOn s o = true := by
  cases hr : x.catalogue.get? resource with
  | none =>
    rw [databaseDecision_of_unknown hps hr]
    refine ⟨nofun, ?_⟩
    rintro ⟨_, hr, _⟩
    cases hr
  | some r =>
    rw [databaseDecision_of_compiled hps hr, Except.ok.injEq, holdsOn_mergedForDatabase_iff]
    refine ⟨fun h => ⟨r, rfl, h⟩, ?_⟩
    rintro ⟨_, hr, h⟩
    cases hr
    exact h

/-- A session has the powers of the policies that apply to it. -/
theorem exists_powers (hps : x.policies = some ps) (s : Session) :
    ∃ powers, x.powersFor s = .ok powers ∧
      ∀ power, power ∈ powers ↔ ∃ p ∈ ps, p.appliesTo s = true ∧ power ∈ p.powers := by
  refine ⟨_, by rw [powersFor, compiled, hps]; rfl, fun power => ?_⟩
  rw [SortedSet.mem_ofList, List.mem_flatMap]
  simp only [List.mem_filter, and_assoc]
  rfl

/-- With more roles held and more policies declared, at whatever place, all that was allowed is
    allowed, in decisions and in the database, and no power is lost. -/
theorem more_allowed {c : Catalogue} {settings : Settings} {ds ds' : List Declaration}
    (hx : (ofSettings c settings).compile ds = .ok x)
    (hx' : (ofSettings c settings).compile ds' = .ok x') (hds : ∀ d ∈ ds, d ∈ ds')
    (huser : s.user = s'.user) (hroles : ∀ n ∈ s.roleNames, n ∈ s'.roleNames) :
    (∀ a resource key o, x.decision s a resource key o = .ok true →
      x'.decision s' a resource key o = .ok true) ∧
    (∀ a resource o, x.databaseDecision s a resource o = .ok true →
      x'.databaseDecision s' a resource o = .ok true) ∧
    ∃ powers powers', x.powersFor s = .ok powers ∧ x'.powersFor s' = .ok powers' ∧
      ∀ power ∈ powers, power ∈ powers' := by
  obtain ⟨ps, hcompiled, hc, hps⟩ := exists_policies_of_compile hx
  obtain ⟨ps', hcompiled', hc', hps'⟩ := exists_policies_of_compile hx'
  -- A declaration comes to the same policy, whatever others there are.
  have hmem : ∀ p ∈ ps, p ∈ ps' := by
    intro p hp
    obtain ⟨d, hd, hpolicy⟩ := (Catalogue.mem_of_compile hcompiled).1 hp
    exact (Catalogue.mem_of_compile hcompiled').2 ⟨d, hds d hd, hpolicy⟩
  refine ⟨fun a resource key o h => ?_, fun a resource o h => ?_, ?_⟩
  · rw [decision_eq_true_iff hps, hc] at h
    rw [decision_eq_true_iff hps', hc']
    obtain ⟨r, hr, hgranted⟩ := h
    exact ⟨r, hr, hgranted.mono huser hroles hmem⟩
  · rw [databaseDecision_eq_true_iff hps, hc] at h
    rw [databaseDecision_eq_true_iff hps', hc']
    obtain ⟨r, hr, p, hp, hallowed⟩ := h
    exact ⟨r, hr, p, hmem p hp, Permission.holdsOn_mono huser hroles hallowed⟩
  · obtain ⟨powers, hpowers, hiff⟩ := exists_powers hps s
    obtain ⟨powers', hpowers', hiff'⟩ := exists_powers hps' s'
    refine ⟨powers, powers', hpowers, hpowers', fun power h => ?_⟩
    obtain ⟨p, hp, happlies, hpower⟩ := (hiff power).1 h
    exact (hiff' power).2 ⟨p, hmem p hp, Policy.appliesTo_mono hroles happlies, hpower⟩

/-! ### Tickets -/

/-- Tickets have a state. -/
def ticket : Resource := (Resource.ofName "Ticket").withProps ["state"]

/-- A catalogue of tickets. -/
def tickets : Catalogue := ⟨.ofList [("Ticket", ticket)], rfl⟩

/-- Agents may create tickets, and read those of their own. -/
def agents : Declaration :=
  .ofScripts "agents" (some (.ofList ["agent"]))
    [.resource "Ticket" [.grant [.create], .when (.owner "author"), .grant [.read]]]

/-- Auditors may read all closed tickets. -/
def auditors : Declaration :=
  .ofScripts "auditors" (some (.ofList ["auditor"]))
    [.resource "Ticket" [.when (.field "state" (.value (.string "closed"))), .grant [.read]]]

/-- What decides on tickets, by some declarations. -/
def ofTickets (ds : List Declaration) : Executor :=
  { ofSettings tickets .usual with policies := (tickets.compile ds).toOption }

/-- The session of a user, in some roles. -/
def inRoles (roles : List String) : Session := (Session.ofUser ⟨9⟩).withRoles roles

/-- An open ticket of this user. -/
def ownTicket : Record :=
  { Record.blank with
    fields := .ofList [("author", .string (Uuid.mk 9).text), ("state", .string "open")] }

/-- Agents go on to read their tickets, and to create some, if they become auditors too and these
    have a policy of their own. -/
theorem agents_allowed :
    (ofTickets [agents]).decision (inRoles ["agent"]) .read "Ticket" (some "state") ownTicket =
      .ok true ∧
    (ofTickets [auditors, agents]).decision (inRoles ["auditor", "agent"]) .read "Ticket"
      (some "state") ownTicket = .ok true ∧
    (ofTickets [auditors, agents]).databaseDecision (inRoles ["auditor", "agent"]) .read "Ticket"
      ownTicket = .ok true ∧
    ∃ powers, (ofTickets [auditors, agents]).powersFor (inRoles ["auditor", "agent"]) =
      .ok powers ∧ ⟨"Ticket"⟩ ∈ powers := by
  have hx : (ofSettings tickets .usual).compile [agents] = .ok (ofTickets [agents]) := rfl
  have hx' : (ofSettings tickets .usual).compile [auditors, agents] =
      .ok (ofTickets [auditors, agents]) := rfl
  have hds : ∀ d ∈ [agents], d ∈ [auditors, agents] := fun _ => List.mem_cons_of_mem _
  have huser : (inRoles ["agent"]).user = (inRoles ["auditor", "agent"]).user := rfl
  have hroles : ∀ n ∈ (inRoles ["agent"]).roleNames,
      n ∈ (inRoles ["auditor", "agent"]).roleNames := by
    have hall : (inRoles ["agent"]).roleNames.toList.all
        (inRoles ["auditor", "agent"]).roleNames.contains = true := rfl
    exact fun n hn => SortedSet.contains_eq_true.1 (List.all_eq_true.1 hall n hn)
  have hread : (ofTickets [agents]).decision (inRoles ["agent"]) .read "Ticket" (some "state")
      ownTicket = .ok true := rfl
  obtain ⟨hdecision, hdatabase, powers, powers', hpowers, hpowers', hsub⟩ :=
    more_allowed hx hx' hds huser hroles
  refine ⟨hread, hdecision _ _ _ _ hread, hdatabase _ _ _ rfl, powers', hpowers', hsub _ ?_⟩
  cases hpowers
  exact SortedSet.contains_eq_true.1 rfl

end Executor

end Authorization
