import Authorization.Proofs.Engine.Views
import Authorization.Proofs.Permission.Meaning
import Authorization.Proofs.Policy.Compilation

/-!
# Secured records

What a session gets to see of a record depends on the record only by what the
session may see of it. Two records *look alike* to the privileges on an object
(`Privileges.LookAlike`) if they agree on the fields that are not secured, on
the secured keys that can be read, and under other keys on whether there is a
list; then securing the one has the outcome of securing the other, on any engine
with the same policies and settings (`Privileges.secure_of_lookAlike`).

The outcome of securing is what the executor decides about each key
(`Privileges.secured`), whatever the engine keeps (`Privileges.answers_secure`):
an operation *answers* something if it has this outcome on every engine with the
executor and the settings that keeps nothing but what it would answer anew
(`Engine.Answers`).
-/

namespace Authorization

/-- Whether a value is a list. -/
def Json.isArray : Json → Bool
  | .array _ => true
  | _ => false

/-! ### Outcomes whatever is kept -/

namespace Engine

variable {α β : Type} {x : Executor} {settings : Settings}

/-- The engine has the executor and the settings, and keeps nothing but what it would answer. -/
structure IsFor (x : Executor) (settings : Settings) (e : Engine) : Prop where
  /-- It has the executor. -/
  executor : e.executor = x
  /-- It has the settings. -/
  settings : e.settings = settings
  /-- It keeps nothing but what it would answer. -/
  faithful : e.Faithful

/-- An operation has an outcome, on every engine with the executor and the settings. -/
def Answers (x : Executor) (settings : Settings) (op : Operation α) (outcome : Except Error α) :
    Prop :=
  ∀ e, IsFor x settings e → (e.run op).1 = outcome ∧ IsFor x settings (e.run op).2

namespace Answers

theorem pure (a : α) : Answers x settings (Pure.pure a) (.ok a) := fun _ h => ⟨rfl, h⟩

theorem throw (fault : Error) : Answers x settings (throw fault : Operation α) (.error fault) :=
  fun _ h => ⟨rfl, h⟩

theorem bind {op : Operation α} {f : α → Operation β} {outcome : Except Error α}
    {g : α → Except Error β} (hop : Answers x settings op outcome)
    (hf : ∀ a, Answers x settings (f a) (g a)) :
    Answers x settings (op >>= f) (outcome.bind g) := by
  intro e h
  obtain ⟨houtcome, hfor⟩ := hop e h
  rw [run_bind, ← houtcome]
  rcases hrun : e.run op with ⟨fault | a, e'⟩
  · rw [hrun] at hfor
    exact ⟨rfl, hfor⟩
  · rw [hrun] at hfor
    exact hf a e' hfor

/-- What is done with the engine at hand may depend on its settings. -/
theorem get {f : Engine → Operation α} {outcome : Except Error α}
    (hf : ∀ e, e.settings = settings → Answers x settings (f e) outcome) :
    Answers x settings (MonadState.get >>= f) outcome := by
  intro e h
  rw [run_bind, run_get]
  exact hf e h.settings e h

end Answers

theorem answers_ofExcept (outcome : Except Error α) :
    Answers x settings (ofExcept outcome) outcome := by
  intro e h
  rw [run_ofExcept]
  exact ⟨rfl, h⟩

theorem answers_warn (w : Warning) : Answers x settings (warn w) (.ok ()) :=
  fun _ h => ⟨rfl, h.executor, h.settings, h.faithful.of_eq rfl rfl⟩

theorem answers_resolve (s : Session) (a : Action) (resource : String) (key : Option String)
    (optimized : Bool) :
    Answers x settings (resolve s a resource key optimized)
      (x.answer s a resource key optimized) := by
  intro e h
  obtain ⟨houtcome, hexecutor, hsettings, hfaithful⟩ :=
    @run_resolve e s a resource key optimized h.faithful
  exact ⟨h.executor ▸ houtcome, hexecutor.trans h.executor, hsettings.trans h.settings, hfaithful⟩

end Engine

namespace Privileges

open Engine (Answers)

variable {x : Executor} {settings : Settings}

/-! ### What the executor decides about a record -/

/-- What comes of reading the object, as the settings say. -/
def admission (x : Executor) (settings : Settings) (p : Privileges) : Except Error Unit :=
  match settings.mode with
  | .off => .ok ()
  | .advisory => (p.decision x .read none).bind fun _ => .ok ()
  | .strict => (p.decision x .read none).bind fun allowed =>
    if allowed then .ok () else .error (.accessDenied p.resource.name none .read)

/-- Whether the value under a key can be changed. -/
def changeable (x : Executor) (p : Privileges) (key : String) : Except Error Bool :=
  if (p.resource.relation? key).isSome then
    (p.decision x .create (some key)).bind fun allowed =>
      if allowed then .ok true else p.decision x .edit (some key)
  else p.decision x .edit (some key)

/-- How the value under a key is shown. -/
def securedField (x : Executor) (p : Privileges) (record : Record) (key : String) :
    Except Error SecuredField :=
  (p.decision x .read (some key)).bind fun canRead =>
    (p.changeable x key).bind fun canEdit =>
      .ok ⟨shown canRead ((record.fields.get? key).getD .null), canRead, canEdit⟩

/-- What securing a record comes to, with conditions decided on the object. -/
def secured (x : Executor) (settings : Settings) (p : Privileges) (record : Record) :
    Except Error SecuredRecord :=
  (p.admission x settings).bind fun _ =>
    (decideAll (p.securedField x record) p.resource.securedKeys (unsecured p.resource record)).bind
      fun fields => .ok ⟨p.resource.name, fields⟩

theorem answers_can (p : Privileges) (a : Action) (key : Option String) :
    Answers x settings (p.can a key) (p.decision x a key) :=
  (Engine.answers_resolve p.session a p.resource.name key false).bind fun _ =>
    Engine.answers_ofExcept _

theorem answers_verify (p : Privileges) :
    Answers x settings (p.verify .read none) (p.admission x settings) := by
  refine .get fun e he => ?_
  rw [he, admission]
  cases settings.mode with
  | off => exact Answers.pure ()
  | advisory =>
    refine (answers_can p .read none).bind fun allowed => ?_
    cases allowed with
    | true => exact .pure ()
    | false => exact Engine.answers_warn .allowedAnyway
  | strict =>
    refine (answers_can p .read none).bind fun allowed => ?_
    cases allowed with
    | true => exact .pure ()
    | false => exact .throw _

theorem answers_canChange (p : Privileges) (key : String) :
    Answers x settings (p.canChange key) (p.changeable x key) := by
  rw [canChange, changeable]
  split
  · refine (answers_can p .create (some key)).bind fun allowed => ?_
    cases allowed with
    | true => exact .pure true
    | false => exact answers_can p .edit (some key)
  · exact answers_can p .edit (some key)

theorem answers_secureKey (p : Privileges) (record : Record) (key : String) :
    Answers x settings (p.secureKey record key) (p.securedField x record key) :=
  (answers_can p .read (some key)).bind fun _ => (answers_canChange p key).bind fun _ => .pure _

theorem answers_secureKeys (p : Privileges) (record : Record) (keys : List String)
    (fields : NameMap SecuredField) :
    Answers x settings (p.secureKeys record keys fields)
      (decideAll (p.securedField x record) keys fields) := by
  induction keys generalizing fields with
  | nil => exact .pure fields
  | cons key keys ih => exact (answers_secureKey p record key).bind fun _ => ih _

/-- Securing a record comes to what the executor decides, whatever the engine keeps. -/
theorem answers_secure (p : Privileges) (record : Record) :
    Answers x settings (p.secure record)
      (secured x settings { p with object := some (p.object.getD record) } record) :=
  (answers_verify _).bind fun _ => (answers_secureKeys _ record _ _).bind fun _ => .pure _

/-! ### Fields -/

variable {p : Privileges} {record : Record} {found : SecuredRecord}

/-- The secured keys are the properties and the relations. -/
theorem mem_securedKeys {r : Resource} {key : String} :
    key ∈ r.securedKeys ↔ r.props.contains key = true ∨ (r.relation? key).isSome = true := by
  rw [Resource.securedKeys, List.mem_append, SortedSet.contains_eq_true, SortedSet.mem_def,
    ← SortedMap.contains_eq_true]
  rfl

/-- The fields that are not secured are shown as they are. -/
theorem get?_unsecured (r : Resource) (record : Record) (name : String) :
    (unsecured r record).get? name = if name ∈ r.securedKeys then none
      else (record.fields.get? name).map fun value => ⟨value, true, false⟩ := by
  have hshown : (!r.props.contains name && (r.relation? name).isNone) =
      !decide (name ∈ r.securedKeys) := by
    rw [Bool.eq_iff_iff, Bool.not_eq_true', decide_eq_false_iff_not, mem_securedKeys,
      Bool.and_eq_true, Bool.not_eq_true', not_or, Bool.not_eq_true, Bool.not_eq_true,
      Option.isSome_eq_false_iff]
  rw [unsecured, SortedMap.get?_mapValues, SortedMap.get?_filter]
  simp only [hshown]
  cases record.fields.get? name with
  | none => split <;> rfl
  | some value =>
    rw [Option.filter_some]
    split <;> simp_all

/-- What a secured key is shown as is decided by the executor, if the record is shown at all. -/
theorem exists_securedField_of_secured (h : secured x settings p record = .ok found) {key : String}
    (hkey : key ∈ p.resource.securedKeys) :
    ∃ field, p.securedField x record key = .ok field ∧ found.fields.get? key = some field := by
  obtain ⟨_, _, h⟩ := exists_of_bind_eq_ok h
  obtain ⟨fields, hfields, h⟩ := exists_of_bind_eq_ok h
  cases h
  exact (get?_of_decideAll_ok hfields key).1 hkey

/-- A secured record has the secured keys, with their values as far as they can be read, and the
    fields that are not secured. -/
theorem exists_of_secured (h : secured x settings p record = .ok found) :
    found.resource = p.resource.name ∧
      (∀ key ∈ p.resource.securedKeys, ∃ canRead canEdit,
        p.decision x .read (some key) = .ok canRead ∧ found.fields.get? key =
          some ⟨shown canRead ((record.fields.get? key).getD .null), canRead, canEdit⟩) ∧
      ∀ name, name ∉ p.resource.securedKeys → found.fields.get? name =
        (record.fields.get? name).map fun value => ⟨value, true, false⟩ := by
  have hshown := fun key => @exists_securedField_of_secured x settings p record found h key
  obtain ⟨_, _, h⟩ := exists_of_bind_eq_ok h
  obtain ⟨fields, hfields, h⟩ := exists_of_bind_eq_ok h
  cases h
  refine ⟨rfl, fun key hkey => ?_, fun name hname => ?_⟩
  · obtain ⟨field, hfield, hget⟩ := hshown key hkey
    obtain ⟨canRead, hread, hfield⟩ := exists_of_bind_eq_ok hfield
    obtain ⟨canEdit, _, hfield⟩ := exists_of_bind_eq_ok hfield
    cases hfield
    exact ⟨canRead, canEdit, hread, hget⟩
  · rw [(get?_of_decideAll_ok hfields name).2 hname, get?_unsecured, if_neg hname]

/-! ### Records that look alike -/

variable {e e' : Engine} {record' : Record}

/-- Two records agree on all that the privileges let be seen: they agree on the fields that are
    not secured, on the values under secured keys that can be read, and on which of the values
    under other keys are lists. -/
structure LookAlike (e : Engine) (p : Privileges) (record record' : Record) : Prop where
  /-- They agree on what is not secured. -/
  unsecured : ∀ name, name ∉ p.resource.securedKeys →
    record.fields.get? name = record'.fields.get? name
  /-- They agree on what can be read. -/
  readable : ∀ key ∈ p.resource.securedKeys, (e.run (p.can .read (some key))).1 = .ok true →
    (record.fields.get? key).getD .null = (record'.fields.get? key).getD .null
  /-- They agree on where there are lists. -/
  unreadable : ∀ key ∈ p.resource.securedKeys, (e.run (p.can .read (some key))).1 = .ok false →
    ((record.fields.get? key).getD .null).isArray = ((record'.fields.get? key).getD .null).isArray

/-- A secured record shows of a record what can be read of it, and nothing else. -/
structure Shows (e : Engine) (p : Privileges) (record : Record) (found : SecuredRecord) :
    Prop where
  /-- It is of the resource. -/
  resource : found.resource = p.resource.name
  /-- It has the fields of the record and the secured keys. -/
  keys : ∀ name, found.fields.contains name = true ↔
    record.fields.contains name = true ∨ name ∈ p.resource.securedKeys
  /-- What is not secured is shown. -/
  unsecured : ∀ name, name ∉ p.resource.securedKeys →
    (found.fields.get? name).map SecuredField.value = record.fields.get? name
  /-- What can be read is shown. -/
  readable : ∀ key ∈ p.resource.securedKeys, (e.run (p.can .read (some key))).1 = .ok true →
    (found.fields.get? key).map SecuredField.value =
      some ((record.fields.get? key).getD .null)
  /-- In place of anything else stands nothing, or the empty list. -/
  unreadable : ∀ key ∈ p.resource.securedKeys, (e.run (p.can .read (some key))).1 ≠ .ok true →
    (found.fields.get? key).map SecuredField.value = some .null ∨
      (found.fields.get? key).map SecuredField.value = some (.array [])

theorem blanked_eq_or (v : Json) : blanked v = .null ∨ blanked v = .array [] := by
  cases v with
  | array _ => exact .inr rfl
  | null | bool _ | number _ | string _ | object _ => exact .inl rfl

/-- What stands in place of a value tells no more than whether it is a list. -/
theorem blanked_congr {v w : Json} (h : v.isArray = w.isArray) : blanked v = blanked w := by
  cases v <;> cases w <;> first | rfl | cases h

theorem run_can_of_reachable (h : e.Reachable) (p : Privileges) (a : Action)
    (key : Option String) : (e.run (p.can a key)).1 = p.decision e.executor a key :=
  (run_can h.faithful p a key).1

/-- Privileges on an object decide on that object, whatever the record. -/
theorem run_secure_of_bound (h : e.Reachable) (hp : p.isBound = true) (record : Record) :
    (e.run (p.secure record)).1 = secured e.executor e.settings p record := by
  obtain ⟨o, ho⟩ := Option.isSome_iff_exists.1 hp
  have hobject : { p with object := some (p.object.getD record) } = p := by
    rw [ho, Option.getD_some, ← ho]
  have hsecure := (answers_secure p record e ⟨rfl, rfl, h.faithful⟩).1
  rwa [hobject] at hsecure

theorem secured_congr (h : e.Reachable) (hr : LookAlike e p record record') :
    secured e.executor settings p record = secured e.executor settings p record' := by
  have hfield : ∀ key ∈ p.resource.securedKeys,
      securedField e.executor p record key = securedField e.executor p record' key := by
    intro key hkey
    have hreadable := hr.readable key hkey
    have hunreadable := hr.unreadable key hkey
    rw [run_can_of_reachable h] at hreadable hunreadable
    rw [securedField, securedField]
    cases hread : p.decision e.executor .read (some key) with
    | error fault => rfl
    | ok canRead =>
      have hshown : shown canRead ((record.fields.get? key).getD .null) =
          shown canRead ((record'.fields.get? key).getD .null) := by
        cases canRead with
        | true => exact hreadable hread
        | false => exact blanked_congr (hunreadable hread)
      exact congrArg (fun value => (p.changeable e.executor key).bind fun canEdit =>
        Except.ok (SecuredField.mk value canRead canEdit)) hshown
  have hunsecured : Privileges.unsecured p.resource record =
      Privileges.unsecured p.resource record' := by
    refine SortedMap.ext fun name => ?_
    rw [get?_unsecured, get?_unsecured]
    split
    · rfl
    · rename_i hname
      rw [hr.unsecured name hname]
  rw [secured, secured, decideAll_congr hfield, hunsecured]

theorem shows_of_secured (h : e.Reachable)
    (hfound : secured e.executor settings p record = .ok found) :
    Shows e p record found := by
  obtain ⟨hresource, hkeys, hothers⟩ := exists_of_secured hfound
  refine ⟨hresource, fun name => ?_, fun name hname => ?_, fun key hkey hread => ?_,
    fun key hkey hread => ?_⟩
  · by_cases hname : name ∈ p.resource.securedKeys
    · obtain ⟨_, _, _, hget⟩ := hkeys name hname
      rw [SortedMap.contains, hget]
      exact ⟨fun _ => .inr hname, fun _ => rfl⟩
    · rw [SortedMap.contains, hothers name hname, Option.isSome_map, or_iff_left hname]
      rfl
  · rw [hothers name hname, Option.map_map]
    exact Option.map_id_apply
  · obtain ⟨canRead, canEdit, hdecision, hget⟩ := hkeys key hkey
    rw [run_can_of_reachable h, hdecision] at hread
    cases hread
    rw [hget]
    rfl
  · obtain ⟨canRead, canEdit, hdecision, hget⟩ := hkeys key hkey
    rw [run_can_of_reachable h, hdecision] at hread
    rw [hget]
    cases canRead with
    | true => exact absurd rfl hread
    | false => exact (blanked_eq_or _).imp (congrArg some) (congrArg some)

/-- Records that look alike are secured alike, on any engines with the same policies and settings;
    and a secured record shows nothing but what can be read. -/
theorem secure_of_lookAlike (h : e.Reachable) (h' : e'.Reachable)
    (hexecutor : e'.executor = e.executor) (hsettings : e'.settings = e.settings)
    (hp : p.isBound = true) (hr : LookAlike e p record record') :
    (e.run (p.secure record)).1 = (e'.run (p.secure record')).1 ∧
      ∀ found, (e.run (p.secure record)).1 = .ok found → Shows e p record found := by
  rw [run_secure_of_bound h hp, run_secure_of_bound h' hp, hexecutor, hsettings]
  exact ⟨secured_congr h hr, fun found hfound => shows_of_secured h hfound⟩

/-! ### Securing succeeds -/

/-- With policies, everything on an object of a resource that there is can be decided. -/
theorem exists_decision {ps : List Policy} {resource : Resource} (hps : x.policies = some ps)
    (hresource : x.catalogue.get? p.resource.name = some resource) (hp : p.isBound = true)
    (a : Action) (key : Option String) : ∃ allowed, p.decision x a key = .ok allowed := by
  obtain ⟨o, ho⟩ := Option.isSome_iff_exists.1 hp
  rw [decision, Executor.answer_of_compiled hps hresource, ho]
  exact ⟨_, Permission.holds_some _⟩

/-- With policies, a record is secured, unless the object cannot be read and that is enforced. -/
theorem secure_succeeds_or_denies (h : e.Reachable) {ps : List Policy} {resource : Resource}
    (hps : e.executor.policies = some ps)
    (hresource : e.executor.catalogue.get? p.resource.name = some resource)
    (hp : p.isBound = true) (record : Record) :
    (∃ found, (e.run (p.secure record)).1 = .ok found) ∨
      e.settings.mode = .strict ∧ (e.run (p.can .read none)).1 = .ok false ∧
        (e.run (p.secure record)).1 = .error (.accessDenied p.resource.name none .read) := by
  have hdecision := exists_decision hps hresource hp
  have hfield : ∀ key, ∃ field, securedField e.executor p record key = .ok field := by
    intro key
    obtain ⟨canRead, hread⟩ := hdecision .read (some key)
    obtain ⟨canCreate, hcreate⟩ := hdecision .create (some key)
    obtain ⟨canEdit, hedit⟩ := hdecision .edit (some key)
    rw [securedField, changeable, hread, hcreate, hedit]
    split
    · cases canCreate <;> exact ⟨_, rfl⟩
    · exact ⟨_, rfl⟩
  have hadmitted : admission e.executor e.settings p = .ok () →
      ∃ found, secured e.executor e.settings p record = .ok found := by
    intro hadmitted
    rw [secured, hadmitted]
    cases hall : decideAll (securedField e.executor p record) p.resource.securedKeys
        (Privileges.unsecured p.resource record) with
    | ok fields => exact ⟨_, rfl⟩
    | error fault =>
      obtain ⟨key, _, hfault⟩ := exists_of_decideAll_error hall
      obtain ⟨field, hfield⟩ := hfield key
      rw [hfield] at hfault
      cases hfault
  obtain ⟨canRead, hread⟩ := hdecision .read none
  rw [run_secure_of_bound h hp, run_can_of_reachable h, hread]
  rw [admission, hread] at hadmitted
  cases hmode : e.settings.mode with
  | off => exact .inl (hadmitted (by rw [hmode]))
  | advisory => exact .inl (hadmitted (by rw [hmode]; rfl))
  | strict =>
    cases canRead with
    | true => exact .inl (hadmitted (by rw [hmode]; rfl))
    | false =>
      refine .inr ⟨rfl, rfl, ?_⟩
      rw [secured, admission, hmode, hread]
      rfl

/-! ### Salaries -/

/-- Employees have a name and a salary. -/
def employee : Resource := (Resource.ofName "Employee").withProps ["name", "salary"]

/-- A catalogue of employees. -/
def employees : Catalogue := ⟨.ofList [("Employee", employee)], rfl⟩

/-- The staff may read employees, but salaries only who keeps the books. -/
def staffOnly : Declaration :=
  .ofScripts "staff" (some (.ofList ["staff"]))
    [.resource "Employee" [.grant [.read],
      .specifically [.select ["salary"], .when (.role (.ofList ["books"])), .grant [.read]]]]

/-- An engine for employees. -/
def staffing : Engine :=
  ((Engine.ofSettings employees .usual).run (Engine.compile [staffOnly])).2

/-- An employee with a salary. -/
def paid (salary : String) : Record :=
  { Record.blank with
    fields := .ofList [("name", .string "Ada"), ("salary", .string salary), ("desk", .string "4")] }

theorem get?_paid (salary name : String) : (paid salary).fields.get? name =
    if name = "desk" then some (.string "4")
      else if name = "salary" then some (.string salary)
      else if name = "name" then some (.string "Ada") else none := by
  have hfields : (paid salary).fields = (((∅ : NameMap Json).insert "name" (.string "Ada")).insert
      "salary" (.string salary)).insert "desk" (.string "4") := rfl
  rw [hfields, SortedMap.get?_insert, SortedMap.get?_insert, SortedMap.get?_insert]
  rfl

/-- The privileges of one of the staff on the employee. -/
def asStaff : Privileges :=
  ⟨(Session.ofUser ⟨3⟩).withRoles ["staff"], employee, some (paid "low")⟩

/-- Whatever the salary, the staff see the same. -/
theorem salary_hidden : staffing.Reachable ∧ asStaff.isBound = true ∧
    LookAlike staffing asStaff (paid "low") (paid "high") ∧
    (staffing.run (asStaff.secure (paid "low"))).1 =
      (staffing.run (asStaff.secure (paid "high"))).1 ∧
    (staffing.run (asStaff.secure (paid "low"))).1.isOk = true := by
  have hreachable : staffing.Reachable := .compile _ (.new _ _)
  have halike : LookAlike staffing asStaff (paid "low") (paid "high") := by
    have hkeys : asStaff.resource.securedKeys = ["name", "salary"] := rfl
    refine ⟨fun name hname => ?_, ?_, ?_⟩
    · rw [hkeys, List.mem_cons, List.mem_singleton, not_or] at hname
      rw [get?_paid, get?_paid, if_neg hname.2, if_neg hname.2]
    · rw [hkeys]
      rintro key hkey hread
      rcases List.mem_pair.1 hkey with rfl | rfl
      · rfl
      · cases hread
    · rw [hkeys]
      rintro key hkey _
      rcases List.mem_pair.1 hkey with rfl | rfl <;> rfl
  exact ⟨hreachable, rfl, halike,
    (secure_of_lookAlike hreachable hreachable rfl rfl rfl halike).1, rfl⟩

end Privileges

end Authorization
