import Authorization.Proofs.Engine.Answers
import Authorization.Proofs.Policy.Permissions

/-!
# The rule that resolution decides by

An action is *granted* on an object if it is one that can be done at all, where
computed data can only be read, and if some policy for the session says so: the
most specific entry that it has for the action allows it, or makes it depend on
a condition that holds (`Executor.Granted`). What a policy says is read off its
entries here (`ResourceGrants.Says`), and there is no order among policies.

* `Engine.decides`: resolution comes to an answer, which is yes if the action
  is granted and no otherwise, optimized or not.
-/

namespace Authorization

variable {s : Session} {r : Resource} {a : Action} {key : Option String} {o : Record} {k : Check}

namespace ResourceGrants

variable {g : ResourceGrants} {p : Permission}

/-- There is an entry for the action on the key as a relation. -/
def OnRelation (g : ResourceGrants) (r : Resource) (a : Action) (key : Option String)
    (p : Permission) : Prop :=
  ∃ name relation d, key = some name ∧ r.relations.get? name = some relation ∧
    g.relations.get? name = some d ∧ d.get? a = some p

/-- There is an entry for the action on the key as a property. -/
def OnProp (g : ResourceGrants) (a : Action) (key : Option String) (p : Permission) : Prop :=
  ∃ name d, key = some name ∧ g.props.get? name = some d ∧ d.get? a = some p

/-- The most specific entry for the action: on the key as a relation, else on the key as a
    property, else on the object. -/
inductive Says (g : ResourceGrants) (r : Resource) (a : Action) (key : Option String) :
    Permission → Prop
  | onRelation {p : Permission} : g.OnRelation r a key p → Says g r a key p
  | onProp {p : Permission} : (∀ q, ¬g.OnRelation r a key q) → g.OnProp a key p →
    Says g r a key p
  | onObject {p : Permission} : (∀ q, ¬g.OnRelation r a key q) → (∀ q, ¬g.OnProp a key q) →
    g.object.get? a = some p → Says g r a key p

theorem onRelation_iff : g.OnRelation r a key p ↔ key.bind (g.onRelation? r a) = some p := by
  constructor
  · rintro ⟨name, relation, d, rfl, hrelation, hd, hp⟩
    rw [Option.bind_some, onRelation?, Resource.relation?, hrelation, Option.bind_some, hd]
    exact hp
  · intro h
    obtain ⟨name, hname, h⟩ := Option.bind_eq_some_iff.1 h
    obtain ⟨relation, hrelation, h⟩ := Option.bind_eq_some_iff.1 h
    obtain ⟨d, hd, hp⟩ := Option.bind_eq_some_iff.1 h
    exact ⟨name, relation, d, hname, hrelation, hd, hp⟩

theorem onProp_iff : g.OnProp a key p ↔ key.bind (g.onProp? a) = some p := by
  constructor
  · rintro ⟨name, d, rfl, hd, hp⟩
    rw [Option.bind_some, onProp?, hd]
    exact hp
  · intro h
    obtain ⟨name, hname, h⟩ := Option.bind_eq_some_iff.1 h
    obtain ⟨d, hd, hp⟩ := Option.bind_eq_some_iff.1 h
    exact ⟨name, d, hname, hd, hp⟩

/-- Looking up finds the most specific entry. -/
theorem says_iff : g.Says r a key p ↔
    ((key.bind (g.onRelation? r a)).or (key.bind (g.onProp? a))).or (g.object.get? a) = some p := by
  rw [Option.or_eq_some_iff, Option.or_eq_some_iff, Option.or_eq_none_iff]
  have hnone : ∀ {x : Option Permission}, (∀ q, ¬x = some q) ↔ x = none :=
    Option.eq_none_iff_forall_ne_some.symm
  -- Each constructor is a way in which the first of the look-ups that finds something does.
  constructor
  · rintro (h | ⟨h, h'⟩ | ⟨h, h', h''⟩)
    · exact .inl (.inl (onRelation_iff.1 h))
    · exact .inl (.inr ⟨hnone.1 fun q hq => h q (onRelation_iff.2 hq), onProp_iff.1 h'⟩)
    · exact .inr ⟨⟨hnone.1 fun q hq => h q (onRelation_iff.2 hq),
        hnone.1 fun q hq => h' q (onProp_iff.2 hq)⟩, h''⟩
  · rintro ((h | ⟨h, h'⟩) | ⟨⟨h, h'⟩, h''⟩)
    · exact .onRelation (onRelation_iff.2 h)
    · exact .onProp (fun q hq => hnone.2 h q (onRelation_iff.1 hq)) (onProp_iff.2 h')
    · exact .onObject (fun q hq => hnone.2 h q (onRelation_iff.1 hq))
        (fun q hq => hnone.2 h' q (onProp_iff.1 hq)) h''

/-- What is looked up allows something if the most specific entry does. -/
theorem holdsOn_lookup : (g.lookup r a key).holdsOn s o = true ↔
    ∃ p, g.Says r a key p ∧ p.holdsOn s o = true := by
  simp only [says_iff]
  rw [lookup]
  cases ((key.bind (g.onRelation? r a)).or (key.bind (g.onProp? a))).or (g.object.get? a) with
  | none =>
    constructor
    · intro h
      cases h
    · rintro ⟨p, hp, _⟩
      cases hp
  | some p =>
    refine ⟨fun h => ⟨p, rfl, h⟩, ?_⟩
    rintro ⟨q, hq, htrue⟩
    cases hq
    exact htrue

end ResourceGrants

/-! ### Policies -/

/-- A policy grants the action on the object: its most specific entry allows it, or makes it
    depend on a condition that holds. -/
def Policy.Grants (policy : Policy) (s : Session) (r : Resource) (a : Action)
    (key : Option String) (o : Record) : Prop :=
  ∃ g, policy.live.get? r.name = some g ∧ ∃ p, g.Says r a key p ∧
    (p = .allow ∨ ∃ c, p = .when c ∧ c.holds s (some o) = .ok true)

/-- A policy is for a session: for everyone, or for a role that the session holds. -/
def Policy.IsFor (policy : Policy) (s : Session) : Prop :=
  policy.roles = none ∨ ∃ names, policy.roles = some names ∧ ∃ held ∈ s.roles, held.role ∈ names

theorem Policy.isFor_iff {policy : Policy} : policy.IsFor s ↔ policy.appliesTo s = true := by
  have hroles : ∀ n : String, n ∈ s.roleNames ↔ ∃ held ∈ s.roles, held.role = n := by
    intro n
    rw [Session.roleNames, SortedSet.mem_ofList, List.mem_map]
    rfl
  rw [IsFor, appliesTo_eq_true]
  cases policy.roles with
  | none =>
    refine ⟨fun _ names h => ?_, fun _ => .inl rfl⟩
    cases h
  | some names =>
    constructor
    · rintro (h | ⟨names', h, held, hheld, hrole⟩)
      · cases h
      · cases h
        intro names' h'
        cases h'
        exact ⟨held.role, hrole, (hroles _).2 ⟨held, hheld, rfl⟩⟩
    · intro h
      obtain ⟨role, hrole, hnames⟩ := h names rfl
      obtain ⟨held, hheld, rfl⟩ := (hroles role).1 hnames
      exact .inr ⟨names, rfl, held, hheld, hrole⟩

theorem Policy.grants_iff {policy : Policy} : policy.Grants s r a key o ↔
    (policy.permission r a key).holdsOn s o = true := by
  have hholds : ∀ p : Permission,
      (p = .allow ∨ ∃ c, p = .when c ∧ c.holds s (some o) = .ok true) ↔ p.holdsOn s o = true := by
    intro p
    simp only [Permission.holdsOn_eq_true, Condition.holds_some, Except.ok.injEq]
  simp only [Grants, hholds, ← ResourceGrants.holdsOn_lookup]
  rw [permission]
  cases policy.live.get? r.name with
  | none =>
    refine ⟨?_, nofun⟩
    rintro ⟨g, hg, _⟩
    cases hg
  | some g =>
    refine ⟨?_, fun h => ⟨g, rfl, h⟩⟩
    rintro ⟨g', hg, htrue⟩
    cases hg
    exact htrue

/-- What a policy says in decisions passes what its grants for decisions pass. -/
theorem Policy.passes_permission {policy : Policy} (h : policy.live.passes k = true) :
    (policy.permission r a key).passes k = true := by
  rw [permission]
  cases hg : policy.live.get? r.name with
  | none => rfl
  | some g => exact ResourceGrants.passes_lookup (GrantMap.passes_eq_true.1 h _ g hg) r a key

/-! ### Resolution -/

namespace Executor

/-- The action can be done at all: computed data can only be read. -/
def Doable (r : Resource) (a : Action) (key : Option String) : Prop :=
  a = .read ∨ r.calculated = false ∧ ∀ name, key = some name → name ∉ r.calculatedProps

/-- The action is granted: it can be done, and some policy for the session grants it. -/
def Granted (ps : List Policy) (s : Session) (r : Resource) (a : Action) (key : Option String)
    (o : Record) : Prop :=
  Doable r a key ∧ ∃ p ∈ ps, p.IsFor s ∧ p.Grants s r a key o

theorem doable_iff : Doable r a key ↔ (r.isCalculated key && a != .read) = false := by
  have hkey : (∀ name, key = some name → name ∉ r.calculatedProps) ↔
      key.any r.calculatedProps.contains = false := by
    cases key with
    | none => simp
    | some name => simp [← SortedSet.contains_eq_true]
  rw [Doable, hkey, Resource.isCalculated, Bool.and_eq_false_iff, Bool.or_eq_false_iff, or_comm]
  simp

/-- Merging what policies say allows what one for the session grants. -/
theorem holdsOn_merged {ps : List Policy} :
    (merged ps s r a key).holdsOn s o = true ↔ ∃ p ∈ ps, p.IsFor s ∧ p.Grants s r a key o := by
  rw [merged, Permission.holdsOn_mergeAcross, List.any_map, List.any_eq_true]
  simp only [List.mem_filter, Policy.isFor_iff, Policy.grants_iff, and_assoc, Function.comp]

theorem passes_merged {ps : List Policy} (h : ∀ p ∈ ps, (p.permission r a key).passes k = true) :
    (merged ps s r a key).passes k = true := by
  refine Permission.passes_mergeAcross fun p hp => ?_
  obtain ⟨policy, hpolicy, rfl⟩ := List.mem_map.1 hp
  exact h policy (List.mem_of_mem_filter hpolicy)

/-- What is answered without optimizing: nothing that cannot be done is allowed. -/
def unoptimized (ps : List Policy) (s : Session) (r : Resource) (a : Action)
    (key : Option String) : Permission :=
  if r.isCalculated key && a != .read then .deny else merged ps s r a key

theorem holdsOn_unoptimized {ps : List Policy} :
    (unoptimized ps s r a key).holdsOn s o = true ↔ Granted ps s r a key o := by
  rw [Granted, doable_iff, unoptimized]
  split
  · rename_i hcalculated
    refine ⟨nofun, fun h => ?_⟩
    rw [hcalculated] at h
    cases h.1
  · rename_i hcalculated
    rw [holdsOn_merged, and_iff_right (Bool.eq_false_iff.2 hcalculated)]

theorem passes_unoptimized {ps : List Policy}
    (h : ∀ p ∈ ps, (p.permission r a key).passes k = true) :
    (unoptimized ps s r a key).passes k = true := by
  rw [unoptimized]
  split
  · rfl
  · exact passes_merged h

variable {x : Executor} {ps : List Policy} {resource : String}

/-- What is answered, whether it allows the action, and which checks it passes. -/
theorem exists_answer (hps : x.policies = some ps) (hr : x.catalogue.get? resource = some r)
    (s : Session) (a : Action) (key : Option String) (optimized : Bool)
    (hplain : optimized = true → ∀ p ∈ ps, p.live.passes .plain = true) :
    ∃ p, x.answer s a resource key optimized = .ok p ∧
      (∀ o, p.holdsOn s o = true ↔ Granted ps s r a key o) ∧
      ∀ k, (∀ p ∈ ps, (p.permission r a key).passes k = true) → p.passes k = true := by
  refine ⟨_, answer_of_compiled hps hr, ?_⟩
  -- Optimizing keeps what is allowed, and the checks that are passed, if names are plain.
  cases optimized with
  | false => exact ⟨fun o => holdsOn_unoptimized, fun k hk => passes_unoptimized hk⟩
  | true =>
    have hpasses : (unoptimized ps s r a key).passes .plain = true :=
      passes_unoptimized fun p hp => Policy.passes_permission (hplain rfl p hp)
    refine ⟨fun o => ?_, fun k hk => ?_⟩
    · exact (Bool.eq_iff_iff.1 (Permission.holdsOn_optimizePermission x.optimizer hpasses)).trans
        holdsOn_unoptimized
    · exact Permission.passes_optimizePermission x.optimizer hpasses (passes_unoptimized hk)

end Executor

namespace Engine

variable {e : Engine} {ps : List Policy} {resource : String}

/-- With policies, an engine resolves any action on a resource that there is. What it answers
    is yes if the action is granted, and no if it is not. -/
theorem decides (hps : e.executor.policies = some ps)
    (hr : e.executor.catalogue.get? resource = some r) (s : Session) (a : Action)
    (key : Option String) (optimized : Bool)
    (hplain : optimized = true → ∀ p ∈ ps, p.live.passes .plain = true) (o : Record) :
    ∃ p, (e.run (resolveAnew s a resource key optimized)).1 = .ok p ∧
      (Executor.Granted ps s r a key o → p.holds s (some o) = .ok true) ∧
      (¬Executor.Granted ps s r a key o → p.holds s (some o) = .ok false) := by
  obtain ⟨p, hanswer, hgranted, _⟩ := Executor.exists_answer hps hr s a key optimized hplain
  obtain ⟨ws, hrun⟩ := run_resolveAnew e s a resource key optimized
  refine ⟨p, by rw [hrun, hanswer], fun h => ?_, fun h => ?_⟩
  · rw [Permission.holds_some, (hgranted o).2 h]
  · rw [Permission.holds_some, Bool.eq_false_iff.2 fun htrue => h ((hgranted o).1 htrue)]

/-! ### Drafts -/

/-- Notes have titles. -/
def note : Resource := (Resource.ofName "Note").withProps ["title"]

/-- A catalogue of notes. -/
def notes : Catalogue := ⟨.ofList [("Note", note)], rfl⟩

/-- Authors may read their notes, and edit drafts. -/
def authorsOnly : Declaration :=
  .ofScripts "authors" (some (.ofList ["author"]))
    [.resource "Note"
      [.when (.owner "author"), .grant [.read],
        .when (.all [.owner "author", .field "state" (.value (.string "draft"))]),
        .grant [.edit]]]

/-- The policies on notes. -/
def notePolicies : List Policy := (notes.compile [authorsOnly]).toOption.getD []

/-- An engine for notes. -/
def noteEngine : Engine := ((ofSettings notes .usual).run (compile [authorsOnly])).2

/-- A session of an author. -/
def author : Session := (Session.ofUser ⟨7⟩).withRoles ["author"]

/-- A draft of the author. -/
def draft : Record :=
  { Record.blank with
    fields := .ofList [("author", .string (Uuid.mk 7).text), ("state", .string "draft")] }

/-- The title of the author's draft can be edited. -/
theorem decides_draft :
    noteEngine.executor.policies = some notePolicies ∧
      noteEngine.executor.catalogue.get? "Note" = some note ∧
      (∀ p ∈ notePolicies, p.live.passes .plain = true) ∧
      Executor.Granted notePolicies author note .edit (some "title") draft ∧
      ∃ p, (noteEngine.run (resolveAnew author .edit "Note" (some "title") true)).1 = .ok p ∧
        p.holds author (some draft) = .ok true := by
  have hplain : ∀ p ∈ notePolicies, p.live.passes .plain = true := List.all_eq_true.1 rfl
  have hgranted : Executor.Granted notePolicies author note .edit (some "title") draft := by
    rw [Executor.Granted, Executor.doable_iff, ← Executor.holdsOn_merged]
    exact ⟨rfl, rfl⟩
  have hps : noteEngine.executor.policies = some notePolicies := rfl
  have hnote : noteEngine.executor.catalogue.get? "Note" = some note := rfl
  obtain ⟨p, hp, hyes, _⟩ := decides hps hnote author .edit (some "title") true
    (fun _ => hplain) draft
  exact ⟨hps, hnote, hplain, hgranted, p, hp, hyes hgranted⟩

end Engine

end Authorization
