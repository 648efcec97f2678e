import Authorization.Proofs.Grant.Writing
import Authorization.Proofs.Policy.Defaults
import Authorization.Proofs.Resolution.Decision

/-!
# Decisions in the application and in the database

Decisions are made twice: by the application, and by the database, where nothing
is known of the session beforehand. The grants are derived in different ways.
For decisions, interfaces follow their implementations, and memberships are
bound to the roles of the policy. In the database, what is said of a resource
may stand at one of its interfaces, and the roles become a condition
(`holdsOn_forRoles`).

Along chains of interfaces both come to the same, but for the roles of
memberships, which the database does not ask for:

* `Executor.database_agrees`: what is allowed is allowed in the database, and
  the other way round where the roles of a membership are not known.
-/

namespace Authorization

variable {s : Session} {o : Record} {r : Resource} {a : Action}

/-- A permission for some roles is one that the session needs a role for. -/
theorem holdsOn_forRoles (roles : Option NameSet) (p : Permission) :
    (forRoles roles p).holdsOn s o = (roles.all s.hasAnyRole && p.holdsOn s o) := by
  cases roles with
  | none =>
    rw [Option.all_none, Bool.true_and]
    rfl
  | some names =>
    rw [Option.all_some]
    cases p with
    | allow => exact (Bool.and_true _).symm
    | deny => exact (Bool.and_false _).symm
    | when c =>
      refine (Condition.holdsOn_all [.role names, c]).trans ?_
      rw [List.all_cons, List.all_cons, List.all_nil, Bool.and_true]
      rfl

theorem Permission.passes_forRoles {k : Check} {roles : Option NameSet} {p : Permission}
    (hroles : roles.all k.names = true) (hp : p.passes k = true) :
    (forRoles roles p).passes k = true := by
  cases roles with
  | none => exact hp
  | some names =>
    cases p with
    | allow => exact hroles
    | deny => rfl
    | when c =>
      exact Condition.passes_all (List.forall_mem_cons.2 ⟨hroles, List.forall_mem_singleton.2 hp⟩)

/-- What may be said allows the same if it has the same id. -/
theorem holdsOn_getD_of_ids {x y : Option Permission}
    (hx : ∀ p, x = some p → p.passes .plain = true) (hy : ∀ p, y = some p → p.passes .plain = true)
    (h : x.map (·.id) = y.map (·.id)) :
    (x.getD .deny).holdsOn s o = (y.getD .deny).holdsOn s o := by
  cases x with
  | none =>
    rw [Option.map_none, eq_comm, Option.map_eq_none_iff] at h
    rw [h]
  | some p =>
    obtain ⟨q, rfl, hid⟩ := Option.map_eq_some_iff.1 h.symm
    exact Permission.holdsOn_eq_of_id_eq (hx p rfl) (hy q rfl) hid.symm

namespace Policy

variable {p : Policy} {c : Catalogue} {d : Declaration} {raw : GrantMap}

/-- What a policy says in decisions on a resource without implementations: what was written of
    it, or of its nearest interface, with memberships bound. -/
theorem IsCompiled.permission_eq (h : p.IsCompiled c d raw) (hc : c.Keyed) (hchain : c.Chain r)
    (hr : c.get? r.name = some r) (hleaf : c.isInterface r.name = false) :
    p.permission r a none =
      ((Catalogue.onObject? ((c.withDefaultImplementations raw).get? r.name) a).getD .deny).map
        (.bind d.roles) := by
  have hobject := @Catalogue.object_withDefaultRelations c
    (c.withDefaultImplementations (c.withDefaultInterfaces raw)) r.name
  rw [Catalogue.get?_withDefaults hc hchain hr hleaf] at hobject
  rw [permission, h.live, Catalogue.liveGrants, SortedMap.get?_mapValues, Catalogue.onObject?]
  cases hown : (c.withDefaultImplementations raw).get? r.name with
  | none =>
    rw [hown, Option.map_none, Option.map_eq_none_iff] at hobject
    rw [hobject]
    rfl
  | some g =>
    rw [hown, Option.map_some] at hobject
    obtain ⟨g', hg', hobject⟩ := Option.map_eq_some_iff.1 hobject
    -- Without a key, only what is said of objects is looked up.
    have hlookup : (g'.bind d.roles).lookup r a none =
        ((g'.object.get? a).map fun q => q.map (.bind d.roles)).getD .deny := by
      rw [ResourceGrants.lookup, ResourceGrants.bind, ResourceGrants.mapPermissions,
        Decisions.mapPermissions, SortedMap.get?_mapValues]
      rfl
    rw [hg', Option.map_some, Option.map_some, Option.getD_some, hlookup, hobject, Option.bind_some]
    cases g.object.get? a <;> rfl

/-- What a policy says in the database allows what was written, to sessions with its roles. -/
theorem IsCompiled.holdsOn_databasePermission (h : p.IsCompiled c d raw) (hc : c.Keyed)
    (hcomputed : c.ComputedBelow) (hplain : d.passes .plain c = true) (hchain : c.Chain r)
    (hr : c.get? r.name = some r) (ha : a ∈ Catalogue.databaseActions)
    (hread : r.calculated = true → a = .read) :
    (p.databasePermission r a).holdsOn s o = (p.appliesTo s &&
      ((Catalogue.onObject? ((c.withDefaultImplementations raw).get? r.name) a).getD
        .deny).holdsOn s o) := by
  have hraw : raw.passes .plain = true := Declaration.passes_rawGrants hplain h.written
  have hsaid : ((p.databaseGrants? r).map (·.lookup r a none)).getD .deny =
      (Catalogue.onObject? (Catalogue.said? (c.databaseGrants raw) r) a).getD .deny := by
    rw [← h.database]
    show ((Catalogue.said? p.database r).map (·.lookup r a none)).getD .deny = _
    cases Catalogue.said? p.database r <;> rfl
  rw [databasePermission, holdsOn_forRoles, hsaid]
  -- The grants that stand for the resource have the ids of its own, and all names are plain.
  refine congrArg (p.appliesTo s && ·) ?_
  refine holdsOn_getD_of_ids ?_ ?_
    (Catalogue.entryId?_databaseGrants hc hcomputed hchain hr ha hread)
  · intro q hq
    obtain ⟨g, hg, hq⟩ := Option.bind_eq_some_iff.1 hq
    have hpass := Catalogue.passes_said? (Catalogue.passes_databaseGrants hraw) hg
    exact Decisions.passes_eq_true.1 (ResourceGrants.passes_eq_true.1 hpass).1 a q hq
  · intro q hq
    obtain ⟨g, hg, hq⟩ := Option.bind_eq_some_iff.1 hq
    have hpass := GrantMap.passes_eq_true.1
      (Catalogue.passes_withDefaultImplementations (c := c) hraw) r.name g hg
    exact Decisions.passes_eq_true.1 (ResourceGrants.passes_eq_true.1 hpass).1 a q hq

/-- What a policy says in the database passes the checks that its declaration passes. -/
theorem IsCompiled.passes_databasePermission {k : Check} (h : p.IsCompiled c d raw)
    (hd : d.passes k c = true) (r : Resource) (a : Action) :
    (p.databasePermission r a).passes k = true := by
  have hdatabase : p.database.passes k = true := by
    rw [h.database]
    exact Catalogue.passes_databaseGrants (Declaration.passes_rawGrants hd h.written)
  rw [databasePermission, h.roles]
  refine Permission.passes_forRoles (Bool.and_eq_true _ _ ▸ hd).1 ?_
  cases hg : p.databaseGrants? r with
  | none => rfl
  | some g => exact ResourceGrants.passes_lookup (Catalogue.passes_said? hdatabase hg) r a none

end Policy

namespace Executor

variable {c : Catalogue} {x : Executor} {settings : Settings} {ds : List Declaration}

theorem compile_ofSettings {ps : List Policy} (h : c.compile ds = .ok ps) :
    (ofSettings c settings).compile ds = .ok ⟨c, settings.optimizer, some ps⟩ := by
  rw [compile, ofSettings, h]
  rfl

theorem exists_policies_of_compile (h : (ofSettings c settings).compile ds = .ok x) :
    ∃ ps, c.compile ds = .ok ps ∧ x.catalogue = c ∧ x.policies = some ps := by
  obtain ⟨ps, hps, h⟩ := exists_of_bind_eq_ok h
  cases h
  exact ⟨ps, hps, rfl, rfl⟩

variable {ps : List Policy} {resource : String}

/-- What can be done to the objects of a resource at all is left to the policies. -/
theorem resolve_of_doable (hps : x.policies = some ps) (hr : x.catalogue.get? r.name = some r)
    (hread : r.calculated = true → a = .read) (s : Session) :
    x.resolve s a r.name none = .ok (merged ps s r a none) := by
  have hdoable : (r.isCalculated none && a != .read) = false := by
    rw [Resource.isCalculated, Option.any_none, Bool.or_false]
    cases hcalculated : r.calculated with
    | false => rfl
    | true => rw [hread hcalculated, bne_self_eq_false, Bool.and_false]
  rw [resolve_of_compiled hps hr, hdoable, if_neg Bool.false_ne_true]

theorem resolveForDatabase_of_compiled (hps : x.policies = some ps)
    (hr : x.catalogue.get? resource = some r) :
    x.resolveForDatabase a resource =
      .ok (.mergeAcross (ps.map (·.databasePermission r a))) := by
  rw [resolveForDatabase, compiled, hps, Catalogue.get_eq_ok.2 hr]
  rfl

theorem resolveForDatabase_of_unknown (hps : x.policies = some ps)
    (hr : x.catalogue.get? resource = none) :
    x.resolveForDatabase a resource = .error (.unknownResource (.named resource)) := by
  rw [resolveForDatabase, compiled, hps, Catalogue.get, hr]
  rfl

/-- In a decision, one of the policies for the session has to allow. -/
theorem holdsOn_merged_iff : (merged ps s r a none).holdsOn s o = true ↔
    ∃ p ∈ ps, p.appliesTo s = true ∧ (p.permission r a none).holdsOn s o = true := by
  simp only [holdsOn_merged, Policy.isFor_iff, Policy.grants_iff]

/-- In the database, one of the policies has to allow. -/
theorem holdsOn_mergedForDatabase_iff :
    (Permission.mergeAcross (ps.map (·.databasePermission r a))).holdsOn s o = true ↔
      ∃ p ∈ ps, (p.databasePermission r a).holdsOn s o = true := by
  rw [Permission.holdsOn_mergeAcross, List.any_map, List.any_eq_true]
  rfl

/-- On a resource without implementations, what is allowed by a decision on reading, creating or
    deleting is allowed in the database. Where the roles of a membership are not known, both
    decisions are the same. -/
theorem database_agrees {rs : List Resource} (hc : Catalogue.ofList rs = .ok c)
    (hchained : c.Chained) (hcomputed : c.ComputedBelow)
    (hx : (ofSettings c settings).compile ds = .ok x) (hplain : ∀ d ∈ ds, d.passes .plain c = true)
    (hr : c.get? r.name = some r) (hleaf : c.isInterface r.name = false)
    (ha : a ∈ Catalogue.databaseActions) (hread : r.calculated = true → a = .read) (s : Session)
    (o : Record) :
    ∃ live database, x.resolve s a r.name none = .ok live ∧
      x.resolveForDatabase a r.name = .ok database ∧
      (live.holds s (some o) = .ok true → database.holds s (some o) = .ok true) ∧
      (o.membershipRoles = none → live.holds s (some o) = database.holds s (some o)) := by
  obtain ⟨ps, hps, rfl, hpolicies⟩ := exists_policies_of_compile hx
  have hkeyed := Catalogue.keyed_ofList hc
  have hchain := hchained.chain (Catalogue.mem_toList_of_get? hr)
  -- Every policy says the same in both, but for the roles of memberships.
  have hpolicy : ∀ p ∈ ps, ∃ (q : Permission) (roles : Option NameSet),
      p.permission r a none = q.map (.bind roles) ∧
        (p.databasePermission r a).holdsOn s o = (p.appliesTo s && q.holdsOn s o) := by
    intro p hp
    obtain ⟨d, hd, raw, hcompiled⟩ := Catalogue.exists_of_mem_compile hps hp
    exact ⟨_, _, hcompiled.permission_eq hkeyed hchain hr hleaf,
      hcompiled.holdsOn_databasePermission hkeyed hcomputed (hplain d hd) hchain hr ha hread⟩
  refine ⟨_, _, resolve_of_doable hpolicies hr hread s, resolveForDatabase_of_compiled hpolicies hr,
    ?_, fun hunknown => ?_⟩
  · rw [Permission.holds_some, Permission.holds_some, Except.ok.injEq, Except.ok.injEq,
      holdsOn_merged_iff, holdsOn_mergedForDatabase_iff]
    rintro ⟨p, hp, hrole, hallowed⟩
    obtain ⟨q, roles, hq, hsame⟩ := hpolicy p hp
    rw [hq] at hallowed
    exact ⟨p, hp, by rw [hsame, hrole, Permission.holdsOn_of_holdsOn_bind hallowed]; rfl⟩
  · rw [Permission.holds_some, Permission.holds_some, Except.ok.injEq, Bool.eq_iff_iff,
      holdsOn_merged_iff, holdsOn_mergedForDatabase_iff]
    refine exists_congr fun p => and_congr_right fun hp => ?_
    obtain ⟨q, roles, hq, hsame⟩ := hpolicy p hp
    rw [hq, hsame, Permission.holdsOn_bind_of_unknown hunknown, Bool.and_eq_true]

/-! ### Memos -/

/-- Documents of any sort. -/
def document : Resource := .ofName "Document"

/-- Memos are documents. -/
def memo : Resource := { Resource.ofName "Memo" with interfaces := ["Document"] }

/-- A catalogue of documents. -/
def documents : Catalogue := ⟨.ofList [("Document", document), ("Memo", memo)], rfl⟩

/-- Editors may read the documents that they are members of. -/
def editorsRead : Declaration :=
  .ofScripts "editors" (some (.ofList ["editor"]))
    [.resource "Document" [.when .membership, .grant [.read]]]

/-- What decides on documents. -/
def ofDocuments : Executor :=
  { ofSettings documents .usual with policies := (documents.compile [editorsRead]).toOption }

/-- A session of an editor. -/
def editor : Session := (Session.ofUser ⟨5⟩).withRoles ["editor"]

/-- A document that the session is a member of, in whatever role. -/
def joined : Record := { Record.blank with member := true }

theorem chained_documents : documents.Chained := by
  intro r hr
  rcases List.mem_pair.1 hr with rfl | rfl
  · exact .inl rfl
  · exact .inr ⟨document, rfl, rfl⟩

theorem computedBelow_documents : documents.ComputedBelow := by
  intro r hr name hname i hi hcalculated
  rcases List.mem_pair.1 hr with rfl | rfl
  · exact absurd hname List.not_mem_nil
  · cases List.mem_singleton.1 hname
    cases hi
    cases hcalculated

/-- An editor reads a memo in the database, as in a decision: memos are left to documents there. -/
theorem database_agrees_memo : ofDocuments.declaredForDatabase "Memo" = .ok false ∧
    ∃ database, ofDocuments.resolveForDatabase .read "Memo" = .ok database ∧
      database.holds editor (some joined) = .ok true := by
  have hplain : ∀ d ∈ [editorsRead], d.passes .plain documents = true :=
    List.forall_mem_singleton.2 (Declaration.passes_ofScripts rfl rfl)
  have hcompiled : (ofSettings documents .usual).compile [editorsRead] = .ok ofDocuments := rfl
  have hofList : Catalogue.ofList [document, memo] = .ok documents := rfl
  obtain ⟨live, database, hlive, hdatabase, _, hsame⟩ := database_agrees hofList
    chained_documents computedBelow_documents hcompiled hplain (r := memo) rfl rfl
    (a := .read) (by decide) (fun _ => rfl) editor joined
  have hallowed : (ofDocuments.resolve editor .read "Memo" none).bind
      (·.holds editor (some joined)) = .ok true := rfl
  refine ⟨rfl, database, hdatabase, ?_⟩
  rw [← hsame rfl]
  rw [show ofDocuments.resolve editor .read "Memo" none = .ok live from hlive] at hallowed
  exact hallowed

end Executor

end Authorization
