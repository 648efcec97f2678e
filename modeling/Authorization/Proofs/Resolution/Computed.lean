import Authorization.Proofs.Policy.Redundancy
import Authorization.Proofs.Resolution.Database

/-!
# Computed data

What is computed can only be read. A decision denies anything else before it
asks the policies. In the database, grants on a computed resource are cut down
to reading (`withoutComputedWrites`), but a resource that has none, or whose
grants were left to an interface, is under the grants of its nearest interface
there. These are cut down only if the interface is computed as well.

* `Executor.computed_only_read`: a decision denies whatever is not reading, and
  so does the database, unless a policy leaves the resource to an interface on
  which it grants the action (`Policy.LeavesOpen`); that can only be an
  interface that is not computed.

Otherwise computed data can be written in the database
(`Executor.summary_created`).
-/

namespace Authorization

variable {c : Catalogue} {raw : GrantMap} {r i : Resource} {g : ResourceGrants} {a : Action}

/-! ### Denials -/

/-- What is asked for roles is denied if it was denied before. -/
theorem isDeny_forRoles (roles : Option NameSet) (p : Permission) :
    (forRoles roles p).isDeny = p.isDeny := by
  cases roles with
  | none => rfl
  | some names => cases p <;> rfl

/-- Policies together deny what each of them denies. -/
theorem Permission.isDeny_mergeAcross (ps : List Permission) :
    (mergeAcross ps).isDeny = ps.all isDeny := by
  induction ps with
  | nil => rfl
  | cons p ps ih =>
    rw [List.all_cons, ← ih]
    cases p with
    | allow => rfl
    | deny => rfl
    | when c =>
      -- There is a condition, whatever the others say.
      refine Eq.trans ?_ (Bool.false_and _).symm
      rw [mergeAcross]
      split
      · rfl
      · rfl

/-- Grants on reading alone say nothing else about objects. -/
theorem ResourceGrants.lookup_readOnly (g : ResourceGrants) (r : Resource) (hread : a ≠ .read) :
    g.readOnly.lookup r a none = .deny := by
  have hnone : g.readOnly.object.get? a = none := by
    rw [readOnly, SortedMap.get?_filter, Option.filter_eq_none_iff]
    exact fun _ _ heq => hread (beq_iff_eq.1 heq)
  rw [lookup, hnone]
  rfl

/-! ### The database -/

/-- What grants on a computed resource there are in the database, deny whatever is not reading. -/
theorem Catalogue.lookup_databaseGrants_of_computed (hi : c.get? i.name = some i)
    (hcomputed : i.calculated = true) (hg : (c.databaseGrants raw).get? i.name = some g)
    (hread : a ≠ .read) (r : Resource) : g.lookup r a none = .deny := by
  rw [get?_databaseGrants hi, hcomputed] at hg
  obtain ⟨own, _, rfl⟩ := Option.map_eq_some_iff.1 hg
  exact own.lookup_readOnly r hread

namespace Policy

variable {p : Policy}

/-- A policy leaves a resource to an interface on which it grants the action: it has no grants
    for the resource in the database, and the nearest interface that it has grants for does not
    deny the action. -/
def LeavesOpen (p : Policy) (r : Resource) (a : Action) : Prop :=
  p.database.get? r.name = none ∧
    ∃ g, Catalogue.nearest? p.database r = some g ∧ g.lookup r a none ≠ .deny

/-- A policy that is asked in the database about writing what is computed denies it, unless it
    leaves it open. -/
theorem databasePermission_eq_deny_iff {d : Declaration} (h : p.IsCompiled c d raw)
    (hr : c.get? r.name = some r) (hcomputed : r.calculated = true) (hread : a ≠ .read) :
    p.databasePermission r a = .deny ↔ ¬p.LeavesOpen r a := by
  rw [← Permission.isDeny_eq_true, databasePermission, isDeny_forRoles, Permission.isDeny_eq_true,
    databaseGrants?, LeavesOpen]
  cases hown : p.database.get? r.name with
  | some g =>
    rw [h.database] at hown
    refine iff_of_true (Catalogue.lookup_databaseGrants_of_computed hr hcomputed hown hread r) ?_
    rintro ⟨hnone, _⟩
    cases hnone
  | none =>
    rw [Option.none_or]
    cases Catalogue.nearest? p.database r with
    | none =>
      refine iff_of_true rfl ?_
      rintro ⟨_, g, hg, _⟩
      cases hg
    | some g =>
      constructor
      · rintro hdeny ⟨_, g', hg', hne⟩
        cases hg'
        exact hne hdeny
      · intro hclosed
        by_contra hne
        exact hclosed ⟨rfl, g, rfl, hne⟩

/-- Nothing is left open by computed interfaces. -/
theorem not_leavesOpen {d : Declaration} (h : p.IsCompiled c d raw) (hc : c.Keyed)
    (hr : r ∈ c.toList) (habove : ∀ i ∈ c.toList, i.name ∈ r.interfaces → i.calculated = true)
    (hread : a ≠ .read) : ¬p.LeavesOpen r a := by
  rintro ⟨_, g, hg, hne⟩
  obtain ⟨name, hname, hsaid⟩ := List.exists_of_findSome?_eq_some hg
  obtain ⟨i, hi⟩ := Catalogue.exists_get?_of_mem_interfaces hr hname
  obtain rfl := hc name i hi
  rw [h.database] at hsaid
  exact hne (Catalogue.lookup_databaseGrants_of_computed hi
    (habove i (Catalogue.mem_toList_of_get? hi) hname) hsaid hread r)

end Policy

namespace Executor

variable {x : Executor} {settings : Settings} {ds : List Declaration} {ps : List Policy}
  {resource : String}

/-- A decision denies whatever is not reading what is computed. -/
theorem resolve_of_computed (hps : x.policies = some ps) (hr : x.catalogue.get? resource = some r)
    (hcomputed : r.calculated = true) (hread : a ≠ .read) (s : Session) (key : Option String) :
    x.resolve s a resource key = .ok .deny := by
  rw [resolve_of_compiled hps hr, Resource.isCalculated, hcomputed, Bool.true_or, Bool.true_and,
    if_pos (bne_iff_ne.2 hread)]

/-- What is computed can only be read: anything else is denied in every decision, and denied in
    the database unless one of the policies leaves it open at an interface, which cannot be
    if all interfaces are computed too. -/
theorem computed_only_read {rs : List Resource} (hc : Catalogue.ofList rs = .ok c)
    (hx : (ofSettings c settings).compile ds = .ok x) (hps : x.policies = some ps)
    (hr : c.get? resource = some r) (hcomputed : r.calculated = true) (hread : a ≠ .read) :
    (∀ s key, x.resolve s a resource key = .ok .deny) ∧
      (x.resolveForDatabase a resource = .ok .deny ↔ ∀ p ∈ ps, ¬p.LeavesOpen r a) ∧
      ((∀ i ∈ c.toList, i.name ∈ r.interfaces → i.calculated = true) →
        x.resolveForDatabase a resource = .ok .deny) := by
  obtain ⟨ps', hcompiled, rfl, hps'⟩ := exists_policies_of_compile hx
  cases hps.symm.trans hps'
  have hkeyed := Catalogue.keyed_ofList hc
  obtain rfl := hkeyed resource r hr
  -- Policies deny it one by one.
  have hdatabase : x.resolveForDatabase a r.name = .ok .deny ↔ ∀ p ∈ ps, ¬p.LeavesOpen r a := by
    rw [resolveForDatabase_of_compiled hps hr, Except.ok.injEq, ← Permission.isDeny_eq_true,
      Permission.isDeny_mergeAcross, List.all_map, List.all_eq_true]
    refine forall₂_congr fun p hp => ?_
    obtain ⟨d, _, raw, hp⟩ := Catalogue.exists_of_mem_compile hcompiled hp
    rw [Function.comp, Permission.isDeny_eq_true]
    exact Policy.databasePermission_eq_deny_iff hp hr hcomputed hread
  refine ⟨resolve_of_computed hps hr hcomputed hread, hdatabase, fun habove => ?_⟩
  refine hdatabase.2 fun p hp => ?_
  obtain ⟨d, _, raw, hp⟩ := Catalogue.exists_of_mem_compile hcompiled hp
  exact Policy.not_leavesOpen hp hkeyed (Catalogue.mem_toList_of_get? hr) habove hread

/-! ### Summaries -/

/-- Reports. -/
def report : Resource := .ofName "Report"

/-- Figures are computed. -/
def figures : Resource := { Resource.ofName "Figures" with calculated := true }

/-- Summaries of reports are computed. -/
def summary : Resource :=
  { Resource.ofName "Summary" with calculated := true, interfaces := ["Report"] }

/-- Totals are figures, and computed as well. -/
def totals : Resource :=
  { Resource.ofName "Totals" with calculated := true, interfaces := ["Figures"] }

/-- A catalogue of reports, with what is computed from them. -/
def reports : Catalogue :=
  ⟨.ofList [("Report", report), ("Figures", figures), ("Summary", summary), ("Totals", totals)],
    rfl⟩

/-- Writers may read and create reports, and figures. -/
def writers : Declaration :=
  .ofScripts "writers" (some (.ofList ["writer"]))
    [.resource "Report" [.grant [.read, .create]], .resource "Figures" [.grant [.read, .create]]]

/-- The policies on reports. -/
def reportPolicies : List Policy := (reports.compile [writers]).toOption.getD []

/-- What decides on reports. -/
def ofReports : Executor :=
  { ofSettings reports .usual with policies := some reportPolicies }

/-- Totals are created nowhere, whatever is granted on figures. -/
theorem computed_totals : (ofSettings reports .usual).compile [writers] = .ok ofReports ∧
    totals.calculated = true ∧ ofReports.resolveForDatabase .create "Totals" = .ok .deny := by
  have hc : Catalogue.ofList [report, figures, summary, totals] = .ok reports := rfl
  have hx : (ofSettings reports .usual).compile [writers] = .ok ofReports := rfl
  have habove : ∀ i ∈ reports.toList, i.name ∈ totals.interfaces → i.calculated = true := by decide
  exact ⟨hx, rfl, (computed_only_read hc hx rfl (r := totals) rfl rfl (by decide)).2.2 habove⟩

/-- Summaries are computed, but writers create them in the database: they are left to reports
    there. -/
theorem summary_created : Catalogue.ofList [report, figures, summary, totals] = .ok reports ∧
    (ofSettings reports .usual).compile [writers] = .ok ofReports ∧
    reports.get? "Summary" = some summary ∧ summary.calculated = true ∧
    ofReports.resolveForDatabase .create "Summary" = .ok (.when (.role (.ofList ["writer"]))) ∧
    ofReports.resolveForDatabase .create "Summary" ≠ .ok .deny := by
  refine ⟨rfl, rfl, rfl, rfl, rfl, ?_⟩
  rintro ⟨⟩

end Executor

end Authorization
