import Authorization.Proofs.Policy.Reordering
import Authorization.Proofs.Resolution.Monotonicity

/-!
# The order of declarations

Declarations can be made in any order, and so can the grants in each of them
(`Declaration.ReorderedIn`): what decides by them decides the same.

* `Executor.order_irrelevant`: they compile as well, to policies that are alike
  one by one, and all decisions, decisions of the database and powers are the
  same.
-/

namespace Authorization

variable {c : Catalogue} {s : Session} {o : Record} {r : Resource} {a : Action}
  {key : Option String} {ds ds' : List Declaration}

/-- Declarations are put in another order, and the grants in each of them. -/
def Declaration.ReorderedIn (c : Catalogue) (ds ds' : List Declaration) : Prop :=
  ∃ between, ds.Perm between ∧ between.Forall₂ (Declaration.Reordered c) ds'

namespace Declaration.ReorderedIn

theorem exists_right (h : ReorderedIn c ds ds') {d : Declaration} (hd : d ∈ ds) :
    ∃ d' ∈ ds', d.Reordered c d' := by
  obtain ⟨between, hperm, hall⟩ := h
  exact hall.exists_right (hperm.mem_iff.1 hd)

theorem exists_left (h : ReorderedIn c ds ds') {d' : Declaration} (hd' : d' ∈ ds') :
    ∃ d ∈ ds, d.Reordered c d' := by
  obtain ⟨between, hperm, hall⟩ := h
  obtain ⟨d, hd, hreordered⟩ := hall.exists_left hd'
  exact ⟨d, hperm.mem_iff.2 hd, hreordered⟩

theorem names_perm (h : ReorderedIn c ds ds') : (ds.map (·.name)).Perm (ds'.map (·.name)) := by
  obtain ⟨between, hperm, hall⟩ := h
  have hnames : between.map (·.name) = ds'.map (·.name) := by
    rw [← List.forall₂_eq_eq_eq, List.forall₂_map_left_iff, List.forall₂_map_right_iff]
    exact hall.imp fun _ _ hreordered => hreordered.name
  exact hnames ▸ hperm.map _

end Declaration.ReorderedIn

/-! ### Policies -/

theorem forRoles_alike (roles : Option NameSet) {p q : Permission} (h : p.Alike q) :
    (forRoles roles p).Alike (forRoles roles q) := by
  cases roles with
  | none => exact h
  | some names =>
    cases h with
    | allow => exact .refl _
    | deny => exact .deny
    | when hcd => exact .when (Condition.AlikeParts.cons (.refl _) (.cons hcd .nil)).all

namespace Policy.Alike

variable {p q : Policy}

theorem permission (h : p.Alike q) (r : Resource) (a : Action) (key : Option String) :
    (p.permission r a key).Alike (q.permission r a key) :=
  ((h.live r.name).map fun _ _ hgh => hgh.lookup r a key).getD .deny

theorem databasePermission (h : p.Alike q) (r : Resource) (a : Action) :
    (p.databasePermission r a).Alike (q.databasePermission r a) := by
  rw [Policy.databasePermission, Policy.databasePermission, h.roles]
  have hgrants : Option.Rel ResourceGrants.Alike (p.databaseGrants? r) (q.databaseGrants? r) :=
    (h.database r.name).or (Catalogue.alike_nearest? h.database r)
  exact forRoles_alike q.roles ((hgrants.map fun _ _ hgh => hgh.lookup r a none).getD .deny)

theorem grants_iff (h : p.Alike q) : p.Grants s r a key o ↔ q.Grants s r a key o := by
  rw [Policy.grants_iff, Policy.grants_iff, (h.permission r a key).holdsOn_eq s o]

theorem isFor_iff (h : p.Alike q) : p.IsFor s ↔ q.IsFor s := by rw [IsFor, IsFor, h.roles]

end Policy.Alike

/-- What is so of policies that are alike, is so of one of these if it is so of one of those. -/
theorem exists_mem_iff_of_alike {ps qs : List Policy} (hright : ∀ p ∈ ps, ∃ q ∈ qs, p.Alike q)
    (hleft : ∀ q ∈ qs, ∃ p ∈ ps, p.Alike q) {P : Policy → Prop}
    (hP : ∀ p q, p.Alike q → (P p ↔ P q)) : (∃ p ∈ ps, P p) ↔ ∃ q ∈ qs, P q := by
  constructor
  · rintro ⟨p, hp, h⟩
    obtain ⟨q, hq, halike⟩ := hright p hp
    exact ⟨q, hq, (hP p q halike).1 h⟩
  · rintro ⟨q, hq, h⟩
    obtain ⟨p, hp, halike⟩ := hleft q hq
    exact ⟨p, hp, (hP p q halike).2 h⟩

/-- Declarations in another order compile as well, to policies that are alike. -/
theorem Catalogue.exists_compile_of_reordered {ps : List Policy}
    (h : Declaration.ReorderedIn c ds ds') (hps : c.compile ds = .ok ps) :
    ∃ qs, c.compile ds' = .ok qs ∧ (∀ p ∈ ps, ∃ q ∈ qs, p.Alike q) ∧
      ∀ q ∈ qs, ∃ p ∈ ps, p.Alike q := by
  obtain ⟨hnames, hcompiled⟩ := compile_eq_ok_iff.1 hps
  -- Each declaration compiles to a policy that is alike to one of the others.
  have hpolicy : ∀ d' ∈ ds', ∃ q, c.compilePolicy d' = .ok q ∧ ∃ p ∈ ps, p.Alike q := by
    intro d' hd'
    obtain ⟨d, hd, hreordered⟩ := h.exists_left hd'
    obtain ⟨p, hp, hd⟩ := hcompiled.exists_right hd
    obtain ⟨q, hq, halike⟩ := hreordered.exists_policy hd
    exact ⟨q, hq, p, hp, halike⟩
  obtain ⟨qs, hqs⟩ := exists_compile (h.names_perm.nodup_iff.1 hnames) fun d' hd' =>
    (hpolicy d' hd').imp fun _ => And.left
  refine ⟨qs, hqs, fun p hp => ?_, fun q hq => ?_⟩
  · obtain ⟨d, hd, hp⟩ := (mem_of_compile hps).1 hp
    obtain ⟨d', hd', hreordered⟩ := h.exists_right hd
    obtain ⟨q, hq, halike⟩ := hreordered.exists_policy hp
    exact ⟨q, (mem_of_compile hqs).2 ⟨d', hd', hq⟩, halike⟩
  · obtain ⟨d', hd', hq⟩ := (mem_of_compile hqs).1 hq
    obtain ⟨q', hq', hp⟩ := hpolicy d' hd'
    cases hq'.symm.trans hq
    exact hp

namespace Executor

variable {settings : Settings} {x : Executor}

/-- What decides by declarations in another order, decides the same, in the application and in
    the database, and gives the same powers. -/
theorem order_irrelevant (hx : (ofSettings c settings).compile ds = .ok x)
    (hds : Declaration.ReorderedIn c ds ds') :
    ∃ x', (ofSettings c settings).compile ds' = .ok x' ∧
      (∀ s a resource key o, x'.decision s a resource key o = x.decision s a resource key o) ∧
      (∀ s a resource o, x'.databaseDecision s a resource o = x.databaseDecision s a resource o) ∧
      ∀ s, x'.powersFor s = x.powersFor s := by
  obtain ⟨ps, hps, hc, hpolicies⟩ := exists_policies_of_compile hx
  obtain ⟨qs, hqs, hright, hleft⟩ := Catalogue.exists_compile_of_reordered hds hps
  obtain ⟨x', hx', hc', hpolicies'⟩ : ∃ x', (ofSettings c settings).compile ds' = .ok x' ∧
      x'.catalogue = c ∧ x'.policies = some qs := ⟨_, compile_ofSettings hqs, rfl, rfl⟩
  have hany : ∀ P : Policy → Prop, (∀ p q, p.Alike q → (P p ↔ P q)) →
      ((∃ q ∈ qs, P q) ↔ ∃ p ∈ ps, P p) := fun P hP =>
    (exists_mem_iff_of_alike hright hleft hP).symm
  refine ⟨x', hx', fun s a resource key o => ?_, fun s a resource o => ?_, fun s => ?_⟩
  · cases hr : c.get? resource with
    | none =>
      rw [decision_of_unknown hpolicies (hc ▸ hr), decision_of_unknown hpolicies' (hc' ▸ hr)]
    | some r =>
      rw [decision_of_compiled hpolicies (hc ▸ hr), decision_of_compiled hpolicies' (hc' ▸ hr),
        Except.ok.injEq, Bool.eq_iff_iff, holdsOn_unoptimized, holdsOn_unoptimized]
      exact and_congr_right fun _ => hany _ fun p q halike =>
        and_congr halike.isFor_iff halike.grants_iff
  · cases hr : c.get? resource with
    | none =>
      rw [databaseDecision_of_unknown hpolicies (hc ▸ hr),
        databaseDecision_of_unknown hpolicies' (hc' ▸ hr)]
    | some r =>
      rw [databaseDecision_of_compiled hpolicies (hc ▸ hr),
        databaseDecision_of_compiled hpolicies' (hc' ▸ hr), Except.ok.injEq, Bool.eq_iff_iff,
        holdsOn_mergedForDatabase_iff, holdsOn_mergedForDatabase_iff]
      exact hany _ fun p q halike => by rw [(halike.databasePermission r a).holdsOn_eq s o]
  · obtain ⟨powers, hpowers, hiff⟩ := exists_powers hpolicies s
    obtain ⟨powers', hpowers', hiff'⟩ := exists_powers hpolicies' s
    rw [hpowers, hpowers', Except.ok.injEq]
    refine SortedSet.ext fun power => ?_
    rw [hiff, hiff']
    exact hany _ fun p q halike => by
      rw [Policy.appliesTo, Policy.appliesTo, halike.roles, halike.powers]

/-! ### Clerks -/

/-- Clerks may read open tickets, and those of their own. -/
def clerkScripts : List Script :=
  [.resource "Ticket" [.when (.field "state" (.value (.string "open"))), .grant [.read]],
    .resource "Ticket" [.when (.owner "author"), .grant [.read], .or, .grant [.create]]]

/-- What clerks may do. -/
def clerks : Declaration := .ofScripts "clerks" (some (.ofList ["clerk"])) clerkScripts

/-- The same, with what is their own first. -/
def clerks' : Declaration := .ofScripts "clerks" (some (.ofList ["clerk"])) clerkScripts.reverse

/-- Clerks and auditors can be declared in any order. -/
theorem reorderedIn_clerks :
    Declaration.ReorderedIn tickets [auditors, clerks] [clerks', auditors] := by
  have hclerks : clerks.Reordered tickets clerks' :=
    Declaration.reordered_of_perm _ _ (List.reverse_perm _).symm rfl
  have hauditors : auditors.Reordered tickets auditors :=
    Declaration.reordered_of_perm _ _ (.refl _) rfl
  exact ⟨[clerks, auditors], .swap _ _ _, .cons hclerks (.cons hauditors .nil)⟩

/-- Clerks read open tickets and create some, in whatever order that was declared. -/
theorem decision_clerks :
    (ofTickets [clerks', auditors]).decision (inRoles ["clerk"]) .read "Ticket" none ownTicket =
      .ok true ∧
    (ofTickets [clerks', auditors]).databaseDecision (inRoles ["clerk"]) .read "Ticket" ownTicket =
      .ok true ∧
    (ofTickets [clerks', auditors]).powersFor (inRoles ["clerk"]) = .ok (.ofList [⟨"Ticket"⟩]) := by
  have hx : (ofSettings tickets .usual).compile [auditors, clerks] =
      .ok (ofTickets [auditors, clerks]) := rfl
  have hx' : (ofSettings tickets .usual).compile [clerks', auditors] =
      .ok (ofTickets [clerks', auditors]) := rfl
  obtain ⟨x', hreordered, hdecision, hdatabase, hpowers⟩ := order_irrelevant hx reorderedIn_clerks
  cases hx'.symm.trans hreordered
  refine ⟨(hdecision _ _ _ _ _).trans rfl, (hdatabase _ _ _ _).trans rfl, (hpowers _).trans rfl⟩

end Executor

end Authorization
