import Authorization.Proofs.Policy.Compilation
import Authorization.Proofs.Policy.Permissions

/-!
# What is written

A declaration comes to what its grants give, by resource and action. Whatever is
true of all permissions in the grants, and kept by merging, is true of what they
come to (`Declaration.of_gives_rawGrants`).

Scripts write step by step. What they grant is granted without condition, or
under one that was staged, for variants under both: this holds of what was written
so far after each step (`Granter.Within`), and of all grants in the end
(`Script.forall_allGrants`). So scripts deny nothing (`Declaration.ne_deny_of_gives`),
and what they write passes the checks that they pass (`Declaration.passes_ofScripts`).
-/

namespace Authorization

variable {P : Permission → Prop} {S : Condition → Prop} {k : Check}

/-! ### Permissions in grants -/

/-- Something is true of all permissions under keys. -/
def EntriesAll (P : Permission → Prop) (m : NameMap Entries) : Prop :=
  ∀ key es, m.get? key = some es → ∀ e ∈ es, P e.2

namespace EntriesAll

variable {m n : NameMap Entries} {key : String} {es : Entries}

theorem empty : EntriesAll P ∅ := by
  intro key es h
  cases h

theorem addEntries (h : EntriesAll P m) (hes : ∀ e ∈ es, P e.2) :
    EntriesAll P (addEntries m key es) := by
  intro key' es' hfound e he
  rw [Authorization.addEntries, SortedMap.get?_update] at hfound
  split at hfound
  · cases hfound
    rcases List.mem_append.1 he with he | he
    · cases hold : m.get? key with
      | none =>
        rw [hold] at he
        exact absurd he List.not_mem_nil
      | some old =>
        rw [hold] at he
        exact h key old hold e he
    · exact hes e he
  · exact h key' es' hfound e he

theorem joinEntries (hm : EntriesAll P m) (hn : EntriesAll P n) :
    EntriesAll P (joinEntries m n) := by
  refine List.foldlRecOn (motive := EntriesAll P) n.toList _ hm ?_
  intro m hm e he
  exact hm.addEntries (hn e.1 e.2 (SortedMap.get?_eq_some_iff.2 he))

end EntriesAll

/-- Something is true of all permissions of a grant. -/
structure Grant.All (P : Permission → Prop) (g : Grant) : Prop where
  /-- Of those on objects. -/
  object : ∀ e ∈ g.object, P e.2
  /-- Of those on properties. -/
  props : EntriesAll P g.props
  /-- Of those on relations. -/
  relations : EntriesAll P g.relations

namespace Grant

theorem all_empty (resource : String) : (empty resource).All P :=
  ⟨fun _ he => absurd he List.not_mem_nil, .empty, .empty⟩

theorem All.join {g h : Grant} (hg : g.All P) (hh : h.All P) : (g.join h).All P where
  object e he := (List.mem_append.1 he).elim (hg.object e) (hh.object e)
  props := hg.props.joinEntries hh.props
  relations := hg.relations.joinEntries hh.relations

theorem All.mono {Q : Permission → Prop} {g : Grant} (h : g.All P) (hPQ : ∀ p, P p → Q p) :
    g.All Q where
  object e he := hPQ _ (h.object e he)
  props key es hes e he := hPQ _ (h.props key es hes e he)
  relations key es hes e he := hPQ _ (h.relations key es hes e he)

/-- Whether all permissions of a grant pass a check. -/
def passes (k : Check) (g : Grant) : Bool :=
  let entries : Entries → Bool := fun es => es.all (·.2.passes k)
  entries g.object && g.props.values.all entries && g.relations.values.all entries

theorem passes_eq_true {g : Grant} : g.passes k = true ↔ g.All (·.passes k = true) := by
  have hentries : ∀ m : NameMap Entries, (m.values.all fun es => es.all (·.2.passes k)) = true ↔
      EntriesAll (·.passes k = true) m := fun m => by
    rw [SortedMap.all_values_iff]
    exact forall₂_congr fun _ es => imp_congr_right fun _ => List.all_eq_true
  rw [passes, Bool.and_eq_true, Bool.and_eq_true, hentries, hentries, List.all_eq_true]
  exact ⟨fun h => ⟨h.1.1, h.1.2, h.2⟩, fun h => ⟨⟨h.object, h.props⟩, h.relations⟩⟩

end Grant

/-! ### What grants come to -/

theorem all_collect {gs : List Grant} (h : ∀ g ∈ gs, g.All P) {name : String} {g : Grant}
    (hg : (collect gs).get? name = some g) : g.All P := by
  have hall : ∀ name g, (collect gs).get? name = some g → g.All P := by
    refine List.foldlRecOn
      (motive := fun m : NameMap Grant => ∀ name g, m.get? name = some g → g.All P) gs _ nofun ?_
    intro m hm g hg name joined hjoined
    rw [SortedMap.get?_update] at hjoined
    split at hjoined
    · -- The first grant on a resource is joined to the grant of nothing.
      cases hjoined
      refine Grant.All.join ?_ (h g hg)
      cases hold : m.get? g.resource with
      | none => exact Grant.all_empty _
      | some old => exact hm _ old hold
    · exact hm name joined hjoined
  exact hall name g hg

section Merging

variable (hmerge : ∀ ps, ps ≠ [] → (∀ p ∈ ps, P p) → P (.mergeWithin ps))

include hmerge

theorem Decisions.of_get?_ofEntries {es : Entries} (h : ∀ e ∈ es, P e.2) {a : Action}
    {p : Permission} (hp : (Decisions.ofEntries es).get? a = some p) : P p := by
  rcases SortedMap.mem_of_get?_insertAll hp with hmem | hempty
  · obtain ⟨e, he, heq⟩ := List.mem_map.1 hmem
    cases heq
    have hkept : e.2 ∈ permissionsFor e.1 es :=
      List.mem_map_of_mem (List.mem_filter.2 ⟨he, beq_self_eq_true _⟩)
    refine hmerge _ (List.ne_nil_of_mem hkept) fun q hq => ?_
    obtain ⟨e', he', rfl⟩ := List.mem_map.1 hq
    exact h e' (List.mem_of_mem_filter he')
  · cases hempty

theorem ResourceGrants.of_gives_ofGrant {g : Grant} (h : g.All P) {q : Permission}
    (hq : (ofGrant g).Gives q) : P q := by
  have hkeys : ∀ {m : NameMap Entries}, EntriesAll P m → ∀ {key : String} {d : Decisions},
      (m.mapValues fun _ => Decisions.ofEntries).get? key = some d →
        ∀ {a : Action}, d.get? a = some q → P q := by
    intro m hm key d hd a hq
    rw [SortedMap.get?_mapValues] at hd
    obtain ⟨es, hes, rfl⟩ := Option.map_eq_some_iff.1 hd
    exact Decisions.of_get?_ofEntries hmerge (hm key es hes) hq
  cases hq with
  | object hq => exact Decisions.of_get?_ofEntries hmerge h.object hq
  | prop hd hq => exact hkeys h.props hd hq
  | relation hd hq => exact hkeys h.relations hd hq

/-- What is true of all permissions in the grants of a declaration, and kept by merging, is true
    of what they come to. -/
theorem Declaration.of_gives_rawGrants {c : Catalogue} {d : Declaration} {raw : GrantMap}
    (hgrants : ∀ gs, d.grants c = .ok gs → ∀ g ∈ gs, g.All P) (h : d.rawGrants c = .ok raw)
    {name : String} {g : ResourceGrants} (hg : raw.get? name = some g) {q : Permission}
    (hq : g.Gives q) : P q := by
  obtain ⟨gs, hgs, h⟩ := exists_of_bind_eq_ok h
  split at h
  · cases h
  · cases h
    rw [GrantMap.ofGrants, SortedMap.get?_mapValues] at hg
    obtain ⟨written, hwritten, rfl⟩ := Option.map_eq_some_iff.1 hg
    exact ResourceGrants.of_gives_ofGrant hmerge (all_collect (hgrants gs hgs) hwritten) hq

end Merging

/-! ### Checks of declarations -/

/-- Whether the roles of a declaration, and all that its grants name, pass a check. -/
def Declaration.passes (k : Check) (c : Catalogue) (d : Declaration) : Bool :=
  d.roles.all k.names && (d.grants c).toOption.all (·.all (·.passes k))

/-- What a declaration comes to passes the checks that it passes itself. -/
theorem Declaration.passes_rawGrants {c : Catalogue} {d : Declaration} {raw : GrantMap}
    (hd : d.passes k c = true) (h : d.rawGrants c = .ok raw) : raw.passes k = true := by
  refine GrantMap.passes_eq_true.2 fun name g hg => ResourceGrants.passes_iff.2 fun q hq => ?_
  refine of_gives_rawGrants (fun _ _ => Permission.passes_mergeWithin) (fun gs hgs g' hg' => ?_)
    h hg hq
  have hgrants := (Bool.and_eq_true _ _ ▸ hd).2
  rw [hgs] at hgrants
  exact Grant.passes_eq_true.1 (List.all_eq_true.1 hgrants g' hg')

/-! ### Conditions in scripts -/

/-- The conditions in a step. -/
def KeyStep.conditions : KeyStep → List Condition
  | .when c => [c]
  | .select _ | .grant _ | .or => []

/-- The conditions in a step. -/
def Step.conditions : Step → List Condition
  | .when c => [c]
  | .specifically steps | .children steps => steps.flatMap KeyStep.conditions
  | .grant _ | .or => []

/-- The conditions in a step, a restriction to variants among them. -/
def VariantStep.conditions : VariantStep → List Condition
  | .variants names => [.variant (.ofList names)]
  | .when c => [c]
  | .specifically steps | .children steps => steps.flatMap KeyStep.conditions
  | .grant _ | .or => []

/-- The conditions in a script. -/
def Script.conditions : Script → List Condition
  | .each steps | .resource _ steps => steps.flatMap Step.conditions
  | .variants _ steps => steps.flatMap VariantStep.conditions

theorem forall_mem_conditions {σ : Type} {conditions : σ → List Condition} {steps : List σ}
    (h : ∀ c ∈ steps.flatMap conditions, S c) {st : σ} (hst : st ∈ steps) :
    ∀ c ∈ conditions st, S c := fun c hc => h c (List.mem_flatMap.2 ⟨st, hst, hc⟩)

/-- It is granted, without condition or under one of a sort. -/
def Permission.Within (S : Condition → Prop) : Permission → Prop
  | .allow => True
  | .when c => S c
  | .deny => False

namespace Stage

variable {stage : Stage}

theorem within_permission (h : ∀ c ∈ stage.condition?, S c) : stage.permission.Within S := by
  rw [permission]
  cases hc : stage.condition? with
  | none => trivial
  | some c => exact h c hc

theorem condition?_inherit (c : Option Condition) : (inherit c).condition? = c := by
  cases c <;> rfl

theorem condition?_rework (c : Option Condition) : (stage.rework c).condition? = c := by
  cases c <;> rfl

end Stage

theorem within_entriesOf {p : Permission} (h : p.Within S) (actions : List Action) :
    ∀ e ∈ entriesOf actions p, e.2.Within S := by
  intro e he
  obtain ⟨_, _, rfl⟩ := List.mem_map.1 he
  exact h

/-! ### Grants on keys -/

/-- What is staged is of a sort, and nothing was written but under such conditions. -/
structure KeyGranter.Within (S : Condition → Prop) (g : KeyGranter) : Prop where
  /-- The staged condition. -/
  stage : ∀ c ∈ g.stage.condition?, S c
  /-- The entries. -/
  entries : EntriesAll (·.Within S) g.entries

namespace KeyGranter.Within

variable {g : KeyGranter}

theorem start (r : Resource) (sort : KeySort) {c : Option Condition} (h : ∀ d ∈ c, S d) :
    (KeyGranter.start r sort c).Within S := by
  refine ⟨?_, .empty⟩
  rw [KeyGranter.start, Stage.condition?_inherit]
  exact h

theorem grant (h : g.Within S) (actions : List Action) : (g.grant actions).Within S := by
  refine ⟨?_, ?_⟩
  · rw [KeyGranter.grant, Stage.condition?_use]
    exact h.stage
  · refine List.foldlRecOn (motive := EntriesAll (·.Within S)) g.selected _ h.entries ?_
    intro m hm key _
    exact hm.addEntries (within_entriesOf (Stage.within_permission h.stage) _)

/-- One step stages and writes nothing else. -/
theorem step (h : g.Within S) {st : KeyStep} (hst : ∀ c ∈ st.conditions, S c) :
    (g.step st).Within S := by
  cases st with
  | select keys => exact ⟨h.stage, h.entries⟩
  | grant actions => exact h.grant actions
  | when c =>
    refine ⟨?_, h.entries⟩
    rintro _ ⟨⟩
    exact hst c List.mem_cons_self
  | or => exact ⟨nofun, h.entries⟩

theorem run (h : g.Within S) {steps : List KeyStep}
    (hsteps : ∀ c ∈ steps.flatMap KeyStep.conditions, S c) : (g.run steps).Within S := by
  refine List.foldlRecOn (motive := KeyGranter.Within S) steps _ h ?_
  exact fun g hg st hst => hg.step (forall_mem_conditions hsteps hst)

theorem addTo (h : g.Within S) {written : Grant} (hwritten : written.All (·.Within S)) :
    (g.addTo written).All (·.Within S) := by
  cases hsort : g.sort with
  | prop =>
    refine ⟨hwritten.object, ?_, ?_⟩
    · rw [KeyGranter.addTo, hsort]
      exact hwritten.props.joinEntries h.entries
    · rw [KeyGranter.addTo, hsort]
      exact hwritten.relations
  | relation =>
    refine ⟨hwritten.object, ?_, ?_⟩
    · rw [KeyGranter.addTo, hsort]
      exact hwritten.props
    · rw [KeyGranter.addTo, hsort]
      exact hwritten.relations.joinEntries h.entries

end KeyGranter.Within

/-! ### Grants on objects -/

/-- What is staged is of a sort, and nothing was written but under such conditions. -/
structure Granter.Within (S : Condition → Prop) (g : Granter) : Prop where
  /-- The staged condition. -/
  stage : ∀ c ∈ g.stage.condition?, S c
  /-- What was written. -/
  written : g.written.All (·.Within S)

namespace Granter.Within

variable {g : Granter}

theorem start (r : Resource) : (Granter.start r).Within S := ⟨nofun, Grant.all_empty r.name⟩

theorem grant (h : g.Within S) (actions : List Action) : (g.grant actions).Within S := by
  refine ⟨?_, fun e he => ?_, h.written.props, h.written.relations⟩
  · rw [Granter.grant, Stage.condition?_use]
    exact h.stage
  · rcases List.mem_append.1 he with he | he
    · exact h.written.object e he
    · exact within_entriesOf (Stage.within_permission h.stage) actions e he

theorem when (h : g.Within S) {c : Condition} (hc : S c) : (g.when c).Within S := by
  refine ⟨?_, h.written⟩
  rintro _ ⟨⟩
  exact hc

theorem or (h : g.Within S) : g.or.Within S := ⟨nofun, h.written⟩

theorem rework (h : g.Within S) {c : Option Condition} (hc : ∀ d ∈ c, S d) :
    (g.rework c).Within S := by
  refine ⟨?_, h.written⟩
  rw [Granter.rework, Stage.condition?_rework]
  exact hc

theorem onKeys (h : g.Within S) (sort : KeySort) {steps : List KeyStep}
    (hsteps : ∀ c ∈ steps.flatMap KeyStep.conditions, S c) : (g.onKeys sort steps).Within S := by
  refine ⟨?_, ((KeyGranter.Within.start g.resource sort h.stage).run hsteps).addTo h.written⟩
  rw [Granter.onKeys, Stage.condition?_use]
  exact h.stage

/-- One step stages and writes nothing else. -/
theorem step (h : g.Within S) {st : Step} (hst : ∀ c ∈ st.conditions, S c) :
    (g.step st).Within S := by
  cases st with
  | grant actions => exact h.grant actions
  | when c => exact h.when (hst c List.mem_cons_self)
  | or => exact h.or
  | specifically steps => exact h.onKeys .prop hst
  | children steps => exact h.onKeys .relation hst

theorem run (h : g.Within S) {steps : List Step}
    (hsteps : ∀ c ∈ steps.flatMap Step.conditions, S c) : (g.run steps).Within S := by
  refine List.foldlRecOn (motive := Granter.Within S) steps _ h ?_
  exact fun g hg st hst => hg.step (forall_mem_conditions hsteps hst)

theorem finish (h : g.Within S) : g.finish.All (·.Within S) :=
  ⟨h.written.object, h.written.props, h.written.relations⟩

end Granter.Within

/-! ### Grants on variants -/

/-- The condition, the restriction, and what they are written into, are of a sort. -/
structure VariantGranter.Within (S : Condition → Prop) (g : VariantGranter) : Prop where
  /-- The grants on the resource. -/
  base : g.base.Within S
  /-- The condition staged besides the restriction. -/
  condition : ∀ c ∈ g.condition, S c
  /-- The restriction to variants. -/
  restriction : ∀ c ∈ g.restriction, S c

namespace VariantGranter.Within

variable {g : VariantGranter} (hall : ∀ c d, S c → S d → S (.all [c, d]))

theorem start (r : Resource) : (VariantGranter.start r).Within S := ⟨.start r, nofun, nofun⟩

include hall

theorem both {c v : Option Condition} (hc : ∀ d ∈ c, S d) (hv : ∀ d ∈ v, S d) :
    ∀ d ∈ VariantGranter.both c v, S d := by
  cases c with
  | none => exact hv
  | some c =>
    cases v with
    | none => exact hc
    | some v =>
      rintro _ ⟨⟩
      exact hall c v (hc c rfl) (hv v rfl)

theorem variants (h : g.Within S) {names : List String} (hnames : S (.variant (.ofList names))) :
    (g.variants names).Within S := by
  have hrestriction : ∀ d ∈ some (Condition.variant (.ofList names)), S d := by
    rintro _ ⟨⟩
    exact hnames
  exact ⟨h.base.rework (both hall h.condition hrestriction), h.condition, hrestriction⟩

theorem when (h : g.Within S) {c : Condition} (hc : S c) : (g.when c).Within S := by
  have hcondition : ∀ d ∈ some c, S d := by
    rintro _ ⟨⟩
    exact hc
  refine ⟨?_, hcondition, h.restriction⟩
  rw [VariantGranter.when]
  -- Under a restriction the condition is staged together with it.
  split
  · exact h.base.rework (both hall hcondition h.restriction)
  · exact h.base.when hc

/-- One step stages and writes nothing else, or both together. -/
theorem step (h : g.Within S) {st : VariantStep} (hst : ∀ c ∈ st.conditions, S c) :
    (g.step st).Within S := by
  cases st with
  | variants names => exact h.variants hall (hst _ List.mem_cons_self)
  | grant a => exact ⟨h.base.grant [a], h.condition, h.restriction⟩
  | when c => exact h.when hall (hst c List.mem_cons_self)
  | or => exact ⟨h.base.or, nofun, nofun⟩
  | specifically steps => exact ⟨h.base.onKeys .prop hst, h.condition, h.restriction⟩
  | children steps => exact ⟨h.base.onKeys .relation hst, h.condition, h.restriction⟩

theorem run (h : g.Within S) {steps : List VariantStep}
    (hsteps : ∀ c ∈ steps.flatMap VariantStep.conditions, S c) : (g.run steps).Within S := by
  refine List.foldlRecOn (motive := VariantGranter.Within S) steps _ h ?_
  exact fun g hg st hst => hg.step hall (forall_mem_conditions hsteps hst)

omit hall in
theorem finish (h : g.Within S) : g.finish.All (·.Within S) :=
  ⟨h.base.finish.object, h.base.finish.props, h.base.finish.relations⟩

end VariantGranter.Within

/-! ### Scripts -/

namespace Script

variable {c : Catalogue} {gs : List Grant} (hall : ∀ c d, S c → S d → S (.all [c, d]))

theorem within_grantOn (r : Resource) {steps : List Step}
    (hsteps : ∀ c ∈ steps.flatMap Step.conditions, S c) : (grantOn r steps).All (·.Within S) :=
  ((Granter.Within.start r).run hsteps).finish

include hall

theorem within_grantOnVariants {r : Resource} {steps : List VariantStep} {g : Grant}
    (hsteps : ∀ c ∈ steps.flatMap VariantStep.conditions, S c)
    (h : grantOnVariants r steps = .ok g) : g.All (·.Within S) := by
  rw [grantOnVariants] at h
  split at h
  · cases h
  · cases h
    exact ((VariantGranter.Within.start r).run hall hsteps).finish

theorem forall_grants {script : Script} (hscript : ∀ c ∈ script.conditions, S c)
    (h : script.grants c = .ok gs) : ∀ g ∈ gs, g.All (·.Within S) := by
  cases script with
  | each steps =>
    cases h
    intro g hg
    obtain ⟨r, _, rfl⟩ := List.mem_map.1 hg
    exact within_grantOn r hscript
  | resource name steps =>
    obtain ⟨r, _, h⟩ := exists_of_bind_eq_ok h
    cases h
    exact List.forall_mem_singleton.2 (within_grantOn r hscript)
  | variants name steps =>
    obtain ⟨r, _, h⟩ := exists_of_bind_eq_ok h
    obtain ⟨g, hg, h⟩ := exists_of_bind_eq_ok h
    cases h
    exact List.forall_mem_singleton.2 (within_grantOnVariants hall hscript hg)

/-- Scripts grant without condition, or under conditions that are in them. -/
theorem forall_allGrants {scripts : List Script}
    (hscripts : ∀ script ∈ scripts, ∀ c ∈ script.conditions, S c)
    (h : allGrants c scripts = .ok gs) : ∀ g ∈ gs, g.All (·.Within S) := by
  induction scripts generalizing gs with
  | nil =>
    cases h
    exact fun _ hg => absurd hg List.not_mem_nil
  | cons script scripts ih =>
    obtain ⟨hfirst, hrest⟩ := List.forall_mem_cons.1 hscripts
    obtain ⟨gs₁, h₁, h⟩ := exists_of_bind_eq_ok h
    obtain ⟨gs₂, h₂, h⟩ := exists_of_bind_eq_ok h
    cases h
    exact List.forall_mem_append.2 ⟨forall_grants hall hfirst h₁, ih hrest h₂⟩

end Script

/-! ### Declarations by scripts -/

namespace Declaration

variable {name : String} {roles : Option NameSet} {scripts : List Script} {c : Catalogue}

/-- What scripts write passes the checks that all conditions in them pass. -/
theorem passes_ofScripts (hroles : roles.all k.names = true)
    (hscripts : (scripts.all fun script => script.conditions.all (·.passes k)) = true) :
    (ofScripts name roles scripts).passes k c = true := by
  rw [passes, Bool.and_eq_true]
  refine ⟨hroles, (Option.all_eq_true _ _).2 fun gs hgs => List.all_eq_true.2 fun g hg => ?_⟩
  have hgrants : Script.allGrants c scripts = .ok gs := by
    replace hgs : (Script.allGrants c scripts).toOption = some gs := hgs
    cases h : Script.allGrants c scripts with
    | error _ => rw [h] at hgs; cases hgs
    | ok _ => rw [h] at hgs; cases hgs; rfl
  have hconditions : ∀ script ∈ scripts, ∀ d ∈ script.conditions, d.passes k = true :=
    fun script hscript => List.all_eq_true.1 (List.all_eq_true.1 hscripts script hscript)
  have hwithin : g.All (·.Within fun d => d.passes k = true) := by
    refine Script.forall_allGrants (fun d e hd he => ?_) hconditions hgrants g hg
    exact Condition.passes_all (List.forall_mem_cons.2 ⟨hd, List.forall_mem_singleton.2 he⟩)
  refine Grant.passes_eq_true.2 (hwithin.mono fun p hp => ?_)
  cases p with
  | deny => exact hp.elim
  | allow => rfl
  | when d => exact hp

end Declaration

end Authorization
