import Authorization.Engine.Privileges
import Authorization.Proofs.Resolution.Decision
import Authorization.Proofs.Sql.Rows

/-!
# Filters select what can be read

The filter of an engine for reading, put into a query on a table, selects a row
just where the engine lets the session read the record that presents the row
(`Privileges.selects_iff_can`). It does not matter whether the engine optimizes
its filters, nor what it was asked before.
-/

namespace Authorization

open Condition

namespace Sql

variable {ctx : Context}

theorem isListed_joined {parts : List Condition}
    (h : ∀ c ∈ parts, (Predicate.ofCondition ctx c).isListed = true) :
    Predicate.areListed (Predicate.ofConditions ctx parts) = true := by
  rw [ofConditions_eq_map, Predicate.areListed_eq_all, List.all_map]
  exact List.all_eq_true.2 h

/-- The lists in predicates of conditions have values. -/
theorem isListed_ofCondition :
    ∀ c : Condition, (Predicate.ofCondition ctx c).isListed = true := by
  refine byParts (fun _ => rfl) ?variant ?member ?field rfl (fun _ => isListed_joined)
    (fun _ => isListed_joined)
  case variant =>
    intro names
    rw [Predicate.ofCondition]
    -- No variants make no list: the predicate is decided then.
    split
    · rfl
    · rename_i hnames
      rw [Predicate.isListed, List.isEmpty_map, Bool.not_eq_true']
      exact Bool.eq_false_iff.2 hnames
  case member =>
    intro roles
    rw [Predicate.ofCondition]
    split
    · rfl
    · rfl
  case field =>
    intro name operand
    cases operand with
    | requester =>
      rw [Predicate.ofCondition]
      split
      · rfl
      · rfl
    | value v => cases v <;> rfl

theorem isKnown_column (name : String) (aliases : List String) :
    Expr.isKnown (ctx.qualifier :: aliases) (.column (ctx.column name)) = true :=
  List.any_eq_true.2 ⟨_, List.mem_cons_self, sameName_self _⟩

/-- Within the subquery, the columns of memberships are known. -/
theorem isKnown_m (name : String) (aliases : List String) :
    Expr.isKnown ("m" :: aliases) (.column ⟨"m", name⟩) = true :=
  List.any_eq_true.2 ⟨_, List.mem_cons_self, sameName_self _⟩

theorem isClosed_withRoles {e : Expr} {aliases : List String} (roles : Option (List Value))
    (he : e.isClosed ("m" :: aliases) = true) :
    (Expr.withRoles e roles).isClosed ("m" :: aliases) = true := by
  match roles with
  | none => exact he
  | some [] =>
    rw [Expr.withRoles, Expr.isClosed, he]
    rfl
  | some (v :: vs) =>
    rw [Expr.withRoles, Expr.isClosed, he, Expr.isClosed, isKnown_m]
    · rfl
    · exact List.cons_ne_nil _ _

theorem isClosed_joined {operator : Expr → Expr → Expr} {aliases : List String}
    (hop : ∀ e f, (operator e f).isClosed aliases = (e.isClosed aliases && f.isClosed aliases))
    (unit : Bool) {es : List Expr} (h : ∀ e ∈ es, e.isClosed aliases = true) :
    (Expr.joined operator unit es).isClosed aliases = true := by
  induction es with
  | nil => rfl
  | cons e es ih =>
    cases es with
    | nil => exact h e List.mem_cons_self
    | cons f fs =>
      rw [Expr.joined, hop, h e List.mem_cons_self, ih fun g hg => h g (List.mem_cons_of_mem _ hg)]
      · rfl
      · exact List.cons_ne_nil _ _

/-- The subquery for memberships names columns of its own table, and the one of identifiers. -/
theorem isClosed_membership (table : String) (user : Value) (roles : Option (List Value)) :
    (Predicate.membership table (ctx.column ctx.storage.idColumn) user roles).expr.isClosed
      [ctx.qualifier] = true := by
  have hobject : Expr.isKnown ["m", ctx.qualifier]
      (.column (ctx.column ctx.storage.idColumn)) = true :=
    List.any_eq_true.2 ⟨_, List.mem_cons_of_mem _ List.mem_cons_self, sameName_self _⟩
  rw [Predicate.expr, Expr.isClosed, Expr.isClosed, Expr.isClosed, isKnown_m, hobject]
  refine isClosed_withRoles _ ?_
  rw [Expr.isClosed, isKnown_m]
  rfl

theorem isClosed_equals (name : String) (v : Value) :
    (Predicate.equals (ctx.column name) v).expr.isClosed [ctx.qualifier] = true := by
  rw [Predicate.expr, Expr.isClosed, isKnown_column]
  rfl

theorem forall_mem_exprs_ofConditions {P : Expr → Prop} {parts : List Condition}
    (h : ∀ c ∈ parts, P (Predicate.ofCondition ctx c).expr) :
    ∀ e ∈ Predicate.exprs (Predicate.ofConditions ctx parts), P e := by
  intro e he
  rw [Predicate.exprs_eq_map, ofConditions_eq_map] at he
  obtain ⟨p, hp, rfl⟩ := List.mem_map.1 he
  obtain ⟨c, hc, rfl⟩ := List.mem_map.1 hp
  exact h c hc

/-- The columns in predicates of conditions are columns of the table, or of memberships. -/
theorem isClosed_ofCondition : ∀ c : Condition,
    (Predicate.ofCondition ctx c).expr.isClosed [ctx.qualifier] = true := by
  refine byParts (fun _ => rfl) ?variant ?member ?field rfl ?allOf ?anyOf
  case variant =>
    intro names
    rw [Predicate.ofCondition]
    split
    · rfl
    · exact isKnown_column _ []
  case member =>
    intro roles
    rw [Predicate.ofCondition]
    split
    · rfl
    · exact isClosed_membership _ _ _
  case field =>
    intro name operand
    cases operand with
    | requester =>
      rw [Predicate.ofCondition]
      split
      · rfl
      · exact isClosed_equals name _
    | value v =>
      cases v with
      | null => exact isKnown_column name []
      | _ => exact isClosed_equals name _
  case allOf =>
    exact fun parts ih => isClosed_joined (fun _ _ => rfl) true (forall_mem_exprs_ofConditions ih)
  case anyOf =>
    exact fun parts ih => isClosed_joined (fun _ _ => rfl) false (forall_mem_exprs_ofConditions ih)

end Sql

/-! ### Filters -/

section Filters

variable {s : Session} {storage : Storage} {name : String} {tables : Sql.Tables} {row : Sql.Row}
  {o : Record}

/-- The filter for a permission is read as a test, which is true of a row where the permission
    allows reading the record. -/
theorem Filter.exists_read (ho : Sql.Presented ⟨name, storage, s⟩ tables row o)
    (hname : Sql.sameName name "m" = false) {p : Permission}
    (hqueryable : p.passes .queryable = true) (hfields : p.passes (.fieldsOf o) = true) :
    ∃ f test, (Filter.ofPermission s storage (.sql name) p).toSql = .ok f ∧
      Sql.Expr.read? f = some test ∧ test.isClosed [name] = true ∧
      (test.truth tables [(name, row)] = .true ↔ p.holdsOn s o = true) := by
  cases p with
  | allow =>
    exact ⟨_, _, rfl, Sql.read?_fragment rfl, rfl,
      (Sql.truth_decided true).trans ⟨fun _ => rfl, fun _ => rfl⟩⟩
  | deny =>
    exact ⟨_, _, rfl, Sql.read?_fragment rfl, rfl, (Sql.truth_decided false).trans ⟨nofun, nofun⟩⟩
  | when c =>
    have hlisted : (Sql.Predicate.ofCondition ⟨name, storage, s⟩ c).isListed = true :=
      Sql.isListed_ofCondition c
    have hclosed : (Sql.Predicate.ofCondition ⟨name, storage, s⟩ c).expr.isClosed [name] = true :=
      @Sql.isClosed_ofCondition ⟨name, storage, s⟩ c
    exact ⟨_, _, rfl, Sql.read?_fragment hlisted, hclosed,
      Sql.truth_ofCondition ho hname c hqueryable hfields⟩

end Filters

namespace Engine

variable {e : Engine} {α β : Type}

/-- What an operation goes on with. -/
theorem run_bind_fst {op : Operation α} {f : α → Operation β} {a : α}
    (h : (e.run op).1 = .ok a) : (e.run (op >>= f)).1 = ((e.run op).2.run (f a)).1 := by
  rw [run_bind]
  rcases hrun : e.run op with ⟨outcome, e'⟩
  rw [hrun] at h
  cases h
  rfl

/-- What is resolved from the answers kept, and what is left of the engine. -/
theorem run_resolve_fst (he : e.Faithful) {s : Session} {a : Action} {resource : String}
    {key : Option String} {optimized : Bool} {p : Permission}
    (h : e.executor.answer s a resource key optimized = .ok p) :
    (e.run (resolve s a resource key optimized)).1 = .ok p := (run_resolve he).1.trans h

end Engine

namespace Privileges

variable {e : Engine} {ps : List Policy} {r : Resource}

/-- The filter for reading, as a query on a table that goes by another name than `m`, is true
    of a row just where the record that presents the row can be read. -/
theorem selects_iff_can (he : e.Reachable) (hps : e.executor.policies = some ps)
    (hr : e.executor.catalogue.get? r.name = some r)
    (hplain : ∀ p ∈ ps, p.live.passes .plain = true)
    (hqueryable : ∀ p ∈ ps, p.live.passes .queryable = true)
    {name : String} (hlower : name ≠ "m") (hupper : name ≠ "M") {s : Session}
    {tables : Sql.Tables} {row : Sql.Row} {o : Record}
    (ho : Sql.Presented ⟨name, r.storage, s⟩ tables row o)
    (hfields : ∀ p ∈ ps, (p.permission r .read none).passes (.fieldsOf o) = true)
    (object : Option Record) :
    ∃ f test,
      (e.run (Privileges.filter ⟨s, r, object⟩ .read (.sql name))).1.bind Filter.toSql = .ok f ∧
      Sql.Expr.read? f = some test ∧ test.isClosed [name] = true ∧
      (test.truth tables [(name, row)] = .true ↔
        (e.run (Privileges.can ⟨s, r, some o⟩ .read none)).1 = .ok true) := by
  have hqueryable' : ∀ p ∈ ps, (p.permission r .read none).passes .queryable = true :=
    fun p hp => Policy.passes_permission (hqueryable p hp)
  -- What is answered for the filter, and for the check, allows the same.
  obtain ⟨p, hanswer, hgranted, hpasses⟩ := Executor.exists_answer hps hr s .read none
    e.settings.optimizeFilters fun _ => hplain
  obtain ⟨q, hanswer', hgranted', _⟩ := Executor.exists_answer hps hr s .read none false nofun
  have hfilter : (e.run (Privileges.filter ⟨s, r, object⟩ .read (.sql name))).1 =
      .ok (.ofPermission s r.storage (.sql name) p) := by
    rw [filter, Engine.run_bind, Engine.run_get]
    exact Engine.run_bind_fst (Engine.run_resolve_fst he.faithful hanswer)
  have hcan : (e.run (Privileges.can ⟨s, r, some o⟩ .read none)).1 = .ok (q.holdsOn s o) := by
    refine (Engine.run_bind_fst (Engine.run_resolve_fst he.faithful hanswer')).trans ?_
    rw [Engine.run_ofExcept, Permission.holds_some]
  obtain ⟨f, test, hf, hread, hclosed, htruth⟩ := Filter.exists_read ho
    (Sql.sameName_m hlower hupper) (hpasses _ hqueryable') (hpasses _ hfields)
  refine ⟨f, test, ?_, hread, hclosed, ?_⟩
  · rw [hfilter]
    exact hf
  · rw [htruth, hcan, Except.ok.injEq, hgranted, hgranted']

/-! ### A stored draft -/

/-- The row of a draft. -/
def draftRow : Sql.Row := fun column =>
  if column = "id" then some (.text "first")
  else if column = "author" then some (.text (Uuid.mk 7).text)
  else if column = "state" then some (.text "draft")
  else none

/-- The tables next to that of notes are empty. -/
def noMemberships : Sql.Tables := fun _ => []

/-- The draft as it is stored: no membership of it has a role. -/
def storedDraft : Record := { Engine.draft with membershipRoles := some ∅ }

theorem presented_storedDraft :
    Sql.Presented ⟨"n", Engine.note.storage, Engine.author⟩ noMemberships draftRow storedDraft where
  fields := by
    intro name v h
    have hmem : (name, v) ∈ storedDraft.fields.toList := SortedMap.get?_eq_some_iff.1 h
    have hfields : storedDraft.fields.toList =
        [("author", .string (Uuid.mk 7).text), ("state", .string "draft")] := rfl
    rw [hfields] at hmem
    rcases List.mem_pair.1 hmem with h | h
    · cases h
      rfl
    · cases h
      rfl
  variant := rfl
  member := ⟨nofun, fun ⟨_, h, _⟩ => absurd h List.not_mem_nil⟩
  roles := ⟨∅, rfl, fun _ =>
    ⟨fun h => absurd h List.not_mem_nil, fun ⟨_, h, _⟩ => absurd h List.not_mem_nil⟩⟩

/-- The author's filter for notes, read as a test, selects the row of the draft. -/
theorem selects_draft :
    ∃ f test, (Engine.noteEngine.run
        (filter ⟨Engine.author, Engine.note, none⟩ .read (.sql "n"))).1.bind Filter.toSql = .ok f ∧
      Sql.Expr.read? f = some test ∧ test.truth noMemberships [("n", draftRow)] = .true := by
  have hreachable : Engine.noteEngine.Reachable := .compile _ (.new _ _)
  have hplain : ∀ p ∈ Engine.notePolicies, p.live.passes .plain = true := List.all_eq_true.1 rfl
  have hqueryable : ∀ p ∈ Engine.notePolicies, p.live.passes .queryable = true :=
    List.all_eq_true.1 rfl
  have hfields : ∀ p ∈ Engine.notePolicies,
      (p.permission Engine.note .read none).passes (.fieldsOf storedDraft) = true :=
    List.all_eq_true.1 rfl
  obtain ⟨f, test, hf, hread, _, htruth⟩ := selects_iff_can hreachable rfl rfl hplain hqueryable
    (by decide) (by decide) presented_storedDraft hfields none
  exact ⟨f, test, hf, hread, htruth.2 rfl⟩

end Privileges

end Authorization
