import Authorization.Proofs.Catalogue.Chains
import Authorization.Proofs.Engine.Statements
import Authorization.Proofs.RowSecurity.Naming
import Mathlib.Data.List.Nodup

/-!
# The list of statements

An engine goes through its resources by their names, and through the kinds of
each. So statements come in this order, and no two are about the same resource
and kind (`Engine.pairwise_asked`).

* `Engine.names_distinct`: if resources are stored in different tables, statements
  have different names, as a name tells the table and the kind
  (`RowSecurity.Statement.of_name_inj`).

What an operation comes to is followed through its parts on engines with one
executor, which none of them changes (`Engine.Yields`).
-/

namespace Authorization

namespace RowSecurity.Statement

/-- What a statement is about. -/
def subject (s : Statement) : String × Kind := (s.resource, s.kind)

/-- One comes before another, by the resource and then by the kind. -/
def Before (a b : String × Kind) : Prop := a.1 < b.1 ∨ a.1 = b.1 ∧ a.2.place < b.2.place

theorem Before.ne {a b : String × Kind} (h : Before a b) : a ≠ b := by
  rintro rfl
  rcases h with hresource | ⟨_, hkind⟩
  · exact String.lt_irrefl _ hresource
  · exact Nat.lt_irrefl _ hkind

/-- A statement is on the table of its resource, and named after it. -/
def IsOf (c : Catalogue) (s : Statement) : Prop :=
  ∃ r label predicate, c.get? s.resource = some r ∧ IsLabel label ∧ s = .of r s.kind label predicate

/-- Where resources are stored in different tables, the name of a statement tells what it is
    about. -/
theorem IsOf.subject_eq {c : Catalogue} {s s' : Statement} (h : IsOf c s) (h' : IsOf c s')
    (htables : (c.toList.map (·.storage.table)).Nodup) (hname : s.name = s'.name) :
    s.subject = s'.subject := by
  obtain ⟨r, label, predicate, hr, hlabel, hs⟩ := h
  obtain ⟨r', label', predicate', hr', hlabel', hs'⟩ := h'
  rw [hs, hs'] at hname
  obtain ⟨htable, hkind, -⟩ := of_name_inj hlabel hlabel' hname
  have hresource : r = r' := List.inj_on_of_nodup_map htables
    (Catalogue.mem_toList_of_get? hr) (Catalogue.mem_toList_of_get? hr') htable
  rw [hs, hs']
  exact Prod.ext (congrArg Resource.name hresource) hkind

end RowSecurity.Statement

namespace Engine

open RowSecurity (Kind IsLabel Statement)

variable {α β : Type} {x : Executor} {p p' : α → Prop} {q : β → Prop}

/-! ### What operations come to -/

/-- On engines with the executor, an operation comes to nothing but what is said, and leaves the
    executor as it is. -/
def Yields (x : Executor) (op : Operation α) (p : α → Prop) : Prop :=
  ∀ e : Engine, e.executor = x → (e.run op).2.executor = x ∧ ∀ a, (e.run op).1 = .ok a → p a

namespace Yields

theorem imp {op : Operation α} (hop : Yields x op p) (h : ∀ a, p a → p' a) : Yields x op p' :=
  fun e he => ⟨(hop e he).1, fun a ha => h a ((hop e he).2 a ha)⟩

theorem pure {a : α} (h : p a) : Yields x (Pure.pure a) p := by
  rintro e he
  refine ⟨he, ?_⟩
  rintro _ ⟨⟩
  exact h

theorem bind {op : Operation α} {f : α → Operation β} (hop : Yields x op p)
    (hf : ∀ a, p a → Yields x (f a) q) : Yields x (op >>= f) q := by
  intro e he
  obtain ⟨hexecutor, hp⟩ := hop e he
  rw [run_bind]
  rcases hrun : e.run op with ⟨fault | a, e'⟩
  · rw [hrun] at hexecutor
    exact ⟨hexecutor, by rintro _ ⟨⟩⟩
  · rw [hrun] at hexecutor hp
    exact hf a (hp a rfl) e' hexecutor

theorem get {f : Engine → Operation α} (hf : ∀ e : Engine, e.executor = x → Yields x (f e) p) :
    Yields x (MonadState.get >>= f) p := by
  intro e he
  rw [run_bind, run_get]
  exact hf e he e he

theorem ofExcept {outcome : Except Error α} (h : ∀ a, outcome = .ok a → p a) :
    Yields x (MonadExcept.ofExcept outcome) p := by
  intro e he
  rw [run_ofExcept]
  exact ⟨he, h⟩

theorem ask {question : Executor → Except Error α} (h : ∀ a, question x = .ok a → p a) :
    Yields x (Engine.ask question) p :=
  .get fun _ he => .ofExcept fun a ha => h a (he ▸ ha)

theorem optimize (permission : Permission) :
    Yields x (Engine.optimize permission) fun _ => True := by
  intro e he
  obtain ⟨ws, hrun⟩ := @run_optimize e permission
  rw [hrun]
  exact ⟨he, fun _ _ => trivial⟩

end Yields

theorem yields_databasePermission (a : Action) (resource : String) :
    Yields x (databasePermission a resource) fun _ => True := by
  refine .bind (.ask fun _ _ => trivial) fun permission _ => .get fun e _ => ?_
  split
  · exact .optimize permission
  · exact .pure trivial

/-! ### Statements -/

/-- A statement that is needed for a resource and a kind is about them, on the table of the
    resource. -/
theorem yields_statement? (hc : x.catalogue.Keyed) (resource : String) (kind : Kind) :
    Yields x (statement? resource kind) fun s? =>
      ∀ s ∈ s?, s.subject = (resource, kind) ∧ s.IsOf x.catalogue := by
  have hof : ∀ {r label predicate}, x.catalogue.get? resource = some r → IsLabel label →
      (Statement.of r kind label predicate).subject = (resource, kind) ∧
        (Statement.of r kind label predicate).IsOf x.catalogue := by
    intro r label predicate hr hlabel
    have hname : r.name = resource := hc resource r hr
    have hown : x.catalogue.get? r.name = some r := hname.symm ▸ hr
    exact ⟨congrArg (·, kind) hname, r, label, predicate, hown, hlabel, rfl⟩
  refine .get fun e he => ?_
  rw [he]
  refine .bind (.ofExcept fun r hr => Catalogue.get_eq_ok.1 hr) fun r hr => ?_
  split
  · refine .pure fun s hs => ?_
    rw [computedStatement?] at hs
    split at hs
    · cases hs
    · cases hs
      exact hof hr .computed
  · refine .bind (.ofExcept fun _ _ => trivial) fun declared _ => ?_
    split
    · refine (yields_databasePermission kind.action resource).bind fun permission _ => ?_
      refine .bind (.ofExcept fun _ _ => trivial) fun predicate? _ => .pure fun s hs => ?_
      obtain ⟨predicate, _, rfl⟩ := Option.map_eq_some_iff.1 hs
      exact hof hr (.permission permission)
    · exact .pure nofun

/-- Statements are about some of the resources and kinds that are gone through, in their order. -/
theorem yields_statementsFor (hc : x.catalogue.Keyed) (asked : List (String × Kind)) :
    Yields x (statementsFor asked) fun ss =>
      (ss.map Statement.subject).Sublist asked ∧ ∀ s ∈ ss, s.IsOf x.catalogue := by
  induction asked with
  | nil => exact .pure ⟨.slnil, nofun⟩
  | cons about rest ih =>
    refine (yields_statement? hc about.1 about.2).bind fun s? hs? => ih.bind fun ss hss => .pure ?_
    obtain ⟨hsub, hof⟩ := hss
    cases s? with
    | none => exact ⟨hsub.cons about, hof⟩
    | some s =>
      obtain ⟨hsubject, hs⟩ := hs? s rfl
      refine ⟨?_, List.forall_mem_cons.2 ⟨hs, hof⟩⟩
      rw [List.map_append, Option.toList_some, List.map_singleton, hsubject]
      exact hsub.cons_cons about

/-! ### The order of statements -/

/-- Resources and kinds are gone through in order. -/
theorem pairwise_asked {c : Catalogue} (hc : c.Keyed) :
    (c.toList.flatMap fun r => Kind.all.map fun kind => (r.name, kind)).Pairwise
      Statement.Before := by
  refine List.pairwise_flatMap.2 ⟨fun r _ => ?_, hc.pairwise_toList.imp fun hlt => ?_⟩
  · exact List.pairwise_map.2 (Kind.pairwise_all.imp fun hkind => .inr ⟨rfl, hkind⟩)
  · intro about habout about' habout'
    obtain ⟨_, _, rfl⟩ := List.mem_map.1 habout
    obtain ⟨_, _, rfl⟩ := List.mem_map.1 habout'
    exact .inl hlt

/-- Statements are in the order of what they are about, each on the table of its resource. -/
theorem yields_statements (hc : x.catalogue.Keyed) : Yields x statements fun ss =>
    (ss.map Statement.subject).Pairwise Statement.Before ∧ ∀ s ∈ ss, s.IsOf x.catalogue := by
  refine .get fun e he => ?_
  rw [he]
  exact (yields_statementsFor hc _).imp fun ss hss => ⟨(pairwise_asked hc).sublist hss.1, hss.2⟩

/-- If an engine comes to all statements that are needed, they are in the order of their resources
    and then of the kinds, with one statement at most for a resource and a kind; and if the
    resources are stored in different tables, all have different names. -/
theorem names_distinct {rs : List Resource} {e : Engine} {ss : List Statement}
    (hc : Catalogue.ofList rs = .ok e.executor.catalogue)
    (htables : (e.executor.catalogue.toList.map (·.storage.table)).Nodup)
    (h : (e.run statements).1 = .ok ss) :
    (ss.map Statement.subject).Nodup ∧ (ss.map Statement.subject).Pairwise Statement.Before ∧
      (ss.map (·.name)).Nodup := by
  obtain ⟨hordered, hof⟩ := (yields_statements (Catalogue.keyed_ofList hc) e rfl).2 ss h
  refine ⟨hordered.imp fun hbefore => hbefore.ne, hordered, ?_⟩
  refine List.pairwise_map.2 ((List.pairwise_map.1 hordered).imp_of_mem ?_)
  intro s s' hs hs' hbefore hname
  exact hbefore.ne ((hof s hs).subject_eq (hof s' hs') htables hname)

/-! ### Visits -/

/-- Visits are in a table `visit`. -/
def visit : Resource := .ofName "Visit"

/-- Selected visits are in a table `visit_select`, as if it were for reading visits. -/
def visitSelect : Resource := .ofName "VisitSelect"

/-- The latest visits are computed, in a table `visit_insert`. -/
def visitInsert : Resource := { Resource.ofName "VisitInsert" with calculated := true }

/-- A catalogue of visits. -/
def visits : Catalogue :=
  ⟨.ofList [("Visit", visit), ("VisitSelect", visitSelect), ("VisitInsert", visitInsert)], rfl⟩

/-- Everyone reads and creates whatever there is, so all fingerprints are the same. -/
def visitors : Declaration := .ofScripts "visitors" none [.each [.grant [.read, .create]]]

/-- There are seven statements with different names, though all their permissions have one
    fingerprint, and two tables are called as names of statements on the third begin. -/
theorem names_visits :
    Catalogue.ofList [visit, visitSelect, visitInsert] = .ok visits ∧
    (visits.toList.map (·.storage.table)).Nodup ∧
    ∃ ss, ((declared visits .usual [visitors]).2.run statements).1 = .ok ss ∧
      ss.map Statement.subject = [("Visit", .select), ("Visit", .insert), ("VisitInsert", .select),
        ("VisitInsert", .insert), ("VisitInsert", .delete), ("VisitSelect", .select),
        ("VisitSelect", .insert)] ∧
      (ss.map (·.name)).Nodup := by
  have hvisits : Catalogue.ofList [visit, visitSelect, visitInsert] = .ok visits := rfl
  have htables : (visits.toList.map (·.storage.table)).Nodup := by decide
  have hnames := @names_distinct _ (declared visits .usual [visitors]).2 _ hvisits htables rfl
  exact ⟨hvisits, htables, _, rfl, rfl, hnames.2.2⟩

end Engine

end Authorization
