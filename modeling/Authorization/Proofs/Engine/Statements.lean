import Authorization.Engine.Statements
import Authorization.Proofs.Engine.Use
import Authorization.Proofs.Resolution.Order
import Authorization.Proofs.RowSecurity.Computed
import Authorization.Proofs.Simplification.Reordering

/-!
# Names of statements

A statement is named after the permission that it stands for. Declarations in
another order resolve to permissions that are alike, and remain so after
optimizing; alike permissions have one id, and either both have a predicate in
the database or neither (`RowSecurity.matches_predicate`). So engines for the same
declarations, in whatever order, go in step (`Engine.InStep`): they are *twins*
throughout, with the same policies in some order.

* `Engine.names_stable`: the order of parts does not show in the id of an
  optimized condition, and that of declarations not in the names of statements.
-/

namespace Authorization

/-! ### Outcomes that match -/

section Matches

variable {α β γ δ : Type} {R : α → β → Prop} {S : γ → δ → Prop}

/-- Results that are related, or one error. -/
inductive Matches (R : α → β → Prop) : Except Error α → Except Error β → Prop
  | ok {a : α} {b : β} : R a b → Matches R (.ok a) (.ok b)
  | error (fault : Error) : Matches R (.error fault) (.error fault)

namespace Matches

theorem refl {R : α → α → Prop} (hrefl : ∀ a, R a a) (x : Except Error α) : Matches R x x := by
  cases x with
  | error fault => exact .error fault
  | ok a => exact .ok (hrefl a)

theorem symm {R : α → α → Prop} (hsymm : ∀ a b, R a b → R b a) {x y : Except Error α}
    (h : Matches R x y) : Matches R y x := by
  cases h with
  | error fault => exact .error fault
  | ok hab => exact .ok (hsymm _ _ hab)

/-- What matches an error is the same error. -/
theorem eq_error {x : Except Error α} {fault : Error}
    (h : Matches R x (.error fault : Except _ β)) : x = .error fault := by
  cases h
  rfl

theorem bind {x : Except Error α} {y : Except Error β} (h : Matches R x y)
    {f : α → Except Error γ} {g : β → Except Error δ}
    (hfg : ∀ a b, R a b → Matches S (f a) (g b)) : Matches S (x >>= f) (y >>= g) := by
  cases h with
  | error fault => exact .error fault
  | ok hab => exact hfg _ _ hab

/-- What is read off results is the same if it is for results that are related. -/
theorem map_eq {x : Except Error α} {y : Except Error β} (h : Matches R x y) {f : α → γ} {g : β → γ}
    (hfg : ∀ a b, R a b → f a = g b) : x.map f = y.map g := by
  cases h with
  | error fault => rfl
  | ok hab => exact congrArg Except.ok (hfg _ _ hab)

end Matches

end Matches

/-! ### Predicates on rows -/

namespace RowSecurity

open Condition (Alike)

/-- Results that are there just if the same is not so match, as there is one reason to fail. -/
theorem FailsIff.matches {α : Type} {so so' : Prop} {reason : Error} {x y : Except Error α}
    (hx : FailsIff so reason x) (hy : FailsIff so' reason y) (h : so ↔ so') :
    Matches (fun _ _ => True) x y := by
  rcases hx with ⟨hso, rfl⟩ | ⟨hso, a, rfl⟩
  · rcases hy with ⟨_, rfl⟩ | ⟨hso', _, _⟩
    · exact .error reason
    · exact absurd (h.1 hso) hso'
  · rcases hy with ⟨hso', _⟩ | ⟨_, b, rfl⟩
    · exact absurd (h.2 hso') hso
    · exact .ok trivial

/-- Conditions that are alike have predicates both, or fail for the same reason: their leaves are
    the same, so both are about computed data or neither is. -/
theorem matches_predicate (storage : Storage) {c d : Condition} (h : Alike c d) :
    Matches (fun _ _ => True) (predicate storage c) (predicate storage d) :=
  (failsIff_predicate storage c).matches (failsIff_predicate storage d) h.leaves_perm.mem_iff

/-- What tells a statement from others: its resource, its kind and its name. -/
def Statement.heading (s : Statement) : String × Kind × String := (s.resource, s.kind, s.name)

end RowSecurity

namespace Engine

open RowSecurity (Statement matches_predicate)

/-- Permissions that are alike have predicates both, or neither, or fail for the same reason. -/
theorem matches_rowPredicate? (storage : Storage) {p q : Permission} (h : p.Alike q) :
    Matches (fun x y => x.isSome = y.isSome) (rowPredicate? storage p)
      (rowPredicate? storage q) := by
  cases h with
  | allow => exact .ok rfl
  | deny => exact .ok rfl
  | when h => exact (matches_predicate storage h).bind fun _ _ _ => .ok rfl

/-! ### Engines in step -/

/-- Two engines go by the same policies, in whatever order. -/
structure Twins (e e' : Engine) : Prop where
  /-- They are about the same resources. -/
  catalogue : e.executor.catalogue = e'.executor.catalogue
  /-- They optimize with the standard rules. -/
  optimizer : ∃ passes, e.executor.optimizer = .standard passes ∧
    e'.executor.optimizer = .standard passes
  /-- They are run in the same way. -/
  settings : e.settings = e'.settings
  /-- They have the same policies, which say nothing in the database but with plain names. -/
  policies : ∃ ps ps', e.executor.policies = some ps ∧ e'.executor.policies = some ps' ∧
    ps.Perm ps' ∧ ∀ p ∈ ps, ∀ r a, (p.databasePermission r a).passes .plain = true

variable {α β γ δ : Type} {R : α → β → Prop} {S : γ → δ → Prop} {e e' : Engine}

theorem Twins.withWarnings (h : Twins e e') (ws ws' : List Warning) :
    Twins { e with warnings := ws } { e' with warnings := ws' } :=
  ⟨h.catalogue, h.optimizer, h.settings, h.policies⟩

/-- On twins, the operations have outcomes that match, and leave twins. -/
def InStep (R : α → β → Prop) (op : Operation α) (op' : Operation β) : Prop :=
  ∀ e e', Twins e e' → Matches R (e.run op).1 (e'.run op').1 ∧ Twins (e.run op).2 (e'.run op').2

namespace InStep

theorem pure {a : α} {b : β} (h : R a b) : InStep R (Pure.pure a) (Pure.pure b) :=
  fun _ _ htwins => ⟨.ok h, htwins⟩

theorem bind {op : Operation α} {op' : Operation β} (hop : InStep R op op')
    {f : α → Operation γ} {g : β → Operation δ} (hfg : ∀ a b, R a b → InStep S (f a) (g b)) :
    InStep S (op >>= f) (op' >>= g) := by
  intro e e' htwins
  obtain ⟨hmatches, hafter⟩ := hop e e' htwins
  rw [run_bind, run_bind]
  rcases hrun : e.run op with ⟨outcome, after⟩
  rcases hrun' : e'.run op' with ⟨outcome', after'⟩
  rw [hrun, hrun'] at hmatches hafter
  cases hmatches with
  | error fault => exact ⟨.error fault, hafter⟩
  | ok hab => exact hfg _ _ hab after after' hafter

theorem get {f g : Engine → Operation α} {R : α → α → Prop}
    (hfg : ∀ e e', Twins e e' → InStep R (f e) (g e')) :
    InStep R (MonadState.get >>= f) (MonadState.get >>= g) := by
  intro e e' htwins
  rw [run_bind, run_get, run_bind, run_get]
  exact hfg e e' htwins e e' htwins

theorem ofExcept {x : Except Error α} {y : Except Error β} (h : Matches R x y) :
    InStep R (MonadExcept.ofExcept x) (MonadExcept.ofExcept y) := by
  intro e e' htwins
  rw [run_ofExcept, run_ofExcept]
  exact ⟨h, htwins⟩

theorem ask {question : Executor → Except Error α} {question' : Executor → Except Error β}
    (h : ∀ e e', Twins e e' → Matches R (question e.executor) (question' e'.executor)) :
    InStep R (Engine.ask question) (Engine.ask question') := by
  intro e e' htwins
  rw [run_ask, run_ask]
  exact ⟨h e e' htwins, htwins⟩

theorem optimize {p q : Permission} (hp : p.passes .plain = true) (h : p.Alike q) :
    InStep Permission.Alike (Engine.optimize p) (Engine.optimize q) := by
  intro e e' htwins
  obtain ⟨ws, hrun⟩ := @run_optimize e p
  obtain ⟨ws', hrun'⟩ := @run_optimize e' q
  obtain ⟨passes, hstandard, hstandard'⟩ := htwins.optimizer
  rw [hrun, hrun', hstandard, hstandard']
  exact ⟨.ok (h.optimize passes hp), htwins.withWarnings ws ws'⟩

end InStep

/-! ### Statements in step -/

/-- The policies of twins say alike in the database, and with plain names. -/
theorem Twins.matches_resolveForDatabase (h : Twins e e') (a : Action) (resource : String) :
    Matches (fun p q => p.passes .plain = true ∧ p.Alike q)
      (e.executor.resolveForDatabase a resource) (e'.executor.resolveForDatabase a resource) := by
  obtain ⟨ps, ps', hps, hps', hperm, hplain⟩ := h.policies
  cases hr : e.executor.catalogue.get? resource with
  | none =>
    have hr' : e'.executor.catalogue.get? resource = none := h.catalogue ▸ hr
    rw [Executor.resolveForDatabase_of_unknown hps hr,
      Executor.resolveForDatabase_of_unknown hps' hr']
    exact .error _
  | some r =>
    have hr' : e'.executor.catalogue.get? resource = some r := h.catalogue ▸ hr
    rw [Executor.resolveForDatabase_of_compiled hps hr,
      Executor.resolveForDatabase_of_compiled hps' hr']
    refine .ok ⟨Permission.passes_mergeAcross fun q hq => ?_,
      Permission.alike_mergeAcross (hperm.map _)⟩
    obtain ⟨p, hp, rfl⟩ := List.mem_map.1 hq
    exact hplain p hp r a

theorem Twins.declaredForDatabase_eq (h : Twins e e') (resource : String) :
    e.executor.declaredForDatabase resource = e'.executor.declaredForDatabase resource := by
  obtain ⟨ps, ps', hps, hps', hperm, _⟩ := h.policies
  rw [Executor.declaredForDatabase, Executor.declaredForDatabase, Executor.compiled,
    Executor.compiled, hps, hps']
  exact congrArg Except.ok hperm.any_eq

theorem inStep_databasePermission (a : Action) (resource : String) :
    InStep Permission.Alike (databasePermission a resource) (databasePermission a resource) := by
  refine .bind (.ask fun e e' h => h.matches_resolveForDatabase a resource) fun p q hpq => ?_
  refine .get fun e e' h => ?_
  rw [h.settings]
  split
  · exact .optimize hpq.1 hpq.2
  · exact .pure hpq.2

/-- Twins need statements for the same, with the same names. -/
theorem inStep_statement? (resource : String) (kind : RowSecurity.Kind) :
    InStep (fun x y => x.map Statement.heading = y.map Statement.heading)
      (statement? resource kind) (statement? resource kind) := by
  refine .get fun e e' h => ?_
  simp only [h.catalogue, h.declaredForDatabase_eq]
  refine .bind (.ofExcept (.refl (fun _ => rfl) _)) ?_
  rintro r _ rfl
  split
  · exact .pure rfl
  · refine .bind (.ofExcept (.refl (fun _ => rfl) _)) ?_
    rintro declared _ rfl
    split
    · refine .bind (inStep_databasePermission kind.action resource) fun p q hpq => ?_
      refine .bind (.ofExcept (matches_rowPredicate? r.storage hpq)) fun x y hxy => .pure ?_
      rw [Permission.fingerprint, Permission.fingerprint, hpq.id_eq]
      cases x <;> cases y <;> first | rfl | cases hxy
    · exact .pure rfl

theorem inStep_statementsFor (asked : List (String × RowSecurity.Kind)) :
    InStep (fun ss ss' => ss.map Statement.heading = ss'.map Statement.heading)
      (statementsFor asked) (statementsFor asked) := by
  induction asked with
  | nil => exact .pure rfl
  | cons about rest ih =>
    refine .bind (inStep_statement? about.1 about.2) fun x y hxy => ?_
    refine .bind ih fun ss ss' hss => .pure ?_
    rw [List.map_append, List.map_append, ← Option.toList_map, ← Option.toList_map, hxy, hss]

/-- Twins come to statements with the same names, or fail for the same reason. -/
theorem inStep_statements :
    InStep (fun ss ss' => ss.map Statement.heading = ss'.map Statement.heading)
      statements statements := by
  refine .get fun e e' h => ?_
  rw [h.catalogue]
  exact inStep_statementsFor _

/-! ### Names -/

/-- What tells the statements that an engine comes to, unless it fails. -/
def headings (e : Engine) : Except Error (List (String × RowSecurity.Kind × String)) :=
  (e.run statements).1.map (·.map Statement.heading)

/-- A new engine for a catalogue, after compiling policies, and whether they compiled. -/
def declared (c : Catalogue) (settings : Settings) (ds : List Declaration) :
    Except Error Unit × Engine := (ofSettings c settings).run (compile ds)

variable {c : Catalogue} {settings : Settings} {ds ds' : List Declaration}

theorem declared_of_compile {ps : List Policy} (h : c.compile ds = .ok ps) :
    declared c settings ds =
      (.ok (), { ofSettings c settings with executor := ⟨c, settings.optimizer, some ps⟩ }) := by
  have hx : (ofSettings c settings).executor.compile ds = .ok ⟨c, settings.optimizer, some ps⟩ :=
    Executor.compile_ofSettings h
  rw [declared, run_compile, hx]

theorem exists_compile_of_declared (h : (declared c settings ds).1 = .ok ()) :
    ∃ ps, c.compile ds = .ok ps := by
  rw [declared, run_compile] at h
  cases hx : (ofSettings c settings).executor.compile ds with
  | error fault =>
    rw [hx] at h
    cases h
  | ok x =>
    obtain ⟨ps, hps, -⟩ := Executor.exists_policies_of_compile hx
    exact ⟨ps, hps⟩

/-- Declarations in another order compile as well, and make a twin of the engine. -/
theorem twins_of_perm (hplain : ∀ d ∈ ds, d.passes .plain c = true) (hds : ds.Perm ds')
    (h : (declared c settings ds).1 = .ok ()) :
    (declared c settings ds').1 = .ok () ∧
      Twins (declared c settings ds).2 (declared c settings ds').2 := by
  obtain ⟨ps, hps⟩ := exists_compile_of_declared h
  obtain ⟨ps', hps', hperm⟩ := Catalogue.exists_compile_of_perm hds hps
  rw [declared_of_compile hps, declared_of_compile hps']
  refine ⟨rfl, rfl, ⟨settings.maxPasses, rfl, rfl⟩, rfl, ps, ps', rfl, rfl, hperm, ?_⟩
  intro p hp r a
  obtain ⟨d, hd, raw, hcompiled⟩ := Catalogue.exists_of_mem_compile hps hp
  exact hcompiled.passes_databasePermission (hplain d hd) r a

/-- The order of parts does not show in the id of an optimized condition, however few the passes.
    So the order of declarations does not show in the names of statements, however the engine is
    run, nor in whether it fails to come to them. -/
theorem names_stable :
    (∀ (c d : Condition), c.namesPlain = true → c.Alike d → ∀ passes,
      ((Optimizer.standard passes).optimize c).id = ((Optimizer.standard passes).optimize d).id) ∧
    ∀ (c : Catalogue) (settings : Settings) (ds ds' : List Declaration),
      (∀ d ∈ ds, d.passes .plain c = true) → ds.Perm ds' → (declared c settings ds).1 = .ok () →
      (declared c settings ds').1 = .ok () ∧
        headings (declared c settings ds).2 = headings (declared c settings ds').2 := by
  refine ⟨fun c d hc h passes => (Optimizer.alike_optimize passes hc h).id_eq, ?_⟩
  intro c settings ds ds' hplain hds h
  obtain ⟨h', htwins⟩ := twins_of_perm hplain hds h
  exact ⟨h', (inStep_statements _ _ htwins).1.map_eq fun _ _ => id⟩

/-! ### Articles -/

/-- Articles have an author. -/
def article : Resource := (Resource.ofName "Article").withProps ["author"]

/-- A catalogue of articles. -/
def articles : Catalogue := ⟨.ofList [("Article", article)], rfl⟩

/-- Authors read what they have written in English. -/
def authors : Declaration :=
  .ofScripts "authors" (some (.ofList ["author"]))
    [.resource "Article"
      [.when (.allOf [.variant (.ofList ["en"]), .owner "author"]), .grant [.read]]]

/-- So do editors, in whatever order this is said. -/
def editors : Declaration :=
  .ofScripts "editors" (some (.ofList ["editor"]))
    [.resource "Article"
      [.when (.allOf [.owner "author", .variant (.ofList ["en"])]), .grant [.read]]]

/-- The condition that both come to. -/
def authorsOrEditors : Condition :=
  .anyOf
    [.allOf [.role (.ofList ["author"]), .allOf [.variant (.ofList ["en"]), .owner "author"]],
      .allOf [.role (.ofList ["editor"]), .allOf [.owner "author", .variant (.ofList ["en"])]]]

/-- The same with editors first, and what they read before their role. -/
def editorsOrAuthors : Condition :=
  .anyOf
    [.allOf [.allOf [.owner "author", .variant (.ofList ["en"])], .role (.ofList ["editor"])],
      .allOf [.role (.ofList ["author"]), .allOf [.variant (.ofList ["en"]), .owner "author"]]]

/-- Authors and editors share one statement on reading, whoever is declared first. -/
theorem names_articles :
    ((Optimizer.standard 2).optimize authorsOrEditors).id =
      ((Optimizer.standard 2).optimize editorsOrAuthors).id ∧
    (declared articles .usual [editors, authors]).1 = .ok () ∧
    headings (declared articles .usual [authors, editors]).2 =
      headings (declared articles .usual [editors, authors]).2 ∧
    (headings (declared articles .usual [authors, editors]).2).map List.length = .ok 1 := by
  have halike : authorsOrEditors.Alike editorsOrAuthors :=
    .anyOf (.trans (.swap _ _ _) (.cons (.allOf (.swap _ _ _)) (.refl _)))
  have hplain : ∀ d ∈ [authors, editors], d.passes .plain articles = true :=
    List.forall_mem_cons.2 ⟨Declaration.passes_ofScripts rfl rfl,
      List.forall_mem_singleton.2 (Declaration.passes_ofScripts rfl rfl)⟩
  obtain ⟨hconditions, hstatements⟩ := names_stable
  obtain ⟨hcompiled, hheadings⟩ :=
    hstatements articles .usual [authors, editors] [editors, authors] hplain (.swap _ _ _) rfl
  exact ⟨hconditions _ _ rfl halike 2, hcompiled, hheadings, rfl⟩

end Engine

end Authorization
