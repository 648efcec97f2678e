import Authorization.Proofs.Engine.Statements
import Authorization.Proofs.Simplification.Leaves

/-!
# Statements with and without optimizing

Whether permissions are optimized before the database gets them is a matter of
speed. It changes the text of statements, but not whether there is one: computed
data is the one thing that has no predicate, and optimizing neither loses it nor
brings it up. So a permission has the same fate before and after optimizing
(`Engine.SameFate`), and the engine comes to a statement, or to none, or fails, for
the same resources and kinds (`Engine.matches_statement?`).

* `Engine.statements_fail_alike`: what fails, and that optimizing changes nothing
  about it.
-/

namespace Authorization

open Condition (FoundIn mem_leaves_iff)

namespace Engine

open RowSecurity (Statement failsIff_predicate)

/-- Permissions have predicates both, or neither, or fail for the same reason. -/
def SameFate (p q : Permission) : Prop :=
  ∀ storage, Matches (fun x y => x.isSome = y.isSome) (rowPredicate? storage p)
    (rowPredicate? storage q)

theorem SameFate.symm {p q : Permission} (h : SameFate p q) : SameFate q p :=
  fun storage => (h storage).symm fun _ _ => Eq.symm

/-- Optimizing does not change whether there is a predicate. -/
theorem sameFate_optimizePermission (o : Optimizer) {p : Permission}
    (hp : p.passes .plain = true) : SameFate p (o.optimizePermission p) := by
  intro storage
  cases p with
  | deny => exact .ok rfl
  | allow => exact .ok rfl
  | when c =>
    have hleaves := o.mem_leaves_optimize (x := .calculated) hp rfl
    exact ((failsIff_predicate storage c).matches (failsIff_predicate storage (o.optimize c))
      hleaves.symm).bind fun _ _ _ => .ok rfl

/-! ### Statements -/

variable {α β : Type} {e : Engine}

/-- What an operation goes on with counts by its outcome only, where the engine does not matter
    any more. -/
theorem fst_run_bind {op : Operation α} {f : α → Operation β} {g : α → Except Error β}
    (h : ∀ a (e' : Engine), (e'.run (f a)).1 = g a) :
    (e.run (op >>= f)).1 = (e.run op).1 >>= g := by
  rw [run_bind]
  rcases e.run op with ⟨_ | a, e'⟩
  · rfl
  · exact h a e'

/-- The permission in the database, optimized if the settings say so. -/
theorem fst_run_databasePermission (e : Engine) (a : Action) (resource : String) :
    (e.run (databasePermission a resource)).1 = (do
      let p ← e.executor.resolveForDatabase a resource
      return if e.settings.optimizeFilters then e.executor.optimizer.optimizePermission p
        else p) := by
  rw [databasePermission, run_bind, run_ask]
  cases e.executor.resolveForDatabase a resource with
  | error fault => rfl
  | ok p =>
    simp only
    rw [run_bind, run_get]
    simp only
    split
    · obtain ⟨ws, hrun⟩ := @run_optimize e p
      rw [hrun]
      rfl
    · rfl

/-- The engine with or without optimizing what the database gets. -/
def optimizing (e : Engine) (optimize : Bool) : Engine :=
  { e with settings := { e.settings with optimizeFilters := optimize } }

/-- Whether permissions are optimized does not change whether they have predicates. -/
theorem matches_databasePermission {a : Action} {resource : String}
    (hplain : ∀ p, e.executor.resolveForDatabase a resource = .ok p → p.passes .plain = true) :
    Matches SameFate ((e.optimizing true).run (databasePermission a resource)).1
      ((e.optimizing false).run (databasePermission a resource)).1 := by
  rw [fst_run_databasePermission, fst_run_databasePermission]
  show Matches SameFate (e.executor.resolveForDatabase a resource >>= _)
    (e.executor.resolveForDatabase a resource >>= _)
  cases hp : e.executor.resolveForDatabase a resource with
  | error fault => exact .error fault
  | ok p => exact .ok (sameFate_optimizePermission e.executor.optimizer (hplain p hp)).symm

/-- Nor does it change whether there is a statement, or why there is none. -/
theorem matches_statement? {resource : String} {kind : RowSecurity.Kind}
    (hplain : ∀ p, e.executor.resolveForDatabase kind.action resource = .ok p →
      p.passes .plain = true) :
    Matches (fun x y => x.isSome = y.isSome)
      ((e.optimizing true).run (statement? resource kind)).1
      ((e.optimizing false).run (statement? resource kind)).1 := by
  have hexecutor : ∀ b, (e.optimizing b).executor = e.executor := fun _ => rfl
  simp only [statement?, run_bind, run_get, run_ofExcept, hexecutor]
  cases e.executor.catalogue.get resource with
  | error fault => exact .error fault
  | ok r =>
    simp only
    split
    · exact .ok rfl
    simp only [run_bind, run_ofExcept]
    cases e.executor.declaredForDatabase resource with
    | error fault => exact .error fault
    | ok declared =>
      cases declared with
      | false => exact .ok rfl
      | true =>
        -- With the permission at hand, the engine is not asked any more.
        have hrest : ∀ (p : Permission) (e' : Engine), (e'.run (do
            let predicate? ← ofExcept (rowPredicate? r.storage p)
            return predicate?.map (Statement.of r kind p.fingerprint))).1 = (do
              return (← rowPredicate? r.storage p).map (Statement.of r kind p.fingerprint)) := by
          intro p e'
          rw [run_bind, run_ofExcept]
          cases rowPredicate? r.storage p <;> rfl
        simp only [if_true]
        rw [fst_run_bind hrest, fst_run_bind hrest]
        refine (matches_databasePermission hplain).bind fun p q hpq => ?_
        refine (hpq r.storage).bind fun x y hxy => .ok ?_
        rw [Option.isSome_map, Option.isSome_map, hxy]

/-- What policies with plain names say in the database has plain names. -/
theorem passes_resolveForDatabase {c : Catalogue} {settings : Settings} {ds : List Declaration}
    {x : Executor} (hds : ∀ d ∈ ds, d.passes .plain c = true)
    (h : (Executor.ofSettings c settings).compile ds = .ok x) {a : Action} {resource : String}
    {p : Permission} (hp : x.resolveForDatabase a resource = .ok p) : p.passes .plain = true := by
  obtain ⟨ps, hps, hcatalogue, hpolicies⟩ := Executor.exists_policies_of_compile h
  cases hr : x.catalogue.get? resource with
  | none =>
    rw [Executor.resolveForDatabase_of_unknown hpolicies hr] at hp
    cases hp
  | some r =>
    rw [Executor.resolveForDatabase_of_compiled hpolicies hr] at hp
    cases hp
    refine Permission.passes_mergeAcross fun q hq => ?_
    obtain ⟨policy, hpolicy, rfl⟩ := List.mem_map.1 hq
    obtain ⟨d, hd, raw, hcompiled⟩ := Catalogue.exists_of_mem_compile hps hpolicy
    exact hcompiled.passes_databasePermission (hds d hd) r a

/-- A condition has no predicate just if computed data is found in it, and for this reason only;
    optimizing neither brings computed data up nor loses it. So it makes no difference for whether
    an engine has a statement, whatever it was compiled from, or fails to come to one. -/
theorem statements_fail_alike :
    (∀ (storage : Storage) (c : Condition),
      ((∃ fault, RowSecurity.predicate storage c = .error fault) ↔ FoundIn .calculated c) ∧
      ∀ fault, RowSecurity.predicate storage c = .error fault →
        fault = .calculatedInDatabase storage.table) ∧
    (∀ (c : Condition) (passes : Nat), c.namesPlain = true →
      (FoundIn .calculated ((Optimizer.standard passes).optimize c) ↔ FoundIn .calculated c)) ∧
    ∀ (c : Catalogue) (settings : Settings) (ds : List Declaration) (e : Engine),
      (∀ d ∈ ds, d.passes .plain c = true) →
      (Executor.ofSettings c settings).compile ds = .ok e.executor →
      ∀ (resource : String) (kind : RowSecurity.Kind),
        Matches (fun x y => x.isSome = y.isSome)
          ((e.optimizing true).run (statement? resource kind)).1
          ((e.optimizing false).run (statement? resource kind)).1 := by
  refine ⟨fun storage c => ?predicate, fun c passes hc => ?optimize, ?statement⟩
  case predicate =>
    rw [← mem_leaves_iff rfl]
    rcases failsIff_predicate storage c with ⟨hmem, herror⟩ | ⟨hmem, ps, hps⟩
    · rw [herror]
      exact ⟨⟨fun _ => hmem, fun _ => ⟨_, rfl⟩⟩, fun fault h => (Except.error.inj h).symm⟩
    · rw [hps]
      exact ⟨⟨nofun, fun h => absurd h hmem⟩, nofun⟩
  case optimize =>
    rw [← mem_leaves_iff rfl, ← mem_leaves_iff rfl]
    exact Optimizer.mem_leaves_optimize _ hc rfl
  case statement =>
    intro c settings ds e hds hcompile resource kind
    exact matches_statement? fun p hp => passes_resolveForDatabase hds hcompile hp

/-- What editors preview is computed, unless they have written it. -/
def previewed : Condition := .anyOf [.calculated, .owner "author", .calculated]

/-- Editors read previews. -/
def previews : Declaration :=
  .ofScripts "previews" (some (.ofList ["editor"]))
    [.resource "Article" [.when previewed, .grant [.read]]]

/-- A preview that is dropped as a repetition leaves another one, so there is no statement with
    optimizing either; what authors read is not affected. -/
theorem fails_previews :
    FoundIn .calculated ((Optimizer.standard 2).optimize previewed) ∧
      (((declared articles .usual [previews, authors]).2.optimizing true).run
        (statement? "Article" .select)).1 = .error (.calculatedInDatabase "article") ∧
      (((declared articles .usual [authors]).2.optimizing true).run
        (statement? "Article" .select)).1.map Option.isSome = .ok true := by
  obtain ⟨_, hoptimize, hstatement⟩ := statements_fail_alike
  have hplain' : ∀ d ∈ [authors], d.passes .plain articles = true :=
    List.forall_mem_singleton.2 (Declaration.passes_ofScripts rfl rfl)
  have hplain : ∀ d ∈ [previews, authors], d.passes .plain articles = true :=
    List.forall_mem_cons.2 ⟨Declaration.passes_ofScripts rfl rfl, hplain'⟩
  have hfails : (((declared articles .usual [previews, authors]).2.optimizing false).run
      (statement? "Article" .select)).1 = .error (.calculatedInDatabase "article") := rfl
  refine ⟨(hoptimize previewed 2 rfl).2 (.anyOf List.mem_cons_self .self), ?_, ?_⟩
  · have hmatches := hstatement articles .usual _ (declared articles .usual [previews, authors]).2
      hplain rfl "Article" .select
    rw [hfails] at hmatches
    exact hmatches.eq_error
  · exact (hstatement articles .usual _ (declared articles .usual [authors]).2 hplain' rfl "Article"
      .select).map_eq fun _ _ => id

end Engine

end Authorization
