import Authorization.Engine.Basic

/-!
# Answers of an engine

What an engine answers a question with is what its executor resolves, optimized
if that is asked for (`Executor.answer`). Answers depend on a session only by
the names of its roles, so an answer that is kept for these names stands for all
sessions with them.

An engine is *faithful* if it keeps no other answers than those it would give
anew. A new engine is, and remains so whatever it is asked
(`Engine.Reachable.faithful`); so it answers what its executor does, whether it
keeps answers or not (`Engine.run_resolve`).
-/

namespace Authorization

/-! ### Running operations -/

namespace Engine

variable {α β : Type} {e : Engine}

theorem run_bind (op : Operation α) (f : α → Operation β) :
    e.run (op >>= f) = match e.run op with
      | (.ok a, e') => e'.run (f a)
      | (.error fault, e') => (.error fault, e') := by
  simp only [run, ExceptT.run_bind, StateT.run_bind]
  show (match op.run.run e with | (outcome, e') => _) = _
  rcases op.run.run e with ⟨_ | a, e'⟩
  · rfl
  · rfl

theorem run_get : e.run get = (.ok e, e) := rfl

theorem run_ofExcept (x : Except Error α) : e.run (ofExcept x) = (x, e) := by cases x <;> rfl

theorem run_ask (question : Executor → Except Error α) :
    e.run (ask question) = (question e.executor, e) := by
  rw [ask, run_bind, run_get]
  exact run_ofExcept _

theorem run_optimize (p : Permission) :
    ∃ ws, e.run (optimize p) = (.ok (e.executor.optimizer.optimizePermission p),
      { e with warnings := ws }) := by
  rw [optimize, run_bind, run_get]
  simp only
  cases h : e.executor.optimizer.settles p with
  | true => exact ⟨e.warnings, rfl⟩
  | false => exact ⟨e.warnings ++ [.unsettled], rfl⟩

end Engine

/-! ### Answers -/

/-- Every set of names is that of the roles of some session. -/
theorem Session.exists_roleNames_eq (names : NameSet) : ∃ s : Session, s.roleNames = names := by
  refine ⟨⟨none, .ofList (names.toList.map .everywhere), false, none⟩, SortedSet.ext fun n => ?_⟩
  rw [roleNames, SortedSet.mem_ofList, List.mem_map, SortedSet.mem_def]
  constructor
  · rintro ⟨role, hrole, rfl⟩
    obtain ⟨n, hn, rfl⟩ := List.mem_map.1 (SortedSet.mem_ofList.1 hrole)
    exact hn
  · intro hn
    exact ⟨.everywhere n, SortedSet.mem_ofList.2 (List.mem_map_of_mem hn), rfl⟩

namespace Executor

/-- What is answered to a session that asks for an action. -/
def answer (x : Executor) (s : Session) (a : Action) (resource : String) (key : Option String)
    (optimized : Bool) : Except Error Permission :=
  (x.resolve s a resource key).map fun p =>
    if optimized then x.optimizer.optimizePermission p else p

variable {x : Executor} {s s' : Session} {a : Action} {resource : String} {key : Option String}
  {optimized : Bool}

theorem appliesTo_congr (h : s.roleNames = s'.roleNames) (p : Policy) :
    p.appliesTo s = p.appliesTo s' := by
  rw [Bool.eq_iff_iff, Policy.appliesTo_eq_true, Policy.appliesTo_eq_true, h]

/-- Sessions with the same role names get the same answers. -/
theorem answer_congr (h : s.roleNames = s'.roleNames) :
    x.answer s a resource key optimized = x.answer s' a resource key optimized := by
  have hfilter : ∀ ps : List Policy, ps.filter (·.appliesTo s) = ps.filter (·.appliesTo s') :=
    fun ps => congrArg ps.filter (funext (appliesTo_congr h))
  simp only [answer, resolve, merged, hfilter]

/-- Without policies nothing is answered. -/
theorem answer_of_not_compiled (h : x.policies = none) :
    x.answer s a resource key optimized = .error (.configuration .notCompiled) := by
  rw [answer, resolve, compiled, h]
  rfl

theorem resolve_of_compiled {ps : List Policy} (h : x.policies = some ps) {r : Resource}
    (hr : x.catalogue.get? resource = some r) :
    x.resolve s a resource key =
      .ok (if r.isCalculated key && a != .read then .deny else merged ps s r a key) := by
  rw [resolve, compiled, h, Catalogue.get_eq_ok.2 hr]
  rfl

theorem answer_of_compiled {ps : List Policy} (h : x.policies = some ps) {r : Resource}
    (hr : x.catalogue.get? resource = some r) :
    x.answer s a resource key optimized = .ok
      (let p := if r.isCalculated key && a != .read then .deny else merged ps s r a key
        if optimized then x.optimizer.optimizePermission p else p) := by
  rw [answer, resolve_of_compiled h hr]
  rfl

end Executor

namespace Engine

variable {e : Engine} {s : Session} {a : Action} {resource : String} {key : Option String}
  {optimized : Bool}

/-- Asked anew, an engine answers what its executor does. -/
theorem run_resolveAnew (e : Engine) (s : Session) (a : Action) (resource : String)
    (key : Option String) (optimized : Bool) :
    ∃ ws, e.run (resolveAnew s a resource key optimized) =
      (e.executor.answer s a resource key optimized, { e with warnings := ws }) := by
  rw [resolveAnew, run_bind, run_ask, Executor.answer]
  cases e.executor.resolve s a resource key with
  | error fault => exact ⟨e.warnings, rfl⟩
  | ok p =>
    cases optimized with
    | false => exact ⟨e.warnings, rfl⟩
    | true => exact run_optimize p

/-! ### Answers kept -/

/-- Every answer that is kept is the one that would be given anew, to any session with the
    names of roles that it is kept for. -/
def Faithful (e : Engine) : Prop :=
  ∀ cache, e.cache = some cache → ∀ q p, cache.get? q = some p → ∀ s, s.roleNames = q.roles →
    e.executor.answer s q.action q.resource q.key q.optimized = .ok p

theorem Faithful.of_eq {e' : Engine} (h : e.Faithful) (hcache : e'.cache = e.cache)
    (hexecutor : e'.executor = e.executor) : e'.Faithful := by
  intro cache hc q p hq s hs
  rw [hexecutor]
  exact h cache (hcache.symm.trans hc) q p hq s hs

theorem faithful_ofSettings (c : Catalogue) (settings : Settings) :
    (ofSettings c settings).Faithful := by
  intro cache hc q p hq
  unfold ofSettings at hc
  split at hc
  · cases hc
    cases hq
  · cases hc

/-- A faithful engine answers what its executor does, and stays faithful. -/
theorem run_resolve (h : e.Faithful) :
    (e.run (resolve s a resource key optimized)).1 = e.executor.answer s a resource key optimized ∧
      (e.run (resolve s a resource key optimized)).2.executor = e.executor ∧
      (e.run (resolve s a resource key optimized)).2.settings = e.settings ∧
      (e.run (resolve s a resource key optimized)).2.Faithful := by
  rw [resolve, run_bind, run_get]
  simp only
  cases hq : e.cache.bind (·.get? (Question.of s a resource key optimized)) with
  | some p =>
    obtain ⟨cache, hc, hp⟩ := Option.bind_eq_some_iff.1 hq
    exact ⟨(h cache hc _ p hp s rfl).symm, rfl, rfl, h⟩
  | none =>
    -- Warnings apart, asking anew leaves the engine as it is; only an answer is kept.
    obtain ⟨ws, hanew⟩ := run_resolveAnew e s a resource key optimized
    simp only
    rw [run_bind, hanew]
    cases hanswer : e.executor.answer s a resource key optimized with
    | error fault => exact ⟨rfl, rfl, rfl, h.of_eq rfl rfl⟩
    | ok p =>
      refine ⟨rfl, rfl, rfl, ?_⟩
      intro cache hc q p' hq' s' hs'
      obtain ⟨cache', hc', rfl⟩ := Option.map_eq_some_iff.1 hc
      rw [Cache.get?_insert] at hq'
      split at hq'
      · -- The answer that was just kept: it is the same for all sessions with these roles.
        rename_i hnew
        cases hq'
        subst hnew
        exact (Executor.answer_congr hs').trans hanswer
      · exact h cache' hc' q p' hq' s' hs'

/-- Before policies are compiled no answer is kept. -/
theorem Faithful.get?_eq_none (h : e.Faithful) (hps : e.executor.policies = none) {cache : Cache}
    (hc : e.cache = some cache) (q : Question) : cache.get? q = none := by
  refine Option.eq_none_iff_forall_ne_some.2 fun p hp => ?_
  obtain ⟨s, hs⟩ := Session.exists_roleNames_eq q.roles
  have hanswer := h cache hc q p hp s hs
  rw [Executor.answer_of_not_compiled hps] at hanswer
  cases hanswer

/-! ### Engines in use -/

/-- The engines that there can be: new ones, and what is left of one by compiling policies,
    resolving, forgetting answers, and warning. -/
inductive Reachable : Engine → Prop
  | new (c : Catalogue) (settings : Settings) : Reachable (ofSettings c settings)
  | compile {e : Engine} (ds : List Declaration) : Reachable e → Reachable (e.run (compile ds)).2
  | resolve {e : Engine} (s : Session) (a : Action) (resource : String) (key : Option String)
    (optimized : Bool) : Reachable e → Reachable (e.run (resolve s a resource key optimized)).2
  | clearCache {e : Engine} : Reachable e → Reachable (e.run clearCache).2
  | warn {e : Engine} (w : Warning) : Reachable e → Reachable (e.run (warn w)).2

theorem faithful_compile (h : e.Faithful) (ds : List Declaration) :
    (e.run (compile ds)).2.Faithful := by
  rw [compile, run_bind, run_ask]
  cases hx : e.executor.compile ds with
  | error fault => exact h
  | ok x =>
    -- Nothing was compiled before, so nothing is kept.
    have hps : e.executor.policies = none := by
      rw [Executor.compile] at hx
      cases hcompiled : e.executor.catalogue.compile ds with
      | error fault => rw [hcompiled] at hx; cases hx
      | ok ps =>
        rw [hcompiled] at hx
        change (if e.executor.policies.isSome then _ else _) = _ at hx
        split at hx
        · cases hx
        · rename_i hnone
          exact Option.not_isSome_iff_eq_none.1 hnone
    intro cache hc q p hp
    rw [h.get?_eq_none hps hc] at hp
    cases hp

theorem faithful_clearCache : (e.run clearCache).2.Faithful := by
  intro cache hc q p hp
  obtain ⟨_, _, rfl⟩ := Option.map_eq_some_iff.1 hc
  cases hp

/-- Engines keep no other answers than those they would give anew. -/
theorem Reachable.faithful (h : e.Reachable) : e.Faithful := by
  induction h with
  | new c settings => exact faithful_ofSettings c settings
  | compile ds _ ih => exact faithful_compile ih ds
  | resolve s a resource key optimized _ ih => exact (run_resolve ih).2.2.2
  | clearCache _ _ => exact faithful_clearCache
  | warn w _ ih => exact ih.of_eq rfl rfl

end Engine

end Authorization
