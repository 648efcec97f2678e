import Authorization.Proofs.Engine.Views

/-!
# Engines in use

An engine is used step by step, by any sessions in turn (`Use.run`): policies
are compiled, permissions are resolved, privileges are looked at, and answers
forgotten. Privileges that were once taken out stay, each with a view on it that
remembers what it was asked.

What comes out of a step is what would come out if nothing were ever kept or
remembered, and the executor were asked each time (`Bare.step`). The reason is an
invariant of the steps (`Use.Sound`): engines keep, and views remember, only what
the executor answers; and what it answers does not change once policies are
compiled, while before nothing is answered. So a use goes the same way with and
without answers kept (`Use.run_eq_and_steady`).
-/

namespace Authorization

/-! ### Steps -/

/-- A step in the use of an engine. Views are meant by the order in which they were taken out. -/
inductive Use.Step
  /-- Policies are compiled. -/
  | compile (ds : List Declaration)
  /-- A permission is resolved for a session. -/
  | resolve (s : Session) (a : Action) (resource : String) (key : Option String)
    (optimized : Bool)
  /-- Privileges on a resource, or an object of it, are taken out. -/
  | takeOut (s : Session) (resource : String) (object : Option Record)
  /-- Privileges are taken out again, for another object. -/
  | rebind (view : Nat) (object : Record)
  /-- It is checked whether an action can be done, on a key or on the object. -/
  | check (view : Nat) (a : Action) (key : Option String)
  /-- It is looked up in a view whether an action can be done, on a key or on the object. -/
  | lookUp (view : Nat) (a : Action) (key : Option String)
  /-- It is looked up in a view what can be done with each key. -/
  | lookUpAll (view : Nat)
  /-- The answers kept are forgotten. -/
  | clearCache

/-- What a step comes to, if it does not fail. -/
inductive Use.Answer
  /-- There is nothing to say. -/
  | done
  /-- There is no such view. -/
  | noView
  /-- A permission. -/
  | permission (p : Permission)
  /-- Whether an action can be done. -/
  | decision (allowed : Bool)
  /-- What can be done with each key. -/
  | map (m : NameMap (SortedMap Action Bool))

/-- An engine in use: with the privileges taken out, and what views on them remember. -/
structure Use where
  /-- The engine. -/
  engine : Engine
  /-- The privileges taken out. -/
  views : List (Privileges × Memo)

namespace Use

/-- A new engine, of which nothing is taken out. -/
def ofSettings (c : Catalogue) (settings : Settings) : Use := ⟨.ofSettings c settings, []⟩

/-- Runs an operation of the engine. -/
def ask {α : Type} (u : Use) (op : Operation α) (f : α → Answer) : Except Error Answer × Use :=
  ((u.engine.run op).1.map f, { u with engine := (u.engine.run op).2 })

/-- Runs an operation of the engine on privileges that were taken out. -/
def askView (u : Use) (view : Nat) (op : Privileges → Operation Bool) :
    Except Error Answer × Use :=
  match u.views[view]? with
  | some (p, _) => u.ask (op p) .decision
  | none => (.ok .noView, u)

/-- Runs an operation of a view. -/
def look {α : Type} (u : Use) (view : Nat) (op : Privileges → Viewing α) (f : α → Answer) :
    Except Error Answer × Use :=
  match u.views[view]? with
  | some (p, memo) =>
    let after := View.run memo u.engine (op p)
    (after.1.map f, ⟨after.2.2, u.views.set view (p, after.2.1)⟩)
  | none => (.ok .noView, u)

/-- Takes out privileges, of which a view remembers nothing yet. -/
def takeOut (u : Use) (op : Operation Privileges) : Except Error Answer × Use :=
  match u.engine.run op with
  | (.ok p, e) => (.ok .done, ⟨e, u.views ++ [(p, [])]⟩)
  | (.error fault, e) => (.error fault, { u with engine := e })

/-- What a step comes to, and what it leaves. -/
def step (u : Use) : Step → Except Error Answer × Use
  | .compile ds => u.ask (Engine.compile ds) fun _ => .done
  | .resolve s a resource key optimized =>
    u.ask (Engine.resolve s a resource key optimized) .permission
  | .takeOut s resource object => u.takeOut (Privileges.of s resource object)
  | .rebind view object =>
    match u.views[view]? with
    | some (p, _) => (.ok .done, { u with views := u.views ++ [(p.withObject object, [])] })
    | none => (.ok .noView, u)
  | .check view a key => u.askView view fun p => p.can a key
  | .lookUp view a key => u.look view (fun p => View.can p a key) .decision
  | .lookUpAll view => u.look view View.toMap .map
  | .clearCache => u.ask Engine.clearCache fun _ => .done

/-- What steps come to, one after the other, and what they leave. -/
def run (u : Use) : List Step → List (Except Error Answer) × Use
  | [] => ([], u)
  | st :: sts => ((u.step st).1 :: ((u.step st).2.run sts).1, ((u.step st).2.run sts).2)

end Use

/-! ### Steps without keeping anything -/

/-- An executor that is asked directly, and the privileges taken out. -/
structure Bare where
  /-- The executor. -/
  executor : Executor
  /-- The privileges taken out. -/
  views : List Privileges

namespace Bare

/-- What is found out of privileges that were taken out. -/
def look {α : Type} (b : Bare) (view : Nat) (decide : Privileges → Except Error α)
    (f : α → Use.Answer) : Except Error Use.Answer :=
  match b.views[view]? with
  | some p => (decide p).map f
  | none => .ok .noView

/-- What a step comes to, and what it leaves. -/
def step (b : Bare) : Use.Step → Except Error Use.Answer × Bare
  | .compile ds =>
    match b.executor.compile ds with
    | .ok x => (.ok .done, { b with executor := x })
    | .error fault => (.error fault, b)
  | .resolve s a resource key optimized =>
    ((b.executor.answer s a resource key optimized).map .permission, b)
  | .takeOut s resource object =>
    match b.executor.catalogue.get resource with
    | .ok r => (.ok .done, { b with views := b.views ++ [⟨s, r, object⟩] })
    | .error fault => (.error fault, b)
  | .rebind view object =>
    match b.views[view]? with
    | some p => (.ok .done, { b with views := b.views ++ [p.withObject object] })
    | none => (.ok .noView, b)
  | .check view a key | .lookUp view a key =>
    (b.look view (fun p => p.decision b.executor a key) .decision, b)
  | .lookUpAll view =>
    (b.look view (fun p => decideKeys (fun key a => p.decision b.executor a (some key))
      p.resource.securedKeys ∅) .map, b)
  | .clearCache => (.ok .done, b)

/-- What steps come to, one after the other. -/
def run (b : Bare) : List Use.Step → List (Except Error Use.Answer)
  | [] => []
  | st :: sts => (b.step st).1 :: (b.step st).2.run sts

end Bare

/-! ### Compiling -/

namespace Executor

variable {x x' : Executor} {ds : List Declaration}

/-- Policies are compiled only where there are none yet. -/
theorem compile_eq_ok (h : x.compile ds = .ok x') :
    x.policies = none ∧ ∃ ps, x' = { x with policies := some ps } := by
  rw [compile] at h
  cases hps : x.catalogue.compile ds with
  | error fault =>
    rw [hps] at h
    cases h
  | ok ps =>
    rw [hps] at h
    change (if x.policies.isSome then _ else _) = _ at h
    split at h
    · cases h
    · rename_i hnone
      exact ⟨Option.not_isSome_iff_eq_none.1 hnone, ps, (Except.ok.inj h).symm⟩

end Executor

namespace Engine

variable {e : Engine}

theorem run_compile (e : Engine) (ds : List Declaration) :
    e.run (compile ds) = match e.executor.compile ds with
      | .ok x => (.ok (), { e with executor := x })
      | .error fault => (.error fault, e) := by
  rw [compile, run_bind, run_ask]
  cases e.executor.compile ds with
  | error fault => rfl
  | ok x => rfl

/-- A permission that cannot be resolved leaves the engine as it is. -/
theorem run_resolve_error {s : Session} {a : Action} {resource : String} {key : Option String}
    {optimized : Bool} {fault : Error}
    (h : (e.run (resolve s a resource key optimized)).1 = .error fault) :
    (e.run (resolve s a resource key optimized)).2 = e := by
  rw [resolve, run_bind, run_get] at h ⊢
  simp only at h ⊢
  cases hq : e.cache.bind (·.get? (Question.of s a resource key optimized)) with
  | some p => rfl
  | none =>
    rw [hq] at h
    simp only at h ⊢
    rw [run_bind] at h ⊢
    cases hresolve : e.executor.resolve s a resource key with
    | error fault' => rw [resolveAnew, run_bind, run_ask, hresolve]
    | ok p =>
      -- What is resolved is answered, so this cannot have failed.
      obtain ⟨ws, hanew⟩ := run_resolveAnew e s a resource key optimized
      rw [hanew, Executor.answer, hresolve] at h
      cases h

end Engine

theorem Privileges.decision_of_not_compiled {x : Executor} (h : x.policies = none)
    (p : Privileges) (a : Action) (key : Option String) :
    p.decision x a key = .error (.configuration .notCompiled) := by
  rw [decision, Executor.answer_of_not_compiled h]
  rfl

/-! ### What is kept and remembered -/

theorem View.Sound.of_engine {x : Executor} {p : Privileges} {memo : Memo} {e e' : Engine}
    (h : View.Sound x p memo e) (hexecutor : e'.executor = e.executor) (hfaithful : e'.Faithful) :
    View.Sound x p memo e' := ⟨hexecutor.trans h.executor, hfaithful, h.truthful⟩

namespace Use

variable {u : Use} {α : Type}

/-- The executor and the privileges alone, without what is kept and remembered. -/
def bare (u : Use) : Bare := ⟨u.engine.executor, u.views.map Prod.fst⟩

/-- The engine keeps, and the views remember, nothing but what the executor answers. -/
structure Sound (u : Use) : Prop where
  /-- Answers that are kept are those that would be given. -/
  faithful : u.engine.Faithful
  /-- What is remembered is what is decided. -/
  views : ∀ view ∈ u.views, View.Sound u.engine.executor view.1 view.2 u.engine

/-- A use goes on as it does without keeping anything. -/
structure GoesAs (next : Except Error Answer × Use) (bare : Except Error Answer × Bare) :
    Prop where
  /-- What comes out is the same. -/
  answer : next.1 = bare.1
  /-- What is left is the same. -/
  left : next.2.bare = bare.2
  /-- Nothing but what the executor answers is kept and remembered. -/
  sound : next.2.Sound

theorem sound_ofSettings (c : Catalogue) (settings : Settings) : (ofSettings c settings).Sound :=
  ⟨Engine.faithful_ofSettings c settings, fun _ h => absurd h List.not_mem_nil⟩

/-- With another engine that has the same executor. -/
theorem Sound.withEngine (h : u.Sound) {e : Engine} (hexecutor : e.executor = u.engine.executor)
    (hfaithful : e.Faithful) : Sound { u with engine := e } where
  faithful := hfaithful
  views view hview := by
    rw [hexecutor]
    exact (h.views view hview).of_engine hexecutor hfaithful

/-- With a view that remembers nothing yet. -/
theorem Sound.withView (h : u.Sound) (p : Privileges) :
    Sound { u with views := u.views ++ [(p, [])] } where
  faithful := h.faithful
  views view hview := by
    rcases List.mem_append.1 hview with hview | hview
    · exact h.views view hview
    · cases List.mem_singleton.1 hview
      exact ⟨rfl, h.faithful, nofun⟩

theorem bare_withView (u : Use) (p : Privileges) :
    bare { u with views := u.views ++ [(p, [])] } =
      { u.bare with views := u.bare.views ++ [p] } := by
  rw [bare, List.map_append]
  rfl

theorem goesAs_ask (h : u.Sound) {op : Operation α} {outcome : Except Error α}
    (hoperation : (u.engine.run op).1 = outcome ∧
      (u.engine.run op).2.executor = u.engine.executor ∧ (u.engine.run op).2.Faithful)
    (f : α → Answer) : GoesAs (u.ask op f) (outcome.map f, u.bare) := by
  obtain ⟨houtcome, hexecutor, hfaithful⟩ := hoperation
  exact ⟨congrArg (Except.map f) houtcome, congrArg (Bare.mk · _) hexecutor,
    h.withEngine hexecutor hfaithful⟩

theorem getElem?_bare (u : Use) (view : Nat) :
    u.bare.views[view]? = (u.views[view]?).map Prod.fst := List.getElem?_map

theorem goesAs_askView (h : u.Sound) (view : Nat) (a : Action) (key : Option String) :
    GoesAs (u.askView view fun p => p.can a key)
      (u.bare.look view (fun p => p.decision u.engine.executor a key) .decision, u.bare) := by
  rw [askView, Bare.look, getElem?_bare]
  cases u.views[view]? with
  | none => exact ⟨rfl, rfl, h⟩
  | some v => exact goesAs_ask h (Privileges.run_can h.faithful v.1 a key) .decision

theorem goesAs_look (h : u.Sound) (view : Nat) {op : Privileges → Viewing α}
    {outcome : Privileges → Except Error α}
    (hop : ∀ p, View.Answers u.engine.executor p (op p) (outcome p)) (f : α → Answer) :
    GoesAs (u.look view op f) (u.bare.look view outcome f, u.bare) := by
  rw [look, Bare.look, getElem?_bare]
  cases hview : u.views[view]? with
  | none => exact ⟨rfl, rfl, h⟩
  | some v =>
    obtain ⟨p, memo⟩ := v
    obtain ⟨houtcome, hsound⟩ := hop p memo u.engine (h.views _ (List.mem_of_getElem? hview))
    have hviews (memo' : Memo) : (u.views.set view (p, memo')).map Prod.fst =
        u.views.map Prod.fst := by
      have hp : (u.views.map Prod.fst)[view]? = some p := by rw [List.getElem?_map, hview]; rfl
      rw [List.map_set]
      exact (List.getElem?_eq_some_iff.1 hp).2 ▸ List.set_getElem_self _
    refine ⟨congrArg (Except.map f) houtcome, ?_, hsound.faithful, fun v hv => ?_⟩
    · exact (congrArg (Bare.mk · _) hsound.executor).trans (congrArg (Bare.mk _) (hviews _))
    · -- The view that was looked at remembers more; the engine has its executor still.
      have hexecutor := hsound.executor
      rcases List.mem_or_eq_of_mem_set hv with hv | rfl
      · exact hexecutor ▸ (h.views v hv).of_engine hexecutor hsound.faithful
      · exact hexecutor ▸ hsound

theorem goesAs_compile (h : u.Sound) (ds : List Declaration) :
    GoesAs (u.step (.compile ds)) (u.bare.step (.compile ds)) := by
  have hrun : u.engine.run (Engine.compile ds) = _ := u.engine.run_compile ds
  have hfaithful := Engine.faithful_compile h.faithful ds
  rw [hrun] at hfaithful
  simp only [step, ask, hrun, Bare.step, bare]
  cases hx : u.engine.executor.compile ds with
  | error fault => exact ⟨rfl, rfl, h⟩
  | ok x =>
    rw [hx] at hfaithful
    refine ⟨rfl, rfl, hfaithful, fun view hview => ⟨rfl, hfaithful, fun a key allowed hmemo => ?_⟩⟩
    -- There were no policies before, so nothing could be decided and remembered.
    have hdecision := (h.views view hview).truthful a key allowed hmemo
    rw [Privileges.decision_of_not_compiled (Executor.compile_eq_ok hx).1] at hdecision
    cases hdecision

theorem goesAs_takeOut (h : u.Sound) (s : Session) (resource : String) (object : Option Record) :
    GoesAs (u.step (.takeOut s resource object)) (u.bare.step (.takeOut s resource object)) := by
  have hrun : u.engine.run (Privileges.of s resource object) =
      ((u.engine.executor.catalogue.get resource).map (Privileges.mk s · object), u.engine) := by
    rw [Privileges.of, Engine.run_bind, Engine.run_ask]
    cases u.engine.executor.catalogue.get resource with
    | error fault => rfl
    | ok r => rfl
  simp only [step, takeOut, hrun, Bare.step, bare]
  cases u.engine.executor.catalogue.get resource with
  | error fault => exact ⟨rfl, rfl, h⟩
  | ok r => exact ⟨rfl, bare_withView u ⟨s, r, object⟩, h.withView ⟨s, r, object⟩⟩

/-- Each step goes as it does without keeping anything. -/
theorem goesAs_step (h : u.Sound) (st : Step) : GoesAs (u.step st) (u.bare.step st) := by
  cases st with
  | compile ds => exact goesAs_compile h ds
  | resolve s a resource key optimized =>
    obtain ⟨houtcome, hexecutor, -, hfaithful⟩ :=
      @Engine.run_resolve u.engine s a resource key optimized h.faithful
    exact goesAs_ask h ⟨houtcome, hexecutor, hfaithful⟩ .permission
  | takeOut s resource object => exact goesAs_takeOut h s resource object
  | rebind view object =>
    simp only [step, Bare.step, getElem?_bare]
    cases u.views[view]? with
    | none => exact ⟨rfl, rfl, h⟩
    | some v => exact ⟨rfl, bare_withView u _, h.withView (v.1.withObject object)⟩
  | check view a key => exact goesAs_askView h view a key
  | lookUp view a key => exact goesAs_look h view (fun p => View.answers_can p a key) .decision
  | lookUpAll view => exact goesAs_look h view View.answers_toMap .map
  | clearCache => exact goesAs_ask h ⟨rfl, rfl, Engine.faithful_clearCache⟩ fun _ => .done

/-- So do all steps together, and they leave nothing kept but what the executor answers. -/
theorem run_bare (h : u.Sound) (sts : List Step) :
    (u.run sts).1 = u.bare.run sts ∧ (u.run sts).2.Sound := by
  induction sts generalizing u with
  | nil => exact ⟨rfl, h⟩
  | cons st sts ih =>
    obtain ⟨hanswer, hleft, hsound⟩ := goesAs_step h st
    obtain ⟨hanswers, hsounds⟩ := ih hsound
    refine ⟨?_, hsounds⟩
    rw [run, Bare.run, hanswer, hanswers, hleft]

/-- With policies once compiled, every step leaves the executor as it is. -/
theorem executor_step (h : u.Sound) (hcompiled : u.engine.executor.isCompiled = true)
    (st : Step) : (u.step st).2.engine.executor = u.engine.executor := by
  have hleft : (u.step st).2.engine.executor = (u.bare.step st).2.executor :=
    congrArg Bare.executor (goesAs_step h st).left
  rw [hleft]
  cases st with
  | compile ds =>
    simp only [Bare.step, bare]
    cases hx : u.engine.executor.compile ds with
    | error fault => rfl
    | ok x =>
      rw [Executor.isCompiled, (Executor.compile_eq_ok hx).1] at hcompiled
      cases hcompiled
  | takeOut s resource object =>
    simp only [Bare.step]
    split
    · rfl
    · rfl
  | rebind view object =>
    simp only [Bare.step]
    split
    · rfl
    · rfl
  | _ => rfl

/-! ### The result -/

/-- What is true of an engine in use, at any time. -/
structure Steady (u : Use) : Prop where
  /-- An answer that is kept is what the executor answers to every session with the roles that
      it is kept for. -/
  kept : u.engine.Faithful
  /-- What a view says about an action is what a check says. -/
  lookUp : ∀ view ∈ u.views, ∀ a key,
    (View.run view.2 u.engine (View.can view.1 a key)).1 = (u.engine.run (view.1.can a key)).1
  /-- What a view says about all keys is what checks say about reading and editing each. -/
  lookUpAll : ∀ view ∈ u.views, ∀ m,
    (View.run view.2 u.engine (View.toMap view.1)).1 = .ok m → ∀ key a allowed,
      (m.get? key).bind (·.get? a) = some allowed ↔ key ∈ view.1.resource.securedKeys ∧
        a ∈ Action.onProperty ∧ (u.engine.run (view.1.can a (some key))).1 = .ok allowed
  /-- If it cannot say something about all keys, then a check fails in the same way. -/
  lookUpAll_error : ∀ view ∈ u.views, ∀ fault,
    (View.run view.2 u.engine (View.toMap view.1)).1 = .error fault →
      ∃ key ∈ view.1.resource.securedKeys, ∃ a ∈ Action.onProperty,
        (u.engine.run (view.1.can a (some key))).1 = .error fault
  /-- What fails to be compiled leaves the engine as it is. -/
  compile_error : ∀ ds fault, (u.engine.run (Engine.compile ds)).1 = .error fault →
    (u.engine.run (Engine.compile ds)).2 = u.engine
  /-- What fails to be resolved leaves the engine as it is. -/
  resolve_error : ∀ s a resource key optimized fault,
    (u.engine.run (Engine.resolve s a resource key optimized)).1 = .error fault →
      (u.engine.run (Engine.resolve s a resource key optimized)).2 = u.engine
  /-- What fails to be decided is not remembered. -/
  lookUp_error : ∀ view ∈ u.views, ∀ a key fault,
    (View.run view.2 u.engine (View.can view.1 a key)).1 = .error fault →
      (View.run view.2 u.engine (View.can view.1 a key)).2.1 = view.2
  /-- Policies are compiled once. -/
  compile_twice : u.engine.executor.isCompiled = true → ∀ ds, ∃ fault,
    (u.engine.run (Engine.compile ds)).1 = .error fault
  /-- Policies, once compiled, stay. -/
  policies : u.engine.executor.isCompiled = true → ∀ st,
    (u.step st).2.engine.executor.policies = u.engine.executor.policies

theorem Sound.steady (h : u.Sound) : u.Steady where
  kept := h.faithful
  lookUp view hview a key :=
    (View.answers_can view.1 a key view.2 u.engine (h.views view hview)).1.trans
      (Privileges.run_can h.faithful view.1 a key).1.symm
  lookUpAll view hview m hm key a allowed := by
    rw [(View.answers_toMap view.1 view.2 u.engine (h.views view hview)).1] at hm
    rw [(Privileges.run_can h.faithful view.1 a (some key)).1]
    exact get?_bind_get?_of_decideKeys hm
  lookUpAll_error view hview fault hfault := by
    rw [(View.answers_toMap view.1 view.2 u.engine (h.views view hview)).1] at hfault
    obtain ⟨key, hkey, a, ha, hdecision⟩ := exists_of_decideKeys_error hfault
    exact ⟨key, hkey, a, ha, (Privileges.run_can h.faithful view.1 a (some key)).1.trans hdecision⟩
  compile_error ds fault hfault := by
    rw [Engine.run_compile] at hfault ⊢
    cases hx : u.engine.executor.compile ds with
    | error fault' => rfl
    | ok x =>
      rw [hx] at hfault
      cases hfault
  resolve_error s a resource key optimized fault hfault := Engine.run_resolve_error hfault
  lookUp_error view hview a key fault hfault := by
    rw [View.run_can] at hfault ⊢
    cases hmemo : view.2.lookup (key, a) with
    | some allowed => rfl
    | none =>
      rw [hmemo] at hfault
      rcases hrun : u.engine.run (view.1.can a key) with ⟨_ | allowed, e'⟩
      · rfl
      · rw [hrun] at hfault
        cases hfault
  compile_twice hcompiled ds := by
    rw [Engine.run_compile]
    cases hx : u.engine.executor.compile ds with
    | error fault => exact ⟨fault, rfl⟩
    | ok x =>
      rw [Executor.isCompiled, (Executor.compile_eq_ok hx).1] at hcompiled
      cases hcompiled
  policies hcompiled st := congrArg Executor.policies (executor_step h hcompiled st)

/-- Whatever steps are taken, by whatever sessions: they come to the same whether answers are
    kept or not; and at any time what is kept and remembered is what would be answered anew,
    failures leave no trace in it, and policies that were compiled stay. -/
theorem run_eq_and_steady (c : Catalogue) (settings : Settings) (sts : List Step) :
    ((ofSettings c { settings with cache := true }).run sts).1 =
        ((ofSettings c { settings with cache := false }).run sts).1 ∧
      ((ofSettings c settings).run sts).2.Steady := by
  refine ⟨?_, (run_bare (sound_ofSettings c settings) sts).2.steady⟩
  rw [(run_bare (sound_ofSettings c _) sts).1, (run_bare (sound_ofSettings c _) sts).1]
  rfl

end Use

end Authorization
