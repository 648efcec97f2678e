import Authorization.Engine.View
import Authorization.Proofs.Engine.Answers

/-!
# What views find out

Whether an action can be done is a question to the executor
(`Privileges.decision`): a faithful engine decides it in the same way whatever
it keeps (`Privileges.run_can`).

A view remembers what was decided. As long as what it remembers is what the
executor decides (`View.Sound`), each of its operations has the outcome that it
would have if every question were asked anew (`View.Answers`), and remembers
nothing else.
-/

namespace Authorization

/-! ### Decisions -/

/-- What an executor decides about an action. -/
def Privileges.decision (x : Executor) (p : Privileges) (a : Action) (key : Option String) :
    Except Error Bool :=
  (x.answer p.session a p.resource.name key false).bind (·.holds p.session p.object)

/-- A faithful engine decides as its executor does, and stays faithful. -/
theorem Privileges.run_can {e : Engine} (h : e.Faithful) (p : Privileges) (a : Action)
    (key : Option String) :
    (e.run (p.can a key)).1 = p.decision e.executor a key ∧
      (e.run (p.can a key)).2.executor = e.executor ∧ (e.run (p.can a key)).2.Faithful := by
  have hresolve := @Engine.run_resolve e p.session a p.resource.name key false h
  rw [can, Engine.run_bind, resolve, decision]
  rcases hrun : e.run (Engine.resolve p.session a p.resource.name key false) with ⟨outcome, e'⟩
  rw [hrun] at hresolve
  obtain ⟨houtcome, hexecutor, -, hfaithful⟩ := hresolve
  rw [← houtcome]
  cases outcome with
  | error fault => exact ⟨rfl, hexecutor, hfaithful⟩
  | ok permission =>
    simp only [Engine.run_ofExcept]
    exact ⟨rfl, hexecutor, hfaithful⟩

/-! ### Maps of decisions -/

section Maps

variable {κ β : Type} [Ord κ] [Std.TransOrd κ] [Std.LawfulEqOrd κ] {decide : κ → Except Error β}
  {ks : List κ} {found m : SortedMap κ β} {fault : Error}

/-- What is decided about some keys, up to the first that cannot be decided, in place of what was
    found before. -/
def decideAll (decide : κ → Except Error β) :
    List κ → SortedMap κ β → Except Error (SortedMap κ β)
  | [], found => .ok found
  | k :: ks, found => do
    let decided ← decide k
    decideAll decide ks (found.insert k decided)

omit [Std.LawfulEqOrd κ] in
/-- Keys fail to be decided only if one of them does. -/
theorem exists_of_decideAll_error (h : decideAll decide ks found = .error fault) :
    ∃ k ∈ ks, decide k = .error fault := by
  induction ks generalizing found with
  | nil => cases h
  | cons k ks ih =>
    rw [decideAll] at h
    cases hdecide : decide k with
    | error fault' =>
      rw [hdecide] at h
      cases h
      exact ⟨k, List.mem_cons_self, hdecide⟩
    | ok decided =>
      rw [hdecide] at h
      obtain ⟨k', hk', hfault⟩ := ih h
      exact ⟨k', List.mem_cons_of_mem _ hk', hfault⟩

/-- What is found about keys is what is decided about them; about others, what was found
    before. -/
theorem get?_of_decideAll_ok [DecidableEq κ] (h : decideAll decide ks found = .ok m) (k : κ) :
    (k ∈ ks → ∃ decided, decide k = .ok decided ∧ m.get? k = some decided) ∧
      (k ∉ ks → m.get? k = found.get? k) := by
  induction ks generalizing found with
  | nil =>
    cases h
    exact ⟨fun hk => absurd hk List.not_mem_nil, fun _ => rfl⟩
  | cons k' ks ih =>
    rw [decideAll] at h
    cases hdecide : decide k' with
    | error fault' =>
      rw [hdecide] at h
      cases h
    | ok decided =>
      rw [hdecide] at h
      obtain ⟨hmem, hnotMem⟩ := ih h
      refine ⟨fun hk => ?_, fun hk => ?_⟩
      · by_cases hlater : k ∈ ks
        · exact hmem hlater
        · obtain rfl : k = k' := (List.mem_cons.1 hk).resolve_right hlater
          exact ⟨decided, hdecide, by rw [hnotMem hlater, SortedMap.get?_insert, if_pos rfl]⟩
      · obtain ⟨hne, hlater⟩ := not_or.1 (mt List.mem_cons.2 hk)
        rw [hnotMem hlater, SortedMap.get?_insert, if_neg hne]

omit [Std.LawfulEqOrd κ] in
/-- What is found depends on nothing but what is decided about the keys. -/
theorem decideAll_congr {decide' : κ → Except Error β} (h : ∀ k ∈ ks, decide k = decide' k) :
    decideAll decide ks found = decideAll decide' ks found := by
  induction ks generalizing found with
  | nil => rfl
  | cons k ks ih =>
    obtain ⟨hk, hks⟩ := List.forall_mem_cons.1 h
    rw [decideAll, decideAll, hk]
    exact congrArg (decide' k).bind (funext fun _ => ih hks)

end Maps

/-- What is decided about reading and editing each of some keys. -/
def decideKeys (decide : String → Action → Except Error Bool) (keys : List String) :
    NameMap (SortedMap Action Bool) → Except Error (NameMap (SortedMap Action Bool)) :=
  decideAll (fun key => decideAll (decide key) Action.onProperty ∅) keys

section Keys

variable {decide : String → Action → Except Error Bool} {keys : List String}

/-- Keys fail to be decided only if an action on one of them does. -/
theorem exists_of_decideKeys_error {found : NameMap (SortedMap Action Bool)} {fault : Error}
    (h : decideKeys decide keys found = .error fault) :
    ∃ key ∈ keys, ∃ a ∈ Action.onProperty, decide key a = .error fault := by
  obtain ⟨key, hkey, hactions⟩ := exists_of_decideAll_error h
  exact ⟨key, hkey, exists_of_decideAll_error hactions⟩

/-- Something stands in the map under a key and an action if it is asked for, and decided so. -/
theorem get?_bind_get?_of_decideKeys {m : NameMap (SortedMap Action Bool)}
    (h : decideKeys decide keys ∅ = .ok m) {key : String} {a : Action} {allowed : Bool} :
    (m.get? key).bind (·.get? a) = some allowed ↔
      key ∈ keys ∧ a ∈ Action.onProperty ∧ decide key a = .ok allowed := by
  obtain ⟨hmem, hnotMem⟩ := get?_of_decideAll_ok h key
  by_cases hkey : key ∈ keys
  · obtain ⟨actions, hactions, hget⟩ := hmem hkey
    obtain ⟨hmem', hnotMem'⟩ := get?_of_decideAll_ok hactions a
    rw [hget, Option.bind_some]
    by_cases ha : a ∈ Action.onProperty
    · obtain ⟨allowed', hdecide, hget'⟩ := hmem' ha
      rw [hget', hdecide, Option.some.injEq, Except.ok.injEq]
      exact ⟨fun h => ⟨hkey, ha, h⟩, fun h => h.2.2⟩
    · rw [hnotMem' ha]
      exact ⟨nofun, fun h => absurd h.2.1 ha⟩
  · rw [hnotMem hkey]
    exact ⟨nofun, fun h => absurd h.1 hkey⟩

end Keys

/-! ### Remembering -/

namespace View

variable {α β : Type} {memo : Memo} {e : Engine} {x : Executor} {p : Privileges}

theorem run_bind (op : Viewing α) (f : α → Viewing β) :
    run memo e (op >>= f) = match run memo e op with
      | (.ok a, memo', e') => run memo' e' (f a)
      | (.error fault, memo', e') => (.error fault, memo', e') := by
  have hrun : run memo e (op >>= f) =
      ExceptT.bindCont f (run memo e op).1 (run memo e op).2 := rfl
  rw [hrun]
  rcases run memo e op with ⟨_ | a, memo', e'⟩
  · rfl
  · rfl

/-- A view remembers a decision that it did not remember; a failure it does not. -/
theorem run_can (p : Privileges) (a : Action) (key : Option String) :
    run memo e (can p a key) =
      match memo.lookup (key, a) with
      | some allowed => (.ok allowed, memo, e)
      | none =>
        match e.run (p.can a key) with
        | (.ok allowed, e') => (.ok allowed, ((key, a), allowed) :: memo, e')
        | (.error fault, e') => (.error fault, memo, e') := by
  have hget : run memo e get = (.ok (memo, e), memo, e) := rfl
  rw [can, run_bind, hget]
  simp only
  cases memo.lookup (key, a) with
  | some allowed => rfl
  | none =>
    have hlift : run memo e (lift (p.can a key)) =
        ((e.run (p.can a key)).1, memo, (e.run (p.can a key)).2) := rfl
    simp only
    rw [run_bind, hlift]
    rcases e.run (p.can a key) with ⟨_ | allowed, e'⟩
    · rfl
    · rfl

/-- A view on an engine with an executor remembers nothing but what the executor decides. -/
structure Sound (x : Executor) (p : Privileges) (memo : Memo) (e : Engine) : Prop where
  /-- The executor is that of the engine. -/
  executor : e.executor = x
  /-- The engine keeps nothing but what it would answer. -/
  faithful : e.Faithful
  /-- The view remembers nothing but what is decided. -/
  truthful : ∀ a key allowed, memo.lookup (key, a) = some allowed →
    p.decision x a key = .ok allowed

/-- An operation on a view has an outcome, whatever is remembered that is decided so. -/
def Answers (x : Executor) (p : Privileges) (op : Viewing α) (outcome : Except Error α) : Prop :=
  ∀ memo e, Sound x p memo e →
    (run memo e op).1 = outcome ∧ Sound x p (run memo e op).2.1 (run memo e op).2.2

theorem Answers.pure (a : α) : Answers x p (Pure.pure a) (.ok a) := fun _ _ h => ⟨rfl, h⟩

theorem Answers.bind {op : Viewing α} {f : α → Viewing β} {outcome : Except Error α}
    {g : α → Except Error β} (hop : Answers x p op outcome) (hf : ∀ a, Answers x p (f a) (g a)) :
    Answers x p (op >>= f) (outcome.bind g) := by
  intro memo e h
  obtain ⟨houtcome, hsound⟩ := hop memo e h
  rw [run_bind, ← houtcome]
  rcases hrun : run memo e op with ⟨_ | a, memo', e'⟩
  · rw [hrun] at hsound
    exact ⟨rfl, hsound⟩
  · rw [hrun] at hsound
    exact hf a memo' e' hsound

/-- What a view says about an action is what the executor decides. -/
theorem answers_can (p : Privileges) (a : Action) (key : Option String) :
    Answers x p (can p a key) (p.decision x a key) := by
  intro memo e h
  rw [run_can]
  cases hmemo : memo.lookup (key, a) with
  | some allowed => exact ⟨(h.truthful a key allowed hmemo).symm, h⟩
  | none =>
    obtain ⟨houtcome, hexecutor, hfaithful⟩ := Privileges.run_can h.faithful p a key
    rw [h.executor] at houtcome hexecutor
    rcases hrun : e.run (p.can a key) with ⟨fault | allowed, e'⟩
    · rw [hrun] at houtcome hexecutor hfaithful
      exact ⟨houtcome, hexecutor, hfaithful, h.truthful⟩
    · rw [hrun] at houtcome hexecutor hfaithful
      refine ⟨houtcome, hexecutor, hfaithful, fun a' key' allowed' hlookup => ?_⟩
      simp only [List.lookup_cons] at hlookup
      split at hlookup
      · -- What was decided just now.
        rename_i heq
        cases beq_iff_eq.1 heq
        cases hlookup
        exact houtcome.symm
      · exact h.truthful a' key' allowed' hlookup

theorem answers_entry (p : Privileges) (key : String) (as : List Action)
    (found : SortedMap Action Bool) :
    Answers x p (entry p key as found)
      (decideAll (fun a => p.decision x a (some key)) as found) := by
  induction as generalizing found with
  | nil => exact .pure found
  | cons a as ih => exact (answers_can p a (some key)).bind fun allowed => ih _

theorem answers_entries (p : Privileges) (keys : List String)
    (found : NameMap (SortedMap Action Bool)) :
    Answers x p (entries p keys found)
      (decideKeys (fun key a => p.decision x a (some key)) keys found) := by
  induction keys generalizing found with
  | nil => exact .pure found
  | cons key keys ih =>
    exact (answers_entry p key Action.onProperty ∅).bind fun actions => ih _

/-- The map of a view is what the executor decides about reading and editing each key. -/
theorem answers_toMap (p : Privileges) :
    Answers x p (toMap p)
      (decideKeys (fun key a => p.decision x a (some key)) p.resource.securedKeys ∅) :=
  answers_entries p p.resource.securedKeys ∅

end View

end Authorization
