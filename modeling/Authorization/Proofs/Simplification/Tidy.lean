import Authorization.Proofs.Condition.Reordering
import Authorization.Proofs.Simplification.Meaning

/-!
# Tidy conditions

A condition is *tidy* if no *all of* stands directly in another, at any depth
(`Condition.Tidy`). Lifting makes a condition tidy whose parts are, and the other
rules leave it so; hence a pass whose first rule lifts makes any condition tidy,
also where it finds nothing to do (`Optimizer.tidy_pass`).

In tidy alternatives the rest of one is told by its id: if it is a single
condition, that is not itself an *all of* (`Factored.alike_rest_of_key_eq`).
-/

namespace Authorization

open Condition

/-! ### Conditions -/

namespace Condition

/-- No *all of* stands directly in another, at any depth. -/
inductive Tidy : Condition → Prop
  | leaf {c : Condition} : c.parts? = none → Tidy c
  | allOf {parts : List Condition} : (∀ c ∈ parts, c.kind ≠ .allOf) → (∀ c ∈ parts, Tidy c) →
    Tidy (.allOf parts)
  | anyOf {parts : List Condition} : (∀ c ∈ parts, Tidy c) → Tidy (.anyOf parts)

/-- All parts of a condition are tidy. -/
def TidyBelow (c : Condition) : Prop := ∀ parts, c.parts? = some parts → ∀ d ∈ parts, Tidy d

variable {c d : Condition} {cs : List Condition}

theorem tidyBelow_of_leaf (h : c.parts? = none) : c.TidyBelow := by
  intro parts hparts
  rw [h] at hparts
  cases hparts

theorem tidyBelow_allOf (h : ∀ d ∈ cs, Tidy d) : (Condition.allOf cs).TidyBelow := by
  intro parts hparts
  cases hparts
  exact h

theorem tidyBelow_anyOf (h : ∀ d ∈ cs, Tidy d) : (Condition.anyOf cs).TidyBelow := by
  intro parts hparts
  cases hparts
  exact h

namespace Tidy

theorem tidyBelow (h : Tidy c) : c.TidyBelow := by
  cases h with
  | leaf h => exact tidyBelow_of_leaf h
  | allOf _ h => exact tidyBelow_allOf h
  | anyOf h => exact tidyBelow_anyOf h

theorem kind_ne (h : Tidy (.allOf cs)) : ∀ d ∈ cs, d.kind ≠ .allOf := by
  cases h with
  | leaf hleaf => cases hleaf
  | allOf h _ => exact h

theorem alternatives (h : Tidy c) : ∀ d ∈ c.alternatives, Tidy d := by
  cases c with
  | anyOf parts => exact h.tidyBelow _ rfl
  | _ => exact fun d hd => List.mem_singleton.1 hd ▸ h

/-- Joined by *all of*, tidy conditions are tidy if they are no such joinings. -/
theorem all (hkind : ∀ d ∈ cs, d.kind ≠ .allOf) (h : ∀ d ∈ cs, Tidy d) :
    Tidy (Condition.all cs) := by
  unfold Condition.all
  split
  · exact h _ List.mem_cons_self
  · exact .allOf hkind h

/-- Joined by *any of*, tidy conditions are tidy. -/
theorem any (h : ∀ d ∈ cs, Tidy d) : Tidy (Condition.any cs) := by
  have hflat : ∀ d ∈ cs.flatMap Condition.alternatives, Tidy d := by
    intro d hd
    obtain ⟨c, hc, hd⟩ := List.mem_flatMap.1 hd
    exact (h c hc).alternatives d hd
  unfold Condition.any
  split
  · rename_i c hc
    exact hflat c (hc ▸ List.mem_cons_self)
  · exact .anyOf hflat

/-- What is of a kind that can be merged has no parts. -/
theorem of_mergeable {kind : Kind} (hkind : kind.mergeable = true) (h : c.kind = kind) :
    Tidy c := by
  cases c with
  | allOf => cases h; cases hkind
  | anyOf => cases h; cases hkind
  | _ => exact .leaf rfl

end Tidy

end Condition

/-! ### Alternatives taken apart -/

namespace Factored

variable {found : List Factored} {f g : Factored} {kind : Kind} {c d : Condition}

theorem kind_factor (h : ofAlternative? kind c = some f) : f.factor.kind = kind := by
  obtain ⟨hkind, rfl⟩ | ⟨parts, rfl, hfactor, _⟩ := cases_of_ofAlternative? h
  · exact hkind
  · have hmem : f.factor ∈ parts.filter (·.kind == kind) := hfactor ▸ List.mem_cons_self
    exact beq_iff_eq.1 (List.mem_filter.1 hmem).2

/-- The rest of a tidy alternative is tidy, and has no *all of*. -/
theorem tidy_rest (h : ofAlternative? kind c = some f) (hc : c.Tidy) :
    (∀ d ∈ f.rest, d.kind ≠ .allOf) ∧ ∀ d ∈ f.rest, d.Tidy := by
  obtain ⟨_, rfl⟩ | ⟨parts, rfl, _, hrest⟩ := cases_of_ofAlternative? h
  · exact ⟨fun _ hd => absurd hd List.not_mem_nil, fun _ hd => absurd hd List.not_mem_nil⟩
  · rw [hrest]
    exact ⟨fun d hd => hc.kind_ne d (List.mem_of_mem_filter hd),
      fun d hd => hc.tidyBelow _ rfl d (List.mem_of_mem_filter hd)⟩

/-- Rests of tidy alternatives that have one key are the same but for the order. -/
theorem alike_rest_of_key_eq (hf : ofAlternative? kind c = some f)
    (hg : ofAlternative? kind d = some g) (hc : c.Tidy) (hd : d.Tidy)
    (hnames : c.passes .delimited = true) (hnames' : d.passes .delimited = true)
    (h : f.key = g.key) : AlikeParts f.rest g.rest := by
  rcases rests_of_key_eq h with ⟨hf0, hg0⟩ | ⟨hf0, hg0, hid⟩
  · rw [hf0, hg0]
    exact .nil
  · have halike := alike_of_id_eq (passes_all (passes_of_ofAlternative? hf hnames).2)
      (passes_all (passes_of_ofAlternative? hg hnames').2) hid
    exact .of_all hf0 hg0 (tidy_rest hf hc).1 (tidy_rest hg hd).1 halike

/-- The alternatives that a merged one is made from are there, and of the kind. -/
theorem kind_factors (hfound : ∀ g ∈ found, g.factor.kind = kind) (key : String) :
    ∀ c ∈ (found.filter (·.key == key)).map factor, c.kind = kind := by
  intro c hc
  obtain ⟨g, hg, rfl⟩ := List.mem_map.1 hc
  exact hfound g (List.mem_of_mem_filter hg)

theorem factors_ne_nil (hf : f ∈ found) : (found.filter (·.key == f.key)).map factor ≠ [] :=
  List.ne_nil_of_mem (List.mem_map_of_mem (List.mem_filter.2 ⟨hf, beq_self_eq_true _⟩))

theorem kind_factor_of_mem_found {cs : List Condition} :
    ∀ g ∈ cs.filterMap (ofAlternative? kind), g.factor.kind = kind := by
  intro g hg
  obtain ⟨c, _, hg⟩ := List.mem_filterMap.1 hg
  exact kind_factor hg

theorem tidy_merged (hkind : kind.mergeable = true) (hfound : ∀ g ∈ found, g.factor.kind = kind)
    (hmem : f ∈ found) (hf : ofAlternative? kind c = some f) (hc : c.Tidy) :
    (f.merged found).Tidy := by
  have hunion : (union ((found.filter (·.key == f.key)).map factor)).kind = kind :=
    kind_union hkind (factors_ne_nil hmem) (kind_factors hfound f.key)
  have hne : kind ≠ .allOf := by
    rintro rfl
    cases hkind
  obtain ⟨hrest, htidy⟩ := tidy_rest hf hc
  exact .all (List.forall_mem_cons.2 ⟨hunion.trans_ne hne, hrest⟩)
    (List.forall_mem_cons.2 ⟨.of_mergeable hkind hunion, htidy⟩)

end Factored

/-! ### Rules -/

namespace Rule

variable {c d : Condition} {parts : List Condition}

theorem flatten?_allOf (h : parts.length ≠ 1) : flatten? (.allOf parts) =
    if parts.any (·.kind == .allOf) then some (.allOf (parts.flatMap conjuncts)) else none := by
  unfold flatten?
  split
  · rename_i heq
    cases heq
    exact absurd rfl h
  · rename_i heq
    cases heq
  · rename_i heq
    cases heq
    rfl
  · rename_i heq
    cases heq
  · rename_i hnot _
    exact absurd rfl (hnot parts)

theorem flatten?_anyOf (h : parts.length ≠ 1) : flatten? (.anyOf parts) =
    if parts.any (·.kind == .anyOf) then some (.anyOf (parts.flatMap Condition.alternatives))
    else none := by
  unfold flatten?
  split
  · rename_i heq
    cases heq
  · rename_i heq
    cases heq
    exact absurd rfl h
  · rename_i heq
    cases heq
  · rename_i heq
    cases heq
    rfl
  · rename_i hnot
    exact absurd rfl (hnot parts)

theorem tidy_conjuncts (h : c.Tidy) :
    (∀ d ∈ conjuncts c, d.kind ≠ .allOf) ∧ ∀ d ∈ conjuncts c, d.Tidy := by
  cases c with
  | allOf parts => exact ⟨h.kind_ne, h.tidyBelow _ rfl⟩
  | _ =>
    exact ⟨fun d hd => List.mem_singleton.1 hd ▸ nofun, fun d hd => List.mem_singleton.1 hd ▸ h⟩

/-- Lifting makes a condition tidy whose parts are, if only by finding nothing to lift. -/
theorem tidy_flatten? (h : c.TidyBelow) :
    ((flatten? c).getD c).Tidy := by
  cases c with
  | allOf parts =>
    have hparts := h parts rfl
    by_cases hone : parts.length = 1
    · obtain ⟨d, rfl⟩ := List.length_eq_one_iff.1 hone
      exact hparts d List.mem_cons_self
    · rw [flatten?_allOf hone]
      split
      · -- What is lifted was directly in an *all of* before.
        have hlifted : ∀ d ∈ parts.flatMap conjuncts, d.kind ≠ .allOf ∧ d.Tidy := by
          intro d hd
          obtain ⟨e, he, hd⟩ := List.mem_flatMap.1 hd
          exact ⟨(tidy_conjuncts (hparts e he)).1 d hd, (tidy_conjuncts (hparts e he)).2 d hd⟩
        exact .allOf (fun d hd => (hlifted d hd).1) fun d hd => (hlifted d hd).2
      · rename_i hnone
        refine .allOf (fun d hd hkind => hnone ?_) hparts
        exact List.any_eq_true.2 ⟨d, hd, beq_iff_eq.2 hkind⟩
  | anyOf parts =>
    have hparts := h parts rfl
    by_cases hone : parts.length = 1
    · obtain ⟨d, rfl⟩ := List.length_eq_one_iff.1 hone
      exact hparts d List.mem_cons_self
    · rw [flatten?_anyOf hone]
      split
      · refine .anyOf fun d hd => ?_
        obtain ⟨e, he, hd⟩ := List.mem_flatMap.1 hd
        exact (hparts e he).alternatives d hd
      · exact .anyOf hparts
  | _ => exact .leaf rfl

theorem tidy_dropRepeats? (hc : c.Tidy) (h : dropRepeats? c = some d) : d.Tidy := by
  cases c with
  | allOf parts =>
    obtain ⟨ds, hds, rfl⟩ := Option.map_eq_some_iff.1 h
    rw [eq_distinct_of_fewer? hds]
    exact .allOf (fun d hd => hc.kind_ne d (mem_of_mem_distinct hd)) fun d hd =>
      hc.tidyBelow _ rfl d (mem_of_mem_distinct hd)
  | anyOf parts =>
    obtain ⟨ds, hds, rfl⟩ := Option.map_eq_some_iff.1 h
    rw [eq_distinct_of_fewer? hds]
    exact .anyOf fun d hd => hc.tidyBelow _ rfl d (mem_of_mem_distinct hd)
  | _ => cases h

theorem tidy_factorBy? {kind : Kind} (hc : c.Tidy) (h : factorBy? kind c = some d) : d.Tidy := by
  unfold factorBy? at h
  split at h
  · cases h
  rename_i hmergeable
  split at h
  · rename_i parts _
    simp only at h
    split at h
    · cases h
      refine .any fun d hd => ?_
      have hparts := hc.tidyBelow _ rfl
      rcases Factored.eq_of_mem_mergeFrom hd with hd | ⟨e, he, f, hf, rfl⟩
      · exact hparts d hd
      · exact Factored.tidy_merged (by simpa using hmergeable) Factored.kind_factor_of_mem_found
          (List.mem_filterMap.2 ⟨e, he, hf⟩) hf (hparts e he)
    · cases h
  · cases h

/-- What a rule makes of a tidy condition is tidy. -/
theorem tidy_simplified? (rule : Rule) (hc : c.Tidy) (h : rule.simplified? c = some d) :
    d.Tidy := by
  cases rule with
  | flatten =>
    have hflat := tidy_flatten? hc.tidyBelow
    rwa [show flatten? c = some d from h] at hflat
  | dropRepeats => exact tidy_dropRepeats? hc h
  | factor kind => exact tidy_factorBy? hc h

end Rule

/-! ### Passes -/

namespace Optimizer

variable {rules : List Rule} {c : Condition}

theorem tidy_applyRules (hc : c.Tidy) : ((applyRules rules c).getD c).Tidy := by
  induction rules generalizing c with
  | nil => exact hc
  | cons rule rules ih =>
    rw [applyRules]
    split
    · exact ih hc
    · rename_i d hd
      exact ih (rule.tidy_simplified? hc hd)

/-- The rules after lifting find a tidy condition. -/
theorem tidy_applyRules_flatten (h : c.TidyBelow) :
    ((applyRules (.flatten :: rules) c).getD c).Tidy := by
  have hflat := Rule.tidy_flatten? h
  rw [applyRules, Rule.simplified?]
  cases hd : Rule.flatten? c with
  | none =>
    rw [hd] at hflat
    exact tidy_applyRules hflat
  | some d =>
    rw [hd] at hflat
    exact tidy_applyRules hflat

theorem getD_finish (rules : List Rule) (c : Condition) (passed : Option Condition) :
    (finish rules c passed).getD c = (applyRules rules (passed.getD c)).getD (passed.getD c) := by
  cases passed <;> rfl

/-- A condition after a pass, whether it found something to do or not. -/
def passed (rules : List Rule) (c : Condition) : Condition := (pass rules c).getD c

/-- A pass over conditions is a pass over each of them. -/
theorem getD_passParts (rules : List Rule) (cs : List Condition) :
    (passParts rules cs).getD cs = cs.map (passed rules) := by
  induction cs with
  | nil => rfl
  | cons c cs ih =>
    rw [List.map_cons, ← ih, passParts, passed]
    split
    · rename_i hc hcs
      rw [hc, hcs]
      rfl
    · rfl

theorem tidy_map_passed {cs : List Condition} (h : ∀ c ∈ cs, (passed rules c).Tidy) :
    ∀ d ∈ cs.map (passed rules), d.Tidy := by
  intro d hd
  obtain ⟨c, hc, rfl⟩ := List.mem_map.1 hd
  exact h c hc

/-- A pass that starts with lifting makes every condition tidy. -/
theorem tidy_pass (rules : List Rule) : ∀ c : Condition, (passed (.flatten :: rules) c).Tidy := by
  have hleaf : ∀ c : Condition, c.parts? = none →
      passed (.flatten :: rules) c = (applyRules (.flatten :: rules) c).getD c →
      (passed (.flatten :: rules) c).Tidy := by
    intro c hc hpassed
    rw [hpassed]
    exact tidy_applyRules_flatten (tidyBelow_of_leaf hc)
  refine byParts (fun _ => hleaf _ rfl rfl) (fun _ => hleaf _ rfl rfl) (fun _ => hleaf _ rfl rfl)
    (fun _ _ => hleaf _ rfl rfl) (hleaf _ rfl rfl) ?allOf ?anyOf
  case allOf =>
    intro parts ih
    rw [passed, pass, getD_finish, Option.getD_map, getD_passParts]
    exact tidy_applyRules_flatten (tidyBelow_allOf (tidy_map_passed ih))
  case anyOf =>
    intro parts ih
    rw [passed, pass, getD_finish, Option.getD_map, getD_passParts]
    exact tidy_applyRules_flatten (tidyBelow_anyOf (tidy_map_passed ih))

end Optimizer

end Authorization
