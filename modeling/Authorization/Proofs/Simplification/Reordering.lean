import Authorization.Proofs.Permission.Alike
import Authorization.Proofs.Simplification.Grouping

/-!
# Optimizing conditions in another order

Of conditions that are alike the same is lifted, dropped and factored: each rule
makes of them what is alike, or finds nothing to do in either
(`Rule.alike_simplified?`). Factoring takes tidy conditions for that, and the
standard rules start with lifting, which makes conditions tidy. So a pass makes
alike of alike, part by part (`Optimizer.alike_pass`), and passes on the one
condition end when those on the other do.

* `Optimizer.alike_optimize`: conditions that are alike are alike after
  optimizing them with the standard rules, however few the passes.
-/

namespace Authorization

open Condition

/-! ### Rules -/

namespace Rule

variable {c d : Condition} {as bs : List Condition}

theorem alike_conjuncts (h : Alike c d) : AlikeParts (conjuncts c) (conjuncts d) := by
  cases h with
  | refl => exact .refl _
  | allOf h => exact h
  | anyOf h => exact .cons (.anyOf h) .nil

/-- The same is lifted out of conditions that are alike. -/
theorem alike_flatten? (h : Alike c d) : Option.Rel Alike (flatten? c) (flatten? d) := by
  cases h with
  | refl => exact .refl .refl _
  | @allOf as bs h =>
    by_cases hone : as.length = 1
    · obtain ⟨a, rfl⟩ := List.length_eq_one_iff.1 hone
      obtain ⟨b, rfl, hab⟩ := h.singleton_left rfl
      exact .some hab
    · rw [flatten?_allOf hone, flatten?_allOf (h.length_eq ▸ hone), h.any_kind_eq]
      split
      · exact .some (.allOf (h.flatMap fun _ _ => alike_conjuncts))
      · exact .none
  | @anyOf as bs h =>
    by_cases hone : as.length = 1
    · obtain ⟨a, rfl⟩ := List.length_eq_one_iff.1 hone
      obtain ⟨b, rfl, hab⟩ := h.singleton_left rfl
      exact .some hab
    · rw [flatten?_anyOf hone, flatten?_anyOf (h.length_eq ▸ hone), h.any_kind_eq]
      split
      · exact .some (.anyOf (h.flatMap fun _ _ => Alike.alternatives))
      · exact .none

theorem alike_fewer? (has : ∀ a ∈ as, a.passes .delimited = true)
    (hbs : ∀ b ∈ bs, b.passes .delimited = true) (h : AlikeParts as bs) :
    Option.Rel AlikeParts (fewer? as) (fewer? bs) := by
  have hdistinct := h.distinct has hbs
  rw [fewer?, fewer?, hdistinct.length_eq, h.length_eq]
  split
  · exact .none
  · exact .some hdistinct

/-- The same repetitions are dropped from conditions that are alike. -/
theorem alike_dropRepeats? (hc : c.passes .delimited = true) (hd : d.passes .delimited = true)
    (h : Alike c d) : Option.Rel Alike (dropRepeats? c) (dropRepeats? d) := by
  cases h with
  | refl => exact .refl .refl _
  | allOf h =>
    exact (alike_fewer? (passes_allOf.1 hc) (passes_allOf.1 hd) h).map fun _ _ => .allOf
  | anyOf h =>
    exact (alike_fewer? (passes_anyOf.1 hc) (passes_anyOf.1 hd) h).map fun _ _ => .anyOf

theorem factorBy?_allOf (kind : Kind) (parts : List Condition) :
    factorBy? kind (.allOf parts) = none := by
  unfold factorBy?
  split <;> rfl

/-- The same is factored in tidy conditions that are alike. -/
theorem alike_factorBy? {kind : Kind} (htidy : c.Tidy) (htidy' : d.Tidy)
    (hc : c.passes .delimited = true) (hd : d.passes .delimited = true) (h : Alike c d) :
    Option.Rel Alike (factorBy? kind c) (factorBy? kind d) := by
  cases h with
  | refl => exact .refl .refl _
  | allOf =>
    rw [factorBy?_allOf, factorBy?_allOf]
    exact .none
  | anyOf h =>
    rw [factorBy?, factorBy?]
    split
    · exact .none
    · rename_i hnot
      have hkind : kind.mergeable = true := by simpa using hnot
      simp only [Factored.any_isShared_of_alike hkind h]
      split
      · exact .some (Factored.alike_mergeFrom hkind (htidy.tidyBelow _ rfl)
          (htidy'.tidyBelow _ rfl) (passes_anyOf.1 hc) (passes_anyOf.1 hd) h).any
      · exact .none

/-- What a rule makes of tidy conditions that are alike is alike. -/
theorem alike_simplified? (rule : Rule) (htidy : c.Tidy) (htidy' : d.Tidy)
    (hc : c.namesPlain = true) (h : Alike c d) :
    Option.Rel Alike (rule.simplified? c) (rule.simplified? d) := by
  have hcnames := passes_delimited_of_namesPlain hc
  have hdnames : d.passes .delimited = true := h.passes_eq ▸ hcnames
  cases rule with
  | flatten => exact alike_flatten? h
  | dropRepeats => exact alike_dropRepeats? hcnames hdnames h
  | factor kind => exact alike_factorBy? htidy htidy' hcnames hdnames h

end Rule

/-! ### Passes -/

namespace Optimizer

variable {rules : List Rule} {c d : Condition} {as bs : List Condition}

theorem alike_applyRules (htidy : c.Tidy) (htidy' : d.Tidy) (hc : c.namesPlain = true)
    (h : Alike c d) : Option.Rel Alike (applyRules rules c) (applyRules rules d) := by
  induction rules generalizing c d with
  | nil => exact .none
  | cons rule rules ih =>
    have hrule := rule.alike_simplified? htidy htidy' hc h
    rw [applyRules, applyRules]
    rcases hrule.eq_none_or_some with ⟨hnone, hnone'⟩ | ⟨e, e', he, he', halike⟩
    · rw [hnone, hnone']
      exact ih htidy htidy' hc h
    · rw [he, he']
      exact .some ((ih (rule.tidy_simplified? htidy he) (rule.tidy_simplified? htidy' he')
        ((rule.keeps_simplified? hc he).passes _ hc) halike).getD halike)

/-- The rules after lifting find tidy conditions. -/
theorem alike_applyRules_flatten (htidy : c.TidyBelow) (htidy' : d.TidyBelow)
    (hc : c.namesPlain = true) (h : Alike c d) :
    Option.Rel Alike (applyRules (.flatten :: rules) c) (applyRules (.flatten :: rules) d) := by
  have hflat := Rule.tidy_flatten? htidy
  have hflat' := Rule.tidy_flatten? htidy'
  rw [applyRules, applyRules, Rule.simplified?]
  rcases (Rule.alike_flatten? h).eq_none_or_some with
    ⟨hnone, hnone'⟩ | ⟨e, e', he, he', halike⟩
  · rw [hnone] at hflat ⊢
    rw [hnone'] at hflat' ⊢
    exact alike_applyRules hflat hflat' hc h
  · rw [he] at hflat ⊢
    rw [he'] at hflat' ⊢
    have hplain := (Rule.keeps_flatten? he).passes _ hc
    exact .some ((alike_applyRules hflat hflat' hplain halike).getD halike)

theorem alike_finish {p q : Option Condition} (htidy : (p.getD c).TidyBelow)
    (htidy' : (q.getD d).TidyBelow) (hplain : (p.getD c).namesPlain = true) (h : Alike c d)
    (hpq : Option.Rel Alike p q) :
    Option.Rel Alike (finish (.flatten :: rules) c p) (finish (.flatten :: rules) d q) := by
  cases hpq with
  | none => exact alike_applyRules_flatten htidy htidy' hplain h
  | some hpq => exact .some ((alike_applyRules_flatten htidy htidy' hplain hpq).getD hpq)

/-! ### Passes over parts -/

theorem namesPlain_passed (hc : c.namesPlain = true) : (passed rules c).namesPlain = true := by
  rw [passed]
  cases hd : pass rules c with
  | none => exact hc
  | some d => exact (keeps_pass rules c hc d hd).passes _ hc

theorem namesPlain_map_passed (has : ∀ a ∈ as, a.namesPlain = true) :
    ∀ d ∈ as.map (passed rules), d.namesPlain = true := by
  intro d hd
  obtain ⟨a, ha, rfl⟩ := List.mem_map.1 hd
  exact namesPlain_passed (has a ha)

/-- What the rules make of joined conditions whose parts were passed over: `join` is *all of* or
    *any of*. -/
theorem alike_finish_join {join : List Condition → Condition}
    (halike : ∀ {as bs : List Condition}, AlikeParts as bs → Alike (join as) (join bs))
    (htidy : ∀ {cs : List Condition}, (∀ c ∈ cs, c.Tidy) → (join cs).TidyBelow)
    (hplain : ∀ {cs : List Condition}, (∀ c ∈ cs, c.namesPlain = true) →
      (join cs).namesPlain = true)
    (has : ∀ a ∈ as, a.namesPlain = true) (h : AlikeParts as bs)
    (hpassed : Option.Rel AlikeParts (passParts (.flatten :: rules) as)
      (passParts (.flatten :: rules) bs)) :
    Option.Rel Alike
      (finish (.flatten :: rules) (join as) ((passParts (.flatten :: rules) as).map join))
      (finish (.flatten :: rules) (join bs) ((passParts (.flatten :: rules) bs).map join)) := by
  have hbelow : ∀ cs : List Condition,
      (((passParts (.flatten :: rules) cs).map join).getD (join cs)).TidyBelow := by
    intro cs
    rw [Option.getD_map, getD_passParts]
    exact htidy (tidy_map_passed fun c _ => tidy_pass rules c)
  refine alike_finish (hbelow as) (hbelow bs) ?_ (halike h) (hpassed.map fun _ _ => halike)
  rw [Option.getD_map, getD_passParts]
  exact hplain (namesPlain_map_passed has)

mutual

/-- A pass that starts with lifting makes alike of alike, or finds nothing to do in either. -/
theorem alike_pass (rules : List Rule) : ∀ {c d : Condition}, Alike c d → c.namesPlain = true →
    Option.Rel Alike (pass (.flatten :: rules) c) (pass (.flatten :: rules) d)
  | _, _, .refl _, _ => .refl .refl _
  | _, _, .allOf h, hc => by
    have hplain := passes_allOf.1 hc
    rw [pass, pass]
    exact alike_finish_join .allOf tidyBelow_allOf passes_allOf.2 hplain h
      (alike_passParts rules h hplain)
  | _, _, .anyOf h, hc => by
    have hplain := passes_anyOf.1 hc
    rw [pass, pass]
    exact alike_finish_join .anyOf tidyBelow_anyOf passes_anyOf.2 hplain h
      (alike_passParts rules h hplain)

theorem alike_passParts (rules : List Rule) : ∀ {as bs : List Condition}, AlikeParts as bs →
    (∀ a ∈ as, a.namesPlain = true) →
    Option.Rel AlikeParts (passParts (.flatten :: rules) as) (passParts (.flatten :: rules) bs)
  | _, _, .nil, _ => .none
  | _, _, .cons h hs, hplain => by
    obtain ⟨ha, has⟩ := List.forall_mem_cons.1 hplain
    rw [passParts, passParts]
    rcases (alike_pass rules h ha).eq_none_or_some with
      ⟨hnone, hnone'⟩ | ⟨d, d', hd, hd', halike⟩
    · rcases (alike_passParts rules hs has).eq_none_or_some with
        ⟨hrest, hrest'⟩ | ⟨ds, ds', hds, hds', hrest⟩
      · rw [hnone, hnone', hrest, hrest']
        exact .none
      · rw [hnone, hnone', hds, hds']
        exact .some (.cons h hrest)
    · rw [hd, hd']
      exact .some (.cons halike ((alike_passParts rules hs has).getD hs))
  | _, _, .swap a b as, _ => by
    rw [passParts, passParts, passParts, passParts]
    cases pass (.flatten :: rules) a <;> cases pass (.flatten :: rules) b <;>
      cases passParts (.flatten :: rules) as <;>
      first | exact .none | exact .some (.swap _ _ _)
  | _, _, .trans hs hs', hplain =>
    (alike_passParts rules hs hplain).trans (fun _ _ _ => .trans)
      (alike_passParts rules hs' (hs.passes hplain))

end

/-! ### Passes one after the other -/

theorem alike_repeatPass (passes : Nat) (hc : c.namesPlain = true) (h : Alike c d) :
    Alike (repeatPass (.flatten :: rules) passes c).condition
      (repeatPass (.flatten :: rules) passes d).condition := by
  induction passes generalizing c d with
  | zero => exact h
  | succ passes ih =>
    rw [repeatPass, repeatPass]
    rcases (alike_pass rules h hc).eq_none_or_some with
      ⟨hnone, hnone'⟩ | ⟨e, e', he, he', halike⟩
    · rw [hnone, hnone']
      exact h
    · rw [he, he']
      exact ih ((keeps_pass _ c hc e he).passes _ hc) halike

/-- Conditions that are alike are alike after optimizing them, however many passes there may
    be. -/
theorem alike_optimize (passes : Nat) (hc : c.namesPlain = true) (h : Alike c d) :
    Alike ((standard passes).optimize c) ((standard passes).optimize d) :=
  alike_repeatPass _ hc h

end Optimizer

/-- Permissions that are alike are alike after optimizing them. -/
theorem Permission.Alike.optimize {p q : Permission} (h : p.Alike q) (passes : Nat)
    (hp : p.passes .plain = true) :
    ((Optimizer.standard passes).optimizePermission p).Alike
      ((Optimizer.standard passes).optimizePermission q) := by
  cases h with
  | allow => exact .allow
  | deny => exact .deny
  | when h => exact .when (Optimizer.alike_optimize passes hp h)

end Authorization
