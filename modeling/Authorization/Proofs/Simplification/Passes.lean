import Authorization.Proofs.Condition.Names
import Authorization.Simplification.Optimizer
import Mathlib.Data.List.Forall2

/-!
# What passes keep

What holds between a condition and what a rule makes of it holds between a
condition and what an optimizer makes of it, as long as it passes from parts to
wholes and from step to step (`Optimizer.Kept`). Rules are taken to be applied to
conditions with plain names only, and to leave the names plain. So it is kept by
rules one after the other, by a pass from the inside out (`Kept.of_pass`), and by
any number of passes, whether the condition settles or not (`Kept.of_optimize`).
-/

namespace Authorization.Optimizer

open Condition

/-- A relation between conditions and what is made of them that rules keep. -/
structure Kept (R : Condition → Condition → Prop) : Prop where
  /-- Nothing need be done. -/
  refl : ∀ c, R c c
  /-- One thing may be done after another. -/
  trans : ∀ {c d e}, R c d → R d e → R c e
  /-- What is done to the parts of *all of* is done to the whole. -/
  allOf : ∀ {cs ds : List Condition}, cs.Forall₂ R ds → R (.allOf cs) (.allOf ds)
  /-- What is done to the parts of *any of* is done to the whole. -/
  anyOf : ∀ {cs ds : List Condition}, cs.Forall₂ R ds → R (.anyOf cs) (.anyOf ds)
  /-- Each rule keeps the relation, and plain names. -/
  rule : ∀ (rule : Rule) {c d : Condition}, c.namesPlain = true → rule.simplified? c = some d →
    d.namesPlain = true ∧ R c d

namespace Kept

variable {R : Condition → Condition → Prop} {rules : List Rule}

theorem of_applyRules (hR : Kept R) {c d : Condition} (hc : c.namesPlain = true)
    (h : applyRules rules c = some d) : d.namesPlain = true ∧ R c d := by
  induction rules generalizing c d with
  | nil => cases h
  | cons rule rules ih =>
    rw [applyRules] at h
    split at h
    · exact ih hc h
    · -- The other rules are applied to what the first one made, whose names are plain too.
      rename_i e he
      cases h
      obtain ⟨hplain, hce⟩ := hR.rule rule hc he
      cases hrest : applyRules rules e with
      | none => exact ⟨hplain, hce⟩
      | some d =>
        obtain ⟨hplain', hed⟩ := ih hplain hrest
        exact ⟨hplain', hR.trans hce hed⟩

/-- Once the parts were passed over, the rules keep what that came to. -/
theorem of_finish (hR : Kept R) {c d : Condition} {passed : Option Condition}
    (hc : c.namesPlain = true) (hpassed : ∀ e, passed = some e → e.namesPlain = true ∧ R c e)
    (h : finish rules c passed = some d) : d.namesPlain = true ∧ R c d := by
  cases passed with
  | none => exact hR.of_applyRules hc h
  | some e =>
    obtain ⟨hplain, hce⟩ := hpassed e rfl
    cases h
    cases hrules : applyRules rules e with
    | none => exact ⟨hplain, hce⟩
    | some d =>
      obtain ⟨hplain', hed⟩ := hR.of_applyRules hplain hrules
      exact ⟨hplain', hR.trans hce hed⟩

/-- If a pass keeps each part, so it does all, whichever of them it changes. -/
theorem of_passParts (hR : Kept R) {cs ds : List Condition}
    (hcs : ∀ c ∈ cs, c.namesPlain = true)
    (hpass : ∀ c ∈ cs, ∀ d, pass rules c = some d → d.namesPlain = true ∧ R c d)
    (h : passParts rules cs = some ds) : (∀ d ∈ ds, d.namesPlain = true) ∧ cs.Forall₂ R ds := by
  induction cs generalizing ds with
  | nil => cases h
  | cons c cs ih =>
    obtain ⟨hc, hcs⟩ := List.forall_mem_cons.1 hcs
    -- What a pass does not change stays as it is.
    have hhead : ((pass rules c).getD c).namesPlain = true ∧ R c ((pass rules c).getD c) := by
      cases hd : pass rules c with
      | none => exact ⟨hc, hR.refl c⟩
      | some d => exact hpass c List.mem_cons_self d hd
    have htail : (∀ d ∈ (passParts rules cs).getD cs, d.namesPlain = true) ∧
        cs.Forall₂ R ((passParts rules cs).getD cs) := by
      cases hds : passParts rules cs with
      | none => exact ⟨hcs, List.forall₂_same.2 fun d _ => hR.refl d⟩
      | some ds => exact ih hcs (fun d hd => hpass d (List.mem_cons_of_mem _ hd)) hds
    rw [passParts] at h
    split at h
    · cases h
    · cases h
      exact ⟨List.forall_mem_cons.2 ⟨hhead.1, htail.1⟩, .cons hhead.2 htail.2⟩

/-- A pass from the inside out keeps what its rules keep. -/
theorem of_pass (hR : Kept R) : ∀ c : Condition, c.namesPlain = true →
    ∀ d, pass rules c = some d → d.namesPlain = true ∧ R c d := by
  refine byParts (fun _ hc _ h => hR.of_applyRules hc h) (fun _ hc _ h => hR.of_applyRules hc h)
    (fun _ hc _ h => hR.of_applyRules hc h) (fun _ _ hc _ h => hR.of_applyRules hc h)
    (fun hc _ h => hR.of_applyRules hc h) ?allOf ?anyOf
  case allOf =>
    intro parts ih hc d h
    have hparts := passes_allOf.1 hc
    refine hR.of_finish hc (fun e he => ?_) h
    obtain ⟨ds, hds, rfl⟩ := Option.map_eq_some_iff.1 he
    obtain ⟨hplain, hkept⟩ :=
      hR.of_passParts hparts (fun c hpart => ih c hpart (hparts c hpart)) hds
    exact ⟨passes_allOf.2 hplain, hR.allOf hkept⟩
  case anyOf =>
    intro parts ih hc d h
    have hparts := passes_anyOf.1 hc
    refine hR.of_finish hc (fun e he => ?_) h
    obtain ⟨ds, hds, rfl⟩ := Option.map_eq_some_iff.1 he
    obtain ⟨hplain, hkept⟩ :=
      hR.of_passParts hparts (fun c hpart => ih c hpart (hparts c hpart)) hds
    exact ⟨passes_anyOf.2 hplain, hR.anyOf hkept⟩

theorem of_repeatPass (hR : Kept R) {passes : Nat} {c : Condition} (hc : c.namesPlain = true) :
    (repeatPass rules passes c).condition.namesPlain = true ∧
      R c (repeatPass rules passes c).condition := by
  induction passes generalizing c with
  | zero => exact ⟨hc, hR.refl c⟩
  | succ passes ih =>
    rw [repeatPass]
    split
    · exact ⟨hc, hR.refl c⟩
    · rename_i d hd
      obtain ⟨hplain, hcd⟩ := hR.of_pass c hc d hd
      obtain ⟨hplain', hde⟩ := ih hplain
      exact ⟨hplain', hR.trans hcd hde⟩

/-- An optimizer keeps what the rules keep, settled or not. -/
theorem of_optimize (hR : Kept R) (o : Optimizer) {c : Condition} (hc : c.namesPlain = true) :
    (o.optimize c).namesPlain = true ∧ R c (o.optimize c) := hR.of_repeatPass hc

end Kept

end Authorization.Optimizer
