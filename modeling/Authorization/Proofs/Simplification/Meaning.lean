import Authorization.Proofs.Simplification.Factoring
import Authorization.Proofs.Simplification.Passes

/-!
# Optimizing keeps the meaning

What is made of a condition *keeps* it if it means the same, and passes every
check that the condition passes. If names are plain, each rule keeps a condition
(`Rule.keeps_simplified?`), and this is something that passes keep
(`Optimizer.kept_keeps`): so does a pass from the inside out
(`Optimizer.keeps_pass`), and any number of passes, whether the condition settles
or not (`Optimizer.keeps_optimize`).

* `Optimizer.holds_optimize_iff`: neither optimizing nor any rule for itself
  changes how a condition is decided for an object.
-/

namespace Authorization

open Condition

/-- What is made of a condition passes every check that it passes, and means the same. -/
structure Keeps (c d : Condition) : Prop where
  /-- Every check is passed as before. -/
  passes : ∀ k : Check, c.passes k = true → d.passes k = true
  /-- The meaning is the same. -/
  meaning : SameMeaning d c

namespace Keeps

theorem refl (c : Condition) : Keeps c c := ⟨fun _ h => h, .refl c⟩

theorem trans {c d e : Condition} (h : Keeps c d) (h' : Keeps d e) : Keeps c e :=
  ⟨fun k hc => h'.passes k (h.passes k hc), h'.meaning.trans h.meaning⟩

variable {cs ds : List Condition}

theorem passes_of_forall₂ (h : cs.Forall₂ Keeps ds) {k : Check}
    (hcs : ∀ c ∈ cs, c.passes k = true) : ∀ d ∈ ds, d.passes k = true := by
  induction h with
  | nil => exact fun _ hd => absurd hd List.not_mem_nil
  | cons hcd _ ih =>
    exact List.forall_mem_cons.2 ⟨hcd.passes k (hcs _ List.mem_cons_self),
      ih fun c hc => hcs c (List.mem_cons_of_mem _ hc)⟩

theorem allOf (h : cs.Forall₂ Keeps ds) : Keeps (.allOf cs) (.allOf ds) := by
  refine ⟨fun k hk => passes_allOf.2 (passes_of_forall₂ h (passes_allOf.1 hk)), fun s r => ?_⟩
  rw [holdsOn_allOf, holdsOn_allOf]
  induction h with
  | nil => rfl
  | cons hcd _ ih => rw [List.all_cons, List.all_cons, hcd.meaning s r, ih]

theorem anyOf (h : cs.Forall₂ Keeps ds) : Keeps (.anyOf cs) (.anyOf ds) := by
  refine ⟨fun k hk => passes_anyOf.2 (passes_of_forall₂ h (passes_anyOf.1 hk)), fun s r => ?_⟩
  rw [holdsOn_anyOf, holdsOn_anyOf]
  induction h with
  | nil => rfl
  | cons hcd _ ih => rw [List.any_cons, List.any_cons, hcd.meaning s r, ih]

end Keeps

/-! ### Rules -/

namespace Rule

theorem all_conjuncts (s : Session) (r : Record) (c : Condition) :
    (conjuncts c).all (holdsOn s r) = c.holdsOn s r := by
  cases c with
  | allOf parts => rw [conjuncts, holdsOn_allOf]
  | _ => exact Bool.and_true _

theorem passes_conjuncts {k : Check} {c : Condition} (h : c.passes k = true) :
    ∀ d ∈ conjuncts c, d.passes k = true := by
  cases c with
  | allOf parts => exact passes_allOf.1 h
  | _ => exact fun d hd => List.mem_singleton.1 hd ▸ h

/-- Lifting parts keeps the meaning. -/
theorem keeps_flatten? {c d : Condition} (h : flatten? c = some d) : Keeps c d := by
  unfold flatten? at h
  split at h
  -- A single part is as much as the whole.
  · cases h
    refine ⟨fun k hk => passes_allOf.1 hk _ List.mem_cons_self, fun s r => ?_⟩
    rw [holdsOn_allOf]
    exact (Bool.and_true _).symm
  · cases h
    refine ⟨fun k hk => passes_anyOf.1 hk _ List.mem_cons_self, fun s r => ?_⟩
    rw [holdsOn_anyOf]
    exact (Bool.or_false _).symm
  -- Parts of parts stand in the place of these.
  · rename_i parts _
    split at h
    · cases h
      refine ⟨fun k hk => passes_allOf.2 fun d hd => ?_, fun s r => ?_⟩
      · obtain ⟨e, he, hd⟩ := List.mem_flatMap.1 hd
        exact passes_conjuncts (passes_allOf.1 hk e he) d hd
      · rw [holdsOn_allOf, holdsOn_allOf, List.all_flatMap]
        exact congrArg parts.all (funext (all_conjuncts s r))
    · cases h
  · rename_i parts _
    split at h
    · cases h
      refine ⟨fun k hk => passes_anyOf.2 fun d hd => ?_, fun s r => ?_⟩
      · obtain ⟨e, he, hd⟩ := List.mem_flatMap.1 hd
        exact passes_alternatives (passes_anyOf.1 hk e he) d hd
      · rw [holdsOn_anyOf, holdsOn_anyOf, any_flatMap_alternatives]
    · cases h
  · cases h

theorem eq_distinct_of_fewer? {cs ds : List Condition} (h : fewer? cs = some ds) :
    ds = distinct cs := by
  simp only [fewer?] at h
  split at h
  · cases h
  · exact (Option.some.inj h).symm

/-- Dropping parts that repeat an earlier one keeps the meaning. -/
theorem keeps_dropRepeats? {c d : Condition} (hc : c.namesPlain = true)
    (h : dropRepeats? c = some d) : Keeps c d := by
  cases c with
  | allOf parts =>
    obtain ⟨ds, hds, rfl⟩ := Option.map_eq_some_iff.1 h
    rw [eq_distinct_of_fewer? hds]
    refine ⟨fun k hk => passes_allOf.2 (passes_distinct (passes_allOf.1 hk)), fun s r => ?_⟩
    rw [holdsOn_allOf, holdsOn_allOf, all_distinct (passes_allOf.1 hc)]
  | anyOf parts =>
    obtain ⟨ds, hds, rfl⟩ := Option.map_eq_some_iff.1 h
    rw [eq_distinct_of_fewer? hds]
    refine ⟨fun k hk => passes_anyOf.2 (passes_distinct (passes_anyOf.1 hk)), fun s r => ?_⟩
    rw [holdsOn_anyOf, holdsOn_anyOf, any_distinct (passes_anyOf.1 hc)]
  | _ => cases h

/-- Merging alternatives that share a rest keeps the meaning. -/
theorem keeps_factorBy? {kind : Kind} {c d : Condition} (hc : c.namesPlain = true)
    (h : factorBy? kind c = some d) : Keeps c d := by
  unfold factorBy? at h
  split at h
  · cases h
  split at h
  · rename_i parts _
    simp only at h
    split at h
    · cases h
      refine ⟨fun k hk => passes_any (Factored.passes_mergeFrom (passes_anyOf.1 hk)),
        fun s r => ?_⟩
      rw [holdsOn_any, holdsOn_anyOf, Factored.any_mergeFrom (passes_anyOf.1 hc)]
    · cases h
  · cases h

/-- What a rule makes of a condition means the same. -/
theorem keeps_simplified? (rule : Rule) {c d : Condition} (hc : c.namesPlain = true)
    (h : rule.simplified? c = some d) : Keeps c d :=
  match rule with
  | flatten => keeps_flatten? h
  | dropRepeats => keeps_dropRepeats? hc h
  | factor _ => keeps_factorBy? hc h

end Rule

/-! ### Passes -/

namespace Optimizer

/-- Rules, and so passes, keep the meaning. -/
theorem kept_keeps : Kept Keeps where
  refl := .refl
  trans := .trans
  allOf := .allOf
  anyOf := .anyOf
  rule rule _ _ hc h :=
    have hkeeps := rule.keeps_simplified? hc h
    ⟨hkeeps.passes _ hc, hkeeps⟩

/-- What a pass makes of a condition means the same. -/
theorem keeps_pass (rules : List Rule) (c : Condition) (hc : c.namesPlain = true) (d : Condition)
    (h : pass rules c = some d) : Keeps c d := (kept_keeps.of_pass c hc d h).2

/-- An optimized condition means the same, settled or not. -/
theorem keeps_optimize (o : Optimizer) {c : Condition} (hc : c.namesPlain = true) :
    Keeps c (o.optimize c) := (kept_keeps.of_optimize o hc).2

/-- For an object, a condition is decided as before after optimizing it with the standard rules
    and any number of passes, and after applying one rule to it. -/
theorem holds_optimize_iff {c : Condition} (hc : c.namesPlain = true) (s : Session) (r : Record) :
    (∀ passes b, ((standard passes).optimize c).holds s (some r) = .ok b ↔
      c.holds s (some r) = .ok b) ∧
    (∀ (rule : Rule) (d : Condition), rule.simplified? c = some d →
      ∀ b, d.holds s (some r) = .ok b ↔ c.holds s (some r) = .ok b) ∧
    ∃ b, c.holds s (some r) = .ok b := by
  have hkeeps : ∀ d, Keeps c d →
      ∀ b, d.holds s (some r) = .ok b ↔ c.holds s (some r) = .ok b := by
    intro d hd b
    rw [holds_some, holds_some, hd.meaning s r]
  exact ⟨fun passes => hkeeps _ (keeps_optimize _ hc),
    fun rule d hd => hkeeps d (rule.keeps_simplified? hc hd), _, holds_some c⟩

/-- Editors, or admins by an alternative written the other way round, of what is in English. -/
def editorsOrAdmins : Condition :=
  .anyOf [.allOf [.role (.ofList ["editor"]), .variant (.ofList ["en"])],
    .allOf [.variant (.ofList ["en"]), .role (.ofList ["admin"])], .anyOf []]

/-- Editors and admins, of what is in English. -/
def editorsAndAdmins : Condition :=
  .allOf [.role (.ofList ["admin", "editor"]), .variant (.ofList ["en"])]

/-- A session that holds a role that the second alternative names. -/
def adminSession : Session := Session.blank.withRoles ["admin"]

/-- An object in English. -/
def inEnglish : Record := { Record.blank with variant := some "en" }

theorem holds_editorsOrAdmins :
    editorsOrAdmins.namesPlain = true ∧
      (Rule.factor .role).simplified? editorsOrAdmins = some editorsAndAdmins ∧
      ((standard 1).optimize editorsOrAdmins).holds adminSession (some inEnglish) = .ok true ∧
      editorsAndAdmins.holds adminSession (some inEnglish) = .ok true := by
  have hplain : editorsOrAdmins.namesPlain = true := by decide
  have hrule : (Rule.factor .role).simplified? editorsOrAdmins = some editorsAndAdmins := rfl
  have hiff := holds_optimize_iff hplain adminSession inEnglish
  have htrue : editorsOrAdmins.holds adminSession (some inEnglish) = .ok true := by rfl
  exact ⟨hplain, hrule, (hiff.1 1 true).2 htrue, (hiff.2.1 _ _ hrule true).2 htrue⟩

end Optimizer

end Authorization
