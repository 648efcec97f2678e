import Authorization.Proofs.Condition.Leaves
import Authorization.Proofs.Simplification.Grouping
import Authorization.Proofs.Simplification.Meaning

/-!
# Optimizing keeps leaves

Rules rearrange a condition, drop parts that are repeated, and merge conditions of
some kinds. A leaf of another kind, which cannot be merged, is never lost, and none
comes up (`Optimizer.mem_leaves_optimize`): a part is dropped only if one with the
same leaves is kept, and of alternatives that share a rest the leaves in the rest
are those in any of them.
-/

namespace Authorization

open Condition

namespace Condition

variable {c d : Condition} {cs : List Condition}

@[simp] theorem leaves_all (cs : List Condition) : (all cs).leaves = cs.flatMap leaves := by
  unfold all
  split
  · rw [List.flatMap_singleton]
  · rw [leaves_allOf]

theorem flatMap_leaves_alternatives (c : Condition) :
    c.alternatives.flatMap leaves = c.leaves := by
  cases c with
  | anyOf parts => rw [alternatives, leaves_anyOf]
  | _ => exact List.flatMap_singleton _ _

@[simp] theorem leaves_any (cs : List Condition) : (any cs).leaves = cs.flatMap leaves := by
  have hflat : (cs.flatMap alternatives).flatMap leaves = cs.flatMap leaves := by
    rw [List.flatMap_assoc]
    exact List.flatMap_congr fun c _ => flatMap_leaves_alternatives c
  rw [any, ← hflat]
  split
  · rename_i c h
    rw [h, List.flatMap_singleton]
  · rw [leaves_anyOf]

theorem leaves_of_mergeable (h : c.kind.mergeable = true) : c.leaves = [c] := by
  cases c with
  | allOf => cases h
  | anyOf => cases h
  | _ => rfl

/-- Without those that repeat the id of another, conditions have the same leaves. -/
theorem mem_leaves_distinct (hcs : ∀ c ∈ cs, c.passes .delimited = true) {x : Condition} :
    x ∈ (distinct cs).flatMap leaves ↔ x ∈ cs.flatMap leaves := by
  rw [List.mem_flatMap, List.mem_flatMap]
  constructor
  · rintro ⟨c, hc, hx⟩
    exact ⟨c, mem_of_mem_distinct hc, hx⟩
  · rintro ⟨c, hc, hx⟩
    obtain ⟨d, hd, hid⟩ := exists_mem_distinct hc
    have halike : Alike d c := alike_of_id_eq (hcs d (mem_of_mem_distinct hd)) (hcs c hc) hid
    exact ⟨d, hd, halike.leaves_perm.mem_iff.2 hx⟩

end Condition

/-! ### Alternatives that share a rest -/

namespace Factored

variable {kind : Kind} {found : List Factored} {f g : Factored} {c x : Condition}
  {cs : List Condition}

/-- A leaf that cannot be merged is in the rest. -/
theorem mem_leaves_of_ofAlternative? (hkind : kind.mergeable = true)
    (hx : x.kind.mergeable = false) (h : ofAlternative? kind c = some f) :
    x ∈ f.rest.flatMap leaves ↔ x ∈ c.leaves := by
  have hother : ∀ d : Condition, d.kind = kind → x ∉ d.leaves := by
    intro d hd hmem
    rw [leaves_of_mergeable (hd ▸ hkind)] at hmem
    rw [List.mem_singleton.1 hmem, hd, hkind] at hx
    cases hx
  obtain ⟨hc, rfl⟩ | ⟨parts, rfl, -, hrest⟩ := cases_of_ofAlternative? h
  · exact ⟨fun h => absurd h List.not_mem_nil, fun h => absurd h (hother c hc)⟩
  · rw [hrest, leaves_allOf, List.mem_flatMap, List.mem_flatMap]
    constructor
    · rintro ⟨d, hd, hmem⟩
      exact ⟨d, List.mem_of_mem_filter hd, hmem⟩
    · rintro ⟨d, hd, hmem⟩
      exact ⟨d, List.mem_filter.2 ⟨hd, bne_iff_ne.2 fun h => hother d h hmem⟩, hmem⟩

/-- What is merged has such leaves in the rest only. -/
theorem mem_leaves_merged (hkind : kind.mergeable = true) (hx : x.kind.mergeable = false)
    (hfound : ∀ g ∈ found, g.factor.kind = kind) (hf : f ∈ found) :
    x ∈ (f.merged found).leaves ↔ x ∈ f.rest.flatMap leaves := by
  have hunion : (union ((found.filter (·.key == f.key)).map factor)).kind = kind :=
    kind_union hkind (factors_ne_nil hf) (kind_factors hfound f.key)
  rw [merged, leaves_all, List.flatMap_cons, leaves_of_mergeable (hunion ▸ hkind),
    List.singleton_append, List.mem_cons, or_iff_right]
  rintro rfl
  rw [hunion, hkind] at hx
  cases hx

/-- Rests with one key have the same leaves. -/
theorem mem_leaves_of_key_eq (hf : f.Passes .delimited) (hg : g.Passes .delimited)
    (h : f.key = g.key) : x ∈ f.rest.flatMap leaves ↔ x ∈ g.rest.flatMap leaves := by
  rcases rests_of_key_eq h with ⟨hf0, hg0⟩ | ⟨-, -, hid⟩
  · rw [hf0, hg0]
  · have halike := alike_of_id_eq (passes_all hf.2) (passes_all hg.2) hid
    rw [← leaves_all, ← leaves_all]
    exact halike.leaves_perm.mem_iff

/-- Merging alternatives neither loses such leaves nor brings them up. -/
theorem mem_leaves_mergeFrom (hkind : kind.mergeable = true) (hx : x.kind.mergeable = false)
    (hcs : ∀ c ∈ cs, c.passes .delimited = true) :
    x ∈ (mergeFrom kind (takenApart kind cs) [] cs).flatMap leaves ↔ x ∈ cs.flatMap leaves := by
  have hfound : ∀ g ∈ takenApart kind cs, g.factor.kind = kind := kind_factor_of_mem_found
  have hmerged : ∀ {f c}, c ∈ cs → ofAlternative? kind c = some f →
      (x ∈ (f.merged (takenApart kind cs)).leaves ↔ x ∈ f.rest.flatMap leaves) :=
    fun hc hf => mem_leaves_merged hkind hx hfound (List.mem_filterMap.2 ⟨_, hc, hf⟩)
  rw [((mergeFrom_perm [] cs).flatMap_right leaves).mem_iff, List.flatMap_append, List.mem_append]
  constructor
  · rintro (hkept | hshared)
    · obtain ⟨c, hc, hmem⟩ := List.mem_flatMap.1 hkept
      exact List.mem_flatMap.2 ⟨c, List.mem_of_mem_filter hc, hmem⟩
    · obtain ⟨d, hd, hmem⟩ := List.mem_flatMap.1 hshared
      obtain ⟨f, hf, rfl⟩ := List.mem_map.1 hd
      obtain ⟨c, hc, hfc⟩ := exists_of_mem_sharing (mem_of_mem_firstsAfter hf)
      exact List.mem_flatMap.2 ⟨c, hc,
        (mem_leaves_of_ofAlternative? hkind hx hfc).1 ((hmerged hc hfc).1 hmem)⟩
  · intro hmem
    obtain ⟨c, hc, hmem⟩ := List.mem_flatMap.1 hmem
    by_cases hkept : isKept kind (takenApart kind cs) c = true
    · exact .inl (List.mem_flatMap.2 ⟨c, List.mem_filter.2 ⟨hc, hkept⟩, hmem⟩)
    · -- The first alternative with the rest is merged, and its rest has the same leaves.
      obtain ⟨f, hf, hshared⟩ : ∃ f, ofAlternative? kind c = some f ∧
          f.isShared (takenApart kind cs) = true := by
        rw [isKept, Option.all_eq_true] at hkept
        push Not at hkept
        obtain ⟨f, hf, hshared⟩ := hkept
        exact ⟨f, hf, by simpa using hshared⟩
      have hsharing : f ∈ sharing kind (takenApart kind cs) cs :=
        List.mem_filter.2 ⟨List.mem_filterMap.2 ⟨c, hc, hf⟩, hshared⟩
      obtain ⟨g, hg, hkey⟩ := List.mem_map.1 (mem_keys_firstsAfter.2
        ⟨List.mem_map_of_mem hsharing, List.not_mem_nil⟩)
      obtain ⟨e, he, hge⟩ := exists_of_mem_sharing (mem_of_mem_firstsAfter hg)
      refine .inr (List.mem_flatMap.2 ⟨_, List.mem_map_of_mem hg, (hmerged he hge).2 ?_⟩)
      exact (mem_leaves_of_key_eq (passes_of_ofAlternative? hge (hcs e he))
        (passes_of_ofAlternative? hf (hcs c hc)) hkey).2
          ((mem_leaves_of_ofAlternative? hkind hx hf).2 hmem)

end Factored

/-! ### Rules -/

/-- What is made of a condition has the same leaves, but for those of kinds that can be merged. -/
def KeepsLeaves (c d : Condition) : Prop :=
  ∀ x : Condition, x.kind.mergeable = false → (x ∈ d.leaves ↔ x ∈ c.leaves)

namespace KeepsLeaves

variable {c d : Condition} {cs ds : List Condition}

theorem of_eq (h : d.leaves = c.leaves) : KeepsLeaves c d := fun _ _ => by rw [h]

theorem parts (h : cs.Forall₂ KeepsLeaves ds) {x : Condition} (hx : x.kind.mergeable = false) :
    x ∈ ds.flatMap leaves ↔ x ∈ cs.flatMap leaves := by
  induction h with
  | nil => exact .rfl
  | cons hcd _ ih =>
    rw [List.flatMap_cons, List.flatMap_cons, List.mem_append, List.mem_append, hcd x hx, ih]

theorem allOf (h : cs.Forall₂ KeepsLeaves ds) : KeepsLeaves (.allOf cs) (.allOf ds) := by
  intro x hx
  rw [leaves_allOf, leaves_allOf, parts h hx]

theorem anyOf (h : cs.Forall₂ KeepsLeaves ds) : KeepsLeaves (.anyOf cs) (.anyOf ds) := by
  intro x hx
  rw [leaves_anyOf, leaves_anyOf, parts h hx]

end KeepsLeaves

namespace Rule

variable {c d : Condition}

theorem flatMap_leaves_conjuncts (c : Condition) : (conjuncts c).flatMap leaves = c.leaves := by
  cases c with
  | allOf parts => rw [conjuncts, leaves_allOf]
  | _ => exact List.flatMap_singleton _ _

/-- Lifting parts leaves the leaves as they are. -/
theorem leaves_flatten? (h : flatten? c = some d) : d.leaves = c.leaves := by
  unfold flatten? at h
  split at h
  · cases h
    rw [leaves_allOf, List.flatMap_singleton]
  · cases h
    rw [leaves_anyOf, List.flatMap_singleton]
  · split at h
    · cases h
      rw [leaves_allOf, leaves_allOf, List.flatMap_assoc]
      exact List.flatMap_congr fun c _ => flatMap_leaves_conjuncts c
    · cases h
  · split at h
    · cases h
      rw [leaves_anyOf, leaves_anyOf, List.flatMap_assoc]
      exact List.flatMap_congr fun c _ => flatMap_leaves_alternatives c
    · cases h
  · cases h

theorem keepsLeaves_dropRepeats? (hc : c.passes .delimited = true) (h : dropRepeats? c = some d) :
    KeepsLeaves c d := by
  intro x _
  cases c with
  | allOf parts =>
    obtain ⟨ds, hds, rfl⟩ := Option.map_eq_some_iff.1 h
    rw [eq_distinct_of_fewer? hds, leaves_allOf, leaves_allOf,
      mem_leaves_distinct (passes_allOf.1 hc)]
  | anyOf parts =>
    obtain ⟨ds, hds, rfl⟩ := Option.map_eq_some_iff.1 h
    rw [eq_distinct_of_fewer? hds, leaves_anyOf, leaves_anyOf,
      mem_leaves_distinct (passes_anyOf.1 hc)]
  | _ => cases h

theorem keepsLeaves_factorBy? {kind : Kind} (hc : c.passes .delimited = true)
    (h : factorBy? kind c = some d) : KeepsLeaves c d := by
  unfold factorBy? at h
  split at h
  · cases h
  rename_i hkind
  split at h
  · simp only at h
    split at h
    · cases h
      intro x hx
      rw [leaves_any, leaves_anyOf]
      exact Factored.mem_leaves_mergeFrom (by simpa using hkind) hx (passes_anyOf.1 hc)
    · cases h
  · cases h

/-- A rule keeps the leaves that cannot be merged. -/
theorem keepsLeaves_simplified? (rule : Rule) (hc : c.namesPlain = true)
    (h : rule.simplified? c = some d) : KeepsLeaves c d :=
  have hc := passes_delimited_of_namesPlain hc
  match rule with
  | flatten => .of_eq (leaves_flatten? h)
  | dropRepeats => keepsLeaves_dropRepeats? hc h
  | factor _ => keepsLeaves_factorBy? hc h

end Rule

namespace Optimizer

theorem kept_keepsLeaves : Kept KeepsLeaves where
  refl _ _ _ := .rfl
  trans h h' x hx := (h' x hx).trans (h x hx)
  allOf := .allOf
  anyOf := .anyOf
  rule rule _ _ hc h :=
    ⟨(rule.keeps_simplified? hc h).passes _ hc, rule.keepsLeaves_simplified? hc h⟩

/-- A leaf of a kind that cannot be merged is in an optimized condition just if it was there. -/
theorem mem_leaves_optimize (o : Optimizer) {c x : Condition} (hc : c.namesPlain = true)
    (hx : x.kind.mergeable = false) : x ∈ (o.optimize c).leaves ↔ x ∈ c.leaves :=
  (kept_keepsLeaves.of_optimize o hc).2 x hx

end Optimizer

end Authorization
