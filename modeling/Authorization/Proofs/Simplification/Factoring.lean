import Authorization.Proofs.Condition.Merging
import Authorization.Simplification.Factoring

/-!
# Factoring keeps the meaning

An alternative taken apart holds where its factor and its rest do. Rests with
one key mean the same (`all_rest_eq_of_key_eq`), so a merged alternative holds
where any of those it is merged from does (`holdsOn_merged`). Of the
alternatives, each is kept, or merged with those that share its rest, at the
first of them: `any_mergeFrom`.
-/

namespace Authorization

open Condition

variable {s : Session} {r : Record} {k : Check}

namespace Factored

variable {found : List Factored} {f : Factored}

/-- Whether an alternative taken apart holds. -/
def holdsOn (s : Session) (r : Record) (f : Factored) : Bool :=
  f.factor.holdsOn s r && f.rest.all (Condition.holdsOn s r)

/-- An alternative taken apart passes a check. -/
def Passes (k : Check) (f : Factored) : Prop :=
  f.factor.passes k = true ∧ ∀ c ∈ f.rest, c.passes k = true

/-- An alternative is taken apart if it is of the kind, or if all of its parts have to hold and
    one of them is of the kind. -/
theorem cases_of_ofAlternative? {kind : Kind} {c : Condition}
    (h : ofAlternative? kind c = some f) :
    (c.kind = kind ∧ f = ⟨c, []⟩) ∨
      ∃ parts, c = .allOf parts ∧ parts.filter (·.kind == kind) = [f.factor] ∧
        f.rest = parts.filter (·.kind != kind) := by
  unfold ofAlternative? at h
  split at h
  · rename_i hkind
    cases h
    exact .inl ⟨hkind, rfl⟩
  · split at h
    · rename_i parts _
      split at h
      · rename_i factor hfactor
        cases h
        exact .inr ⟨parts, rfl, hfactor, rfl⟩
      · cases h
    · cases h

/-- What passes a check, passes it taken apart. -/
theorem passes_of_ofAlternative? {kind : Kind} {c : Condition}
    (h : ofAlternative? kind c = some f) (hc : c.passes k = true) : f.Passes k := by
  obtain ⟨_, rfl⟩ | ⟨parts, rfl, hfactor, hrest⟩ := cases_of_ofAlternative? h
  · exact ⟨hc, fun _ hd => absurd hd List.not_mem_nil⟩
  · have hparts := passes_allOf.1 hc
    have hfilter : f.factor ∈ parts.filter (·.kind == kind) := hfactor ▸ List.mem_cons_self
    refine ⟨hparts _ (List.mem_of_mem_filter hfilter), fun d hd => ?_⟩
    rw [hrest] at hd
    exact hparts d (List.mem_of_mem_filter hd)

/-- Taken apart, an alternative means the same. -/
theorem holdsOn_of_ofAlternative? {kind : Kind} {c : Condition}
    (h : ofAlternative? kind c = some f) : f.holdsOn s r = c.holdsOn s r := by
  obtain ⟨_, rfl⟩ | ⟨parts, rfl, hfactor, hrest⟩ := cases_of_ofAlternative? h
  · exact Bool.and_true _
  · have hfilter : f.factor ∈ parts.filter (·.kind == kind) := hfactor ▸ List.mem_cons_self
    have hmem : f.factor ∈ parts := List.mem_of_mem_filter hfilter
    -- The parts are the one of the kind, and those that are not of it.
    have hsplit : ∀ d ∈ parts, d = f.factor ∨ d ∈ f.rest := by
      intro d hd
      by_cases hkind : d.kind = kind
      · have hd' : d ∈ parts.filter (·.kind == kind) :=
          List.mem_filter.2 ⟨hd, beq_iff_eq.2 hkind⟩
        rw [hfactor] at hd'
        exact .inl (List.mem_singleton.1 hd')
      · rw [hrest]
        exact .inr (List.mem_filter.2 ⟨hd, bne_iff_ne.2 hkind⟩)
    rw [holdsOn, holdsOn_allOf, Bool.eq_iff_iff, Bool.and_eq_true, List.all_eq_true,
      List.all_eq_true]
    constructor
    · rintro ⟨htrue, hall⟩ d hd
      rcases hsplit d hd with rfl | hd
      · exact htrue
      · exact hall d hd
    · refine fun hall => ⟨hall _ hmem, fun d hd => hall d ?_⟩
      rw [hrest] at hd
      exact List.mem_of_mem_filter hd

/-- The key of an empty rest is empty, and that of another one the id of all of it. -/
theorem key_eq (f : Factored) : f.key = if f.rest = [] then "" else (Condition.all f.rest).id := by
  rw [key]
  split
  · rename_i hrest
    rw [if_pos hrest]
  · rename_i c hrest
    rw [if_neg (hrest ▸ List.cons_ne_nil _ _), hrest, Condition.all]
  · rename_i hnil _
    rw [if_neg hnil]

/-- Rests with one key are empty both, or all of the one has the id of all of the other. -/
theorem rests_of_key_eq {f g : Factored} (h : f.key = g.key) :
    (f.rest = [] ∧ g.rest = []) ∨
      (f.rest ≠ [] ∧ g.rest ≠ [] ∧ (Condition.all f.rest).id = (Condition.all g.rest).id) := by
  rw [key_eq, key_eq] at h
  split at h
  · rename_i hf
    split at h
    · rename_i hg
      exact .inl ⟨hf, hg⟩
    · exact absurd h.symm (id_ne_empty _)
  · rename_i hf
    split at h
    · exact absurd h (id_ne_empty _)
    · rename_i hg
      exact .inr ⟨hf, hg, h⟩

/-- Rests with one key mean the same. -/
theorem all_rest_eq_of_key_eq {f g : Factored} (hf : f.Passes .plain) (hg : g.Passes .plain)
    (h : f.key = g.key) :
    f.rest.all (Condition.holdsOn s r) = g.rest.all (Condition.holdsOn s r) := by
  rcases rests_of_key_eq h with ⟨hf0, hg0⟩ | ⟨-, -, hid⟩
  · rw [hf0, hg0]
  · rw [← holdsOn_all, ← holdsOn_all]
    exact sameMeaning_of_id_eq (passes_all hf.2) (passes_all hg.2) hid s r

theorem passes_merged (hfound : ∀ g ∈ found, g.Passes k) (hf : f.Passes k) :
    (f.merged found).passes k = true := by
  refine passes_all (List.forall_mem_cons.2 ⟨passes_union fun c hc => ?_, hf.2⟩)
  obtain ⟨g, hg, rfl⟩ := List.mem_map.1 hc
  exact (hfound g (List.mem_of_mem_filter hg)).1

/-- Merged alternatives hold where any of them does. -/
theorem holdsOn_merged (hfound : ∀ g ∈ found, g.Passes .plain) (hf : f.Passes .plain) :
    (f.merged found).holdsOn s r = true ↔ ∃ g ∈ found, g.key = f.key ∧ g.holdsOn s r = true := by
  have hfactors : ∀ c ∈ (found.filter (·.key == f.key)).map factor, c.namesPlain = true := by
    intro c hc
    obtain ⟨g, hg, rfl⟩ := List.mem_map.1 hc
    exact (hfound g (List.mem_of_mem_filter hg)).1
  rw [merged, holdsOn_all, List.all_cons, holdsOn_union hfactors, Bool.and_eq_true,
    List.any_eq_true]
  constructor
  · rintro ⟨⟨c, hc, htrue⟩, hrest⟩
    obtain ⟨g, hg, rfl⟩ := List.mem_map.1 hc
    obtain ⟨hg, hkey⟩ := List.mem_filter.1 hg
    have hkey := beq_iff_eq.1 hkey
    refine ⟨g, hg, hkey, ?_⟩
    rw [holdsOn, htrue, all_rest_eq_of_key_eq (hfound g hg) hf hkey, hrest]
    rfl
  · rintro ⟨g, hg, hkey, htrue⟩
    rw [holdsOn, Bool.and_eq_true] at htrue
    refine ⟨⟨_, List.mem_map_of_mem (List.mem_filter.2 ⟨hg, beq_iff_eq.2 hkey⟩), htrue.1⟩, ?_⟩
    rw [← all_rest_eq_of_key_eq (hfound g hg) hf hkey]
    exact htrue.2

/-! ### All alternatives -/

variable {kind : Kind}

/-- Nothing comes of the alternatives but themselves, and merged ones. -/
theorem eq_of_mem_mergeFrom {done : List String} {cs : List Condition} {d : Condition}
    (h : d ∈ mergeFrom kind found done cs) :
    d ∈ cs ∨ ∃ c ∈ cs, ∃ f, ofAlternative? kind c = some f ∧ d = f.merged found := by
  induction cs generalizing done with
  | nil => exact absurd h List.not_mem_nil
  | cons c cs ih =>
    have htail : ∀ {done : List String}, d ∈ mergeFrom kind found done cs → d ∈ c :: cs ∨
        ∃ e ∈ c :: cs, ∃ f, ofAlternative? kind e = some f ∧ d = f.merged found := by
      intro done hd
      rcases ih hd with hd | ⟨e, he, hf⟩
      · exact .inl (List.mem_cons_of_mem _ hd)
      · exact .inr ⟨e, List.mem_cons_of_mem _ he, hf⟩
    rw [mergeFrom] at h
    split at h
    · rcases List.mem_cons.1 h with rfl | h
      · exact .inl List.mem_cons_self
      · exact htail h
    · rename_i f hf
      split at h
      · rcases List.mem_cons.1 h with rfl | h
        · exact .inl List.mem_cons_self
        · exact htail h
      · split at h
        · exact htail h
        · rcases List.mem_cons.1 h with rfl | h
          · exact .inr ⟨c, List.mem_cons_self, f, hf, rfl⟩
          · exact htail h

/-- An alternative that holds is kept, or merged, or its rest was merged before. -/
theorem exists_mem_mergeFrom {done : List String} {cs : List Condition}
    (hcs : ∀ c ∈ cs, c.namesPlain = true) (hfound : ∀ g ∈ found, g.Passes .plain)
    (hmem : ∀ c ∈ cs, ∀ f, ofAlternative? kind c = some f → f ∈ found) {c : Condition}
    (hc : c ∈ cs) (htrue : c.holdsOn s r = true) :
    (∃ f, ofAlternative? kind c = some f ∧ f.key ∈ done) ∨
      ∃ d ∈ mergeFrom kind found done cs, d.holdsOn s r = true := by
  -- The invariant: a rest in `done` was merged to something that holds where `c` does.
  induction cs generalizing done with
  | nil => exact absurd hc List.not_mem_nil
  | cons e es ih =>
    have htail : ∀ done : List String, c ∈ es →
        (∃ f, ofAlternative? kind c = some f ∧ f.key ∈ done) ∨
          ∃ d ∈ mergeFrom kind found done es, d.holdsOn s r = true := fun done hc =>
      ih (fun d hd => hcs d (List.mem_cons_of_mem _ hd))
        (fun d hd => hmem d (List.mem_cons_of_mem _ hd)) hc
    -- Whatever comes first, what the others come to is there.
    have hlater : ∀ d : Condition, c ∈ es → (∃ f, ofAlternative? kind c = some f ∧ f.key ∈ done) ∨
        ∃ d' ∈ d :: mergeFrom kind found done es, d'.holdsOn s r = true := by
      intro d hc
      refine (htail done hc).imp_right ?_
      rintro ⟨d', hd', htrue'⟩
      exact ⟨d', List.mem_cons_of_mem _ hd', htrue'⟩
    rw [mergeFrom]
    split
    · rcases List.mem_cons.1 hc with rfl | hc
      · exact .inr ⟨c, List.mem_cons_self, htrue⟩
      · exact hlater e hc
    · rename_i f hf
      split
      · -- No other alternative shares the rest.
        rcases List.mem_cons.1 hc with rfl | hc
        · exact .inr ⟨c, List.mem_cons_self, htrue⟩
        · exact hlater e hc
      · split
        · rename_i hdone
          rcases List.mem_cons.1 hc with rfl | hc
          · exact .inl ⟨f, hf, List.contains_iff_mem.1 hdone⟩
          · exact htail done hc
        · have hplain := passes_of_ofAlternative? hf (hcs e List.mem_cons_self)
          -- An alternative with the rest of `f` holds, and so does what it is merged to.
          have hmerged : ∀ g, ofAlternative? kind c = some g → g.key = f.key →
              ∃ d ∈ f.merged found :: mergeFrom kind found (f.key :: done) es,
                d.holdsOn s r = true := by
            intro g hg hkey
            exact ⟨_, List.mem_cons_self, (holdsOn_merged hfound hplain).2
              ⟨g, hmem c hc g hg, hkey, (holdsOn_of_ofAlternative? hg).trans htrue⟩⟩
          rcases List.mem_cons.1 hc with rfl | hc
          · exact .inr (hmerged f hf rfl)
          · rcases htail (f.key :: done) hc with ⟨g, hg, hkey⟩ | ⟨d, hd, htrue'⟩
            · -- Its rest is that of `f`, or one that was merged before.
              rcases List.mem_cons.1 hkey with hkey | hkey
              · exact .inr (hmerged g hg hkey)
              · exact .inl ⟨g, hg, hkey⟩
            · exact .inr ⟨d, List.mem_cons_of_mem _ hd, htrue'⟩

/-- Alternatives taken apart as far as they can be pass what the alternatives do. -/
theorem passes_of_mem_found {cs : List Condition} (hcs : ∀ c ∈ cs, c.passes k = true) :
    ∀ g ∈ cs.filterMap (ofAlternative? kind), g.Passes k := by
  intro g hg
  obtain ⟨c, hc, hg⟩ := List.mem_filterMap.1 hg
  exact passes_of_ofAlternative? hg (hcs c hc)

theorem passes_mergeFrom {cs : List Condition} (hcs : ∀ c ∈ cs, c.passes k = true) :
    ∀ d ∈ mergeFrom kind (cs.filterMap (ofAlternative? kind)) [] cs, d.passes k = true := by
  intro d hd
  rcases eq_of_mem_mergeFrom hd with hd | ⟨c, hc, f, hf, rfl⟩
  · exact hcs d hd
  · exact passes_merged (passes_of_mem_found hcs) (passes_of_ofAlternative? hf (hcs c hc))

/-- Merging alternatives that share a rest leaves it as it is whether any of them holds. -/
theorem any_mergeFrom {cs : List Condition} (hcs : ∀ c ∈ cs, c.namesPlain = true) :
    (mergeFrom kind (cs.filterMap (ofAlternative? kind)) [] cs).any (Condition.holdsOn s r) =
      cs.any (Condition.holdsOn s r) := by
  have hfound : ∀ g ∈ cs.filterMap (ofAlternative? kind), g.Passes .plain :=
    passes_of_mem_found hcs
  rw [Bool.eq_iff_iff, List.any_eq_true, List.any_eq_true]
  constructor
  · -- What a merged alternative is merged from was there before.
    rintro ⟨d, hd, htrue⟩
    rcases eq_of_mem_mergeFrom hd with hd | ⟨c, hc, f, hf, rfl⟩
    · exact ⟨d, hd, htrue⟩
    · have hplain := passes_of_ofAlternative? hf (hcs c hc)
      obtain ⟨g, hg, _, hgholds⟩ := (holdsOn_merged hfound hplain).1 htrue
      obtain ⟨c', hc', hg⟩ := List.mem_filterMap.1 hg
      exact ⟨c', hc', (holdsOn_of_ofAlternative? hg).symm.trans hgholds⟩
  · -- At first no rest was merged.
    rintro ⟨c, hc, htrue⟩
    refine (exists_mem_mergeFrom hcs hfound (fun d hd f hf => List.mem_filterMap.2 ⟨d, hd, hf⟩) hc
      htrue).resolve_left ?_
    rintro ⟨f, _, hkey⟩
    exact absurd hkey List.not_mem_nil

end Factored

end Authorization
