import Authorization.Proofs.Simplification.Grouping

/-!
# Optimizing settles

The *size* of a condition is the number of conditions in it, itself included.
Lists shrink if some elements are dropped, and others become smaller
(`Condition.sizes_add_length_le`): so do parts without repetitions, and alternatives
after merging those that share a rest (`Factored.length_mergeFrom_lt`).

Whatever a rule makes of a condition is smaller (`Rule.size_simplified?`), and
so is whatever a pass makes of it (`Optimizer.size_pass`). Hence there are no
more passes that find something to do than there are conditions in the one they
pass over (`Optimizer.settled_of_size_le`).

* `Optimizer.shrinks_and_settles`: rules and passes make conditions smaller, and
  with as many passes as its size a condition settles, for good.
-/

namespace Authorization

open Condition

/-! ### Sizes -/

namespace Condition

mutual

/-- How many conditions there are in a condition, itself included. -/
def size : Condition → Nat
  | allOf parts | anyOf parts => sizes parts + 1
  | _ => 1

/-- How many conditions there are in several. -/
def sizes : List Condition → Nat
  | [] => 0
  | c :: cs => size c + sizes cs

end

variable {c d : Condition} {cs ds : List Condition}

theorem size_pos (c : Condition) : 0 < c.size := by
  cases c <;> exact Nat.succ_pos _

theorem size_of_leaf (h : c.parts? = none) : c.size = 1 := by
  cases c with
  | allOf => cases h
  | anyOf => cases h
  | _ => rfl

theorem size_of_mergeable (h : c.kind.mergeable = true) : c.size = 1 := by
  cases c with
  | allOf => cases h
  | anyOf => cases h
  | _ => rfl

theorem sizes_eq_sum (cs : List Condition) : sizes cs = (cs.map size).sum := by
  induction cs with
  | nil => rfl
  | cons c cs ih => rw [sizes, ih, List.map_cons, List.sum_cons]

theorem sizes_flatMap (f : Condition → List Condition) (cs : List Condition) :
    sizes (cs.flatMap f) = (cs.map fun c => sizes (f c)).sum := by
  induction cs with
  | nil => rfl
  | cons c cs ih =>
    rw [List.flatMap_cons, List.map_cons, List.sum_cons, ← ih, sizes_eq_sum, sizes_eq_sum,
      sizes_eq_sum, List.map_append, List.sum_append]

/-- Several conditions have as many in them in any order. -/
theorem sizes_perm (h : cs.Perm ds) : sizes cs = sizes ds := by
  rw [sizes_eq_sum, sizes_eq_sum, (h.map size).sum_eq]

/-- With each element that is dropped a list loses something; the others may become smaller
    besides. -/
theorem sizes_add_length_le (h : ds.SublistForall₂ (fun d c => d.size ≤ c.size) cs) :
    sizes ds + cs.length ≤ sizes cs + ds.length := by
  induction h with
  | @nil cs =>
    have hlength : (cs.map size).length ≤ (cs.map size).sum :=
      List.length_le_sum_of_one_le _ fun n hn => by
        obtain ⟨c, _, rfl⟩ := List.mem_map.1 hn
        exact size_pos c
    rw [List.length_map] at hlength
    rw [sizes_eq_sum cs, sizes, List.length_nil, Nat.zero_add, Nat.add_zero]
    exact hlength
  | cons hle _ ih =>
    rw [sizes, sizes, List.length_cons, List.length_cons]
    omega
  | @cons_right c ds cs _ ih =>
    have := size_pos c
    rw [sizes, List.length_cons]
    omega

/-- A list with something shorter in it than before has lost something. -/
theorem sizes_lt_of_length_lt (h : ds.SublistForall₂ (fun d c => d.size ≤ c.size) cs)
    (hlength : ds.length < cs.length) : sizes ds < sizes cs := by
  have := sizes_add_length_le h
  omega

theorem size_all_le (cs : List Condition) : (all cs).size ≤ sizes cs + 1 := by
  unfold all
  split
  · rw [sizes]
    omega
  · exact Nat.le_refl _

/-- Nothing is in the alternatives that a condition offers that was not in the condition. -/
theorem sizes_alternatives_le (c : Condition) : sizes c.alternatives ≤ c.size := by
  cases c with
  | anyOf parts => exact Nat.le_succ _
  | _ => exact Nat.le_refl _

theorem size_any_le (cs : List Condition) : (any cs).size ≤ sizes cs + 1 := by
  have hflat : sizes (cs.flatMap alternatives) ≤ sizes cs := by
    rw [sizes_flatMap, sizes_eq_sum]
    exact List.sum_le_sum fun c _ => sizes_alternatives_le c
  unfold any
  split
  · rename_i c hc
    rw [hc, sizes, sizes] at hflat
    omega
  · exact Nat.succ_le_succ hflat

/-- Lifting what is in some of the parts, and less than these, leaves less. -/
theorem sizes_flatMap_lt {f : Condition → List Condition} (hle : ∀ c, sizes (f c) ≤ c.size)
    (hlt : ∃ c ∈ cs, sizes (f c) < c.size) : sizes (cs.flatMap f) < sizes cs := by
  rw [sizes_flatMap, sizes_eq_sum]
  exact List.sum_lt_sum _ _ (fun c _ => hle c) hlt

/-! ### The first of each key -/

section firsts

variable {α : Type} {key : α → String} {seen : List String} {as : List α}

theorem firstsAfter_sublist (key : α → String) (seen : List String) (as : List α) :
    (firstsAfter key seen as).Sublist as := by
  induction as generalizing seen with
  | nil => exact .slnil
  | cons a as ih =>
    rw [firstsAfter]
    split
    · exact (ih seen).cons a
    · exact (ih _).cons_cons a

/-- The first of each key are fewer, if several have one key. -/
theorem length_firstsAfter_lt (h : ¬(as.map key).Nodup) :
    (firstsAfter key seen as).length < as.length := by
  have hsublist := firstsAfter_sublist key seen as
  refine Nat.lt_of_le_of_ne hsublist.length_le fun hlength => h ?_
  rw [← hsublist.eq_of_length hlength]
  exact nodup_keys_firstsAfter

end firsts

end Condition

/-! ### Alternatives that share a rest -/

namespace Factored

variable {kind : Kind} {found : List Factored} {f : Factored} {c : Condition}
  {cs : List Condition}

/-- What alternatives with one rest are merged to is no larger than any of them. -/
theorem size_merged_le (hkind : kind.mergeable = true)
    (hfound : ∀ g ∈ found, g.factor.kind = kind) (hmem : f ∈ found)
    (h : ofAlternative? kind c = some f) : (f.merged found).size ≤ c.size := by
  have hunion : (union ((found.filter (·.key == f.key)).map factor)).size = 1 :=
    size_of_mergeable ((kind_union hkind (factors_ne_nil hmem) (kind_factors hfound f.key)).symm ▸
      hkind)
  have hfactor : f.factor.size = 1 := size_of_mergeable (hfound f hmem ▸ hkind)
  obtain ⟨_, rfl⟩ | ⟨parts, rfl, hone, hrest⟩ := cases_of_ofAlternative? h
  · rw [merged, Condition.all, hunion]
    exact size_pos c
  · -- The factor and the rest are the parts, in some order.
    have hparts : sizes parts = sizes (f.factor :: f.rest) := by
      refine sizes_perm ((List.filter_append_perm (·.kind == kind) parts).symm.trans ?_)
      rw [hone, hrest]
      rfl
    refine (size_all_le _).trans ?_
    rw [Condition.size, hparts, sizes, sizes, hunion, hfactor]

/-- Of alternatives some are dropped by merging, and the others become no larger. -/
theorem sublistForall₂_mergeFrom (hkind : kind.mergeable = true)
    (hfound : ∀ g ∈ found, g.factor.kind = kind) (done : List String)
    (hcs : ∀ c ∈ cs, ∀ f, ofAlternative? kind c = some f → f ∈ found) :
    (mergeFrom kind found done cs).SublistForall₂ (fun d c => d.size ≤ c.size) cs := by
  induction cs generalizing done with
  | nil => exact .nil
  | cons c cs ih =>
    have htail := fun done => ih done fun d hd => hcs d (List.mem_cons_of_mem _ hd)
    rw [mergeFrom]
    split
    · exact .cons (Nat.le_refl _) (htail done)
    · rename_i f hf
      split
      · exact .cons (Nat.le_refl _) (htail done)
      · split
        · exact .cons_right (htail done)
        · exact .cons (size_merged_le hkind hfound (hcs c List.mem_cons_self f hf) hf) (htail _)

/-- An alternative is kept, or shares its rest. -/
theorem length_isKept_add_sharing (kind : Kind) (found : List Factored) (cs : List Condition) :
    (cs.filter (isKept kind found)).length + (sharing kind found cs).length = cs.length := by
  induction cs with
  | nil => rfl
  | cons c cs ih =>
    rw [sharing, takenApart] at ih ⊢
    cases hc : ofAlternative? kind c with
    | none =>
      have hkept : isKept kind found c = true := by rw [isKept, hc]; rfl
      rw [List.filter_cons_of_pos hkept, List.filterMap_cons_none hc, List.length_cons,
        List.length_cons]
      omega
    | some f =>
      have hkept : isKept kind found c = !f.isShared found := by rw [isKept, hc]; rfl
      rw [List.filterMap_cons_some hc, List.filter_cons, List.filter_cons, hkept, List.length_cons]
      cases f.isShared found
      · rw [Bool.not_false, if_pos rfl, if_neg Bool.false_ne_true, List.length_cons]
        omega
      · rw [Bool.not_true, if_neg Bool.false_ne_true, if_pos rfl, List.length_cons]
        omega

/-- If a rest is shared, several of the alternatives that share rests have one key. -/
theorem not_nodup_keys_sharing
    (h : (takenApart kind cs).any (isShared (takenApart kind cs)) = true) :
    ¬((sharing kind (takenApart kind cs) cs).map key).Nodup := by
  obtain ⟨f, hf, hshared⟩ := List.any_eq_true.1 h
  intro hnodup
  have hone := List.nodup_iff_count_le_one.1 hnodup f.key
  -- All alternatives that have this key share their rests.
  have hall : (sharing kind (takenApart kind cs) cs).filter (·.key == f.key) =
      (takenApart kind cs).filter (·.key == f.key) := by
    rw [sharing, List.filter_filter]
    refine List.filter_congr fun g _ => ?_
    by_cases hkey : g.key = f.key
    · rw [isShared, hkey, beq_self_eq_true, Bool.true_and]
      exact hshared
    · rw [beq_eq_false_iff_ne.2 hkey, Bool.false_and]
  rw [List.count_eq_countP, List.countP_map, List.countP_eq_length_filter] at hone
  have hshared : 1 < ((takenApart kind cs).filter (·.key == f.key)).length :=
    of_decide_eq_true hshared
  rw [← hall] at hshared
  exact absurd hone (Nat.not_le_of_lt hshared)

/-- Merging what shares a rest leaves fewer alternatives. -/
theorem length_mergeFrom_lt
    (h : (takenApart kind cs).any (isShared (takenApart kind cs)) = true) :
    (mergeFrom kind (takenApart kind cs) [] cs).length < cs.length := by
  rw [(mergeFrom_perm [] cs).length_eq, List.length_append, List.length_map,
    ← length_isKept_add_sharing kind (takenApart kind cs) cs]
  exact Nat.add_lt_add_left (length_firstsAfter_lt (not_nodup_keys_sharing h)) _

end Factored

/-! ### Rules -/

namespace Rule

variable {c d : Condition} {parts ds : List Condition} {kind : Kind}

/-- What lifting takes out of an *all of* that has one as a part is smaller. -/
theorem sizes_conjuncts_lt (h : parts.any (·.kind == .allOf) = true) :
    sizes (parts.flatMap conjuncts) < sizes parts := by
  refine sizes_flatMap_lt (fun c => ?_) ?_
  · cases c with
    | allOf parts => exact Nat.le_succ _
    | _ => exact Nat.le_refl _
  · obtain ⟨c, hc, hkind⟩ := List.any_eq_true.1 h
    refine ⟨c, hc, ?_⟩
    cases c with
    | allOf parts => exact Nat.lt_succ_self _
    | _ => cases hkind

/-- What lifting takes out of an *any of* that has one as a part is smaller. -/
theorem sizes_alternatives_lt (h : parts.any (·.kind == .anyOf) = true) :
    sizes (parts.flatMap alternatives) < sizes parts := by
  refine sizes_flatMap_lt sizes_alternatives_le ?_
  obtain ⟨c, hc, hkind⟩ := List.any_eq_true.1 h
  refine ⟨c, hc, ?_⟩
  cases c with
  | anyOf parts => exact Nat.lt_succ_self _
  | _ => cases hkind

theorem size_flatten? (h : flatten? c = some d) : d.size < c.size := by
  unfold flatten? at h
  split at h
  · cases h
    exact Nat.lt_succ_self _
  · cases h
    exact Nat.lt_succ_self _
  · split at h
    · rename_i hnested
      cases h
      exact Nat.succ_lt_succ (sizes_conjuncts_lt hnested)
    · cases h
  · split at h
    · rename_i hnested
      cases h
      exact Nat.succ_lt_succ (sizes_alternatives_lt hnested)
    · cases h
  · cases h

theorem sizes_fewer? (h : fewer? parts = some ds) : sizes ds < sizes parts := by
  simp only [fewer?] at h
  split at h
  · cases h
  · rename_i hfewer
    cases h
    have hsublist : (distinct parts).Sublist parts :=
      distinct_eq_firstsAfter parts ▸ firstsAfter_sublist _ [] parts
    exact sizes_lt_of_length_lt
      (List.sublistForall₂_iff.2 ⟨_, List.forall₂_same.2 fun _ _ => Nat.le_refl _, hsublist⟩)
      (Nat.lt_of_le_of_ne hsublist.length_le hfewer)

theorem size_dropRepeats? (h : dropRepeats? c = some d) : d.size < c.size := by
  cases c with
  | allOf parts =>
    obtain ⟨ds, hds, rfl⟩ := Option.map_eq_some_iff.1 h
    exact Nat.succ_lt_succ (sizes_fewer? hds)
  | anyOf parts =>
    obtain ⟨ds, hds, rfl⟩ := Option.map_eq_some_iff.1 h
    exact Nat.succ_lt_succ (sizes_fewer? hds)
  | _ => cases h

theorem size_factorBy? (h : factorBy? kind c = some d) : d.size < c.size := by
  unfold factorBy? at h
  split at h
  · cases h
  rename_i hmergeable
  split at h
  · rename_i parts
    simp only at h
    split at h
    · rename_i hshared
      cases h
      have hkind : kind.mergeable = true := by simpa using hmergeable
      have hfound : ∀ c ∈ parts, ∀ f, Factored.ofAlternative? kind c = some f →
          f ∈ parts.filterMap (Factored.ofAlternative? kind) :=
        fun c hc f hf => List.mem_filterMap.2 ⟨c, hc, hf⟩
      have hmerged := Factored.sublistForall₂_mergeFrom hkind
        Factored.kind_factor_of_mem_found [] hfound
      exact Nat.lt_of_le_of_lt (size_any_le _) (Nat.succ_lt_succ
        (sizes_lt_of_length_lt hmerged (Factored.length_mergeFrom_lt hshared)))
    · cases h
  · cases h

/-- Whatever a rule makes of a condition is smaller. -/
theorem size_simplified? (rule : Rule) (h : rule.simplified? c = some d) : d.size < c.size :=
  match rule with
  | flatten => size_flatten? h
  | dropRepeats => size_dropRepeats? h
  | factor _ => size_factorBy? h

end Rule

/-! ### Passes -/

namespace Optimizer

variable {rules : List Rule} {c d : Condition} {passed : Option Condition} {passes : Nat}

theorem size_applyRules (h : applyRules rules c = some d) : d.size < c.size := by
  induction rules generalizing c d with
  | nil => cases h
  | cons rule rules ih =>
    rw [applyRules] at h
    split at h
    · exact ih h
    · rename_i e he
      cases h
      have hrule := rule.size_simplified? he
      cases hrest : applyRules rules e with
      | none => exact hrule
      | some d => exact (ih hrest).trans hrule

/-- Once the parts were passed over, the rules make what that came to smaller still, or leave it. -/
theorem size_finish (hpassed : ∀ e, passed = some e → e.size < c.size)
    (h : finish rules c passed = some d) : d.size < c.size := by
  cases passed with
  | none => exact size_applyRules h
  | some e =>
    have he := hpassed e rfl
    cases h
    cases hrules : applyRules rules e with
    | none => exact he
    | some d => exact (size_applyRules hrules).trans he

/-- If a pass makes each part that it changes smaller, so it does all of them, if it changes any. -/
theorem sizes_passParts {cs ds : List Condition}
    (hpass : ∀ c ∈ cs, ∀ d, pass rules c = some d → d.size < c.size)
    (h : passParts rules cs = some ds) : sizes ds < sizes cs := by
  induction cs generalizing ds with
  | nil => cases h
  | cons c cs ih =>
    have htail : ∀ ds, passParts rules cs = some ds → sizes ds < sizes cs := fun ds hds =>
      ih (fun d hd => hpass d (List.mem_cons_of_mem _ hd)) hds
    rw [passParts] at h
    cases hc : pass rules c with
    | none =>
      cases hcs : passParts rules cs with
      | none =>
        rw [hc, hcs] at h
        cases h
      | some es =>
        rw [hc, hcs] at h
        cases h
        exact Nat.add_lt_add_left (htail es hcs) _
    | some d =>
      have hhead := hpass c List.mem_cons_self d hc
      rw [hc] at h
      cases h
      refine Nat.add_lt_add_of_lt_of_le hhead ?_
      cases hcs : passParts rules cs with
      | none => exact Nat.le_refl _
      | some es => exact (htail es hcs).le

/-- Whatever a pass makes of a condition is smaller. -/
theorem size_pass (rules : List Rule) :
    ∀ c : Condition, ∀ d, pass rules c = some d → d.size < c.size := by
  refine byParts (fun _ _ h => size_applyRules h) (fun _ _ h => size_applyRules h)
    (fun _ _ h => size_applyRules h) (fun _ _ _ h => size_applyRules h)
    (fun _ h => size_applyRules h) ?allOf ?anyOf
  case allOf =>
    intro parts ih d h
    refine size_finish (fun e he => ?_) h
    obtain ⟨ds, hds, rfl⟩ := Option.map_eq_some_iff.1 he
    exact Nat.succ_lt_succ (sizes_passParts ih hds)
  case anyOf =>
    intro parts ih d h
    refine size_finish (fun e he => ?_) h
    obtain ⟨ds, hds, rfl⟩ := Option.map_eq_some_iff.1 he
    exact Nat.succ_lt_succ (sizes_passParts ih hds)

/-! ### Passes one after the other -/

theorem size_repeatPass_le (rules : List Rule) (passes : Nat) (c : Condition) :
    (repeatPass rules passes c).condition.size ≤ c.size := by
  induction passes generalizing c with
  | zero => exact Nat.le_refl _
  | succ passes ih =>
    rw [repeatPass]
    split
    · exact Nat.le_refl _
    · rename_i d hd
      exact (ih d).trans (size_pass rules c d hd).le

/-- A condition settles with as many passes as its size: each that finds something to do makes it
    smaller. -/
theorem settled_of_size_le (h : c.size ≤ passes) : (repeatPass rules passes c).settled = true := by
  induction passes generalizing c with
  | zero => exact absurd (size_pos c) (Nat.not_lt_of_le h)
  | succ passes ih =>
    rw [repeatPass]
    split
    · rfl
    · rename_i d hd
      exact ih (Nat.le_of_lt_succ ((size_pass rules c d hd).trans_le h))

/-- Once a condition is settled there is nothing left to do. -/
theorem pass_of_settled (h : (repeatPass rules passes c).settled = true) :
    pass rules (repeatPass rules passes c).condition = none := by
  induction passes generalizing c with
  | zero => cases h
  | succ passes ih =>
    rw [repeatPass] at h ⊢
    split at h
    · assumption
    · exact ih h

/-- Where there is nothing to do, one pass finds that out. -/
theorem run_of_pass_eq_none (o : Optimizer) (h : pass o.rules c = none) : o.run c = ⟨c, true⟩ := by
  obtain ⟨passes, hpasses⟩ := Nat.exists_eq_succ_of_ne_zero o.pos.ne'
  rw [run, hpasses, repeatPass, h]

theorem size_le_maxPasses (h : c.size ≤ passes) : c.size ≤ (standard passes).maxPasses :=
  h.trans (Nat.le_max_left _ _)

/-- Rules and passes leave a condition alone or make it smaller. With as many passes as its size
    it settles, and then optimizing it again finds nothing to do, whatever number of passes there
    may be. -/
theorem shrinks_and_settles (c : Condition) :
    (∀ (rule : Rule) (d : Condition), rule.simplified? c = some d → d.size < c.size) ∧
    (∀ d, pass standardRules c = some d → d.size < c.size) ∧
    ∀ passes, c.size ≤ passes →
      ((standard passes).run c).settled = true ∧
      ((standard passes).optimize c).size ≤ c.size ∧
      pass standardRules ((standard passes).optimize c) = none ∧
      ∀ again, (standard again).run ((standard passes).optimize c) =
        ⟨(standard passes).optimize c, true⟩ := by
  refine ⟨fun rule _ h => rule.size_simplified? h, size_pass _ c, fun passes hpasses => ?_⟩
  have hsettled : ((standard passes).run c).settled = true :=
    settled_of_size_le (size_le_maxPasses hpasses)
  have hpass : pass standardRules ((standard passes).optimize c) = none :=
    pass_of_settled hsettled
  exact ⟨hsettled, size_repeatPass_le _ _ c, hpass,
    fun again => run_of_pass_eq_none (standard again) hpass⟩

/-- Eight conditions settle with eight passes: the first one merges two alternatives, by the kind of
    their roles, and leaves three. -/
theorem settles_editorsOrAdmins :
    (Rule.factor .role).simplified? editorsOrAdmins = some editorsAndAdmins ∧
      pass standardRules editorsOrAdmins = some editorsAndAdmins ∧
      editorsAndAdmins.size < editorsOrAdmins.size ∧ editorsOrAdmins.size ≤ 8 ∧
      ((standard 8).run editorsOrAdmins).settled = true ∧
      (standard 1).run ((standard 8).optimize editorsOrAdmins) =
        ⟨(standard 8).optimize editorsOrAdmins, true⟩ := by
  have hrule : (Rule.factor .role).simplified? editorsOrAdmins = some editorsAndAdmins := rfl
  have hpass : pass standardRules editorsOrAdmins = some editorsAndAdmins := rfl
  have hsize : editorsOrAdmins.size ≤ 8 := by decide
  obtain ⟨hrules, -, hsettles⟩ := shrinks_and_settles editorsOrAdmins
  obtain ⟨hsettled, -, -, hagain⟩ := hsettles 8 hsize
  exact ⟨hrule, hpass, hrules _ _ hrule, hsize, hsettled, hagain 1⟩

end Optimizer

end Authorization
