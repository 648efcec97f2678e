import Authorization.Proofs.Condition.Identity
import Mathlib.Data.List.Nodup

/-!
# Merging keeps the meaning

Joined conditions hold where all, or any, of them do, whatever joining flattens:
`holdsOn_all`, `holdsOn_any`. Dropping conditions that repeat the id of another
changes nothing, provided names are plain (`all_distinct`, `any_distinct`), and
the union of conditions holds where any of them does (`holdsOn_union`).

What conditions are merged to passes every check that they pass.

Of things with one key often the first stands for all (`firstsAfter`), as of
conditions with one id. Which one that is depends on the order they come in, but
the keys do not (`keys_firstsAfter_perm`).
-/

namespace Authorization

/-! ### The first of each key -/

section firsts

variable {α : Type} {key : α → String} {seen : List String} {as bs : List α}

/-- The elements without those that have the key of an earlier one, or one of `seen`. -/
def firstsAfter (key : α → String) (seen : List String) : List α → List α
  | [] => []
  | a :: as =>
    if seen.contains (key a) then firstsAfter key seen as
    else a :: firstsAfter key (key a :: seen) as

theorem mem_of_mem_firstsAfter {a : α} (h : a ∈ firstsAfter key seen as) : a ∈ as := by
  induction as generalizing seen with
  | nil => exact h
  | cons b bs ih =>
    rw [firstsAfter] at h
    split at h
    · exact List.mem_cons_of_mem _ (ih h)
    · rcases List.mem_cons.1 h with rfl | h
      · exact List.mem_cons_self
      · exact List.mem_cons_of_mem _ (ih h)

/-- The keys are those that there are, but for the ones seen before. -/
theorem mem_keys_firstsAfter {k : String} :
    k ∈ (firstsAfter key seen as).map key ↔ k ∈ as.map key ∧ k ∉ seen := by
  induction as generalizing seen with
  | nil => simp [firstsAfter]
  | cons a as ih =>
    rw [firstsAfter]
    split
    · rename_i hseen
      rw [ih, List.map_cons, List.mem_cons]
      refine and_congr_left fun hk => (or_iff_right fun hka => hk ?_).symm
      exact hka ▸ List.contains_iff_mem.1 hseen
    · rename_i hnew
      rw [List.map_cons, List.map_cons, List.mem_cons, List.mem_cons, ih, List.mem_cons, not_or]
      by_cases hka : k = key a
      · simp only [hka, true_or, true_and, true_iff]
        exact fun hmem => hnew (List.contains_iff_mem.2 hmem)
      · simp only [hka, false_or, not_false_eq_true, true_and]

/-- No two of the first ones have the same key. -/
theorem nodup_keys_firstsAfter : ((firstsAfter key seen as).map key).Nodup := by
  induction as generalizing seen with
  | nil => exact List.nodup_nil
  | cons a as ih =>
    rw [firstsAfter]
    split
    · exact ih
    · rw [List.map_cons, List.nodup_cons]
      exact ⟨fun hmem => (mem_keys_firstsAfter.1 hmem).2 List.mem_cons_self, ih⟩

/-- The keys of the first ones are the same, whatever the order. -/
theorem keys_firstsAfter_perm (h : (as.map key).Perm (bs.map key)) :
    ((firstsAfter key seen as).map key).Perm ((firstsAfter key seen bs).map key) := by
  rw [List.perm_ext_iff_of_nodup nodup_keys_firstsAfter nodup_keys_firstsAfter]
  intro k
  rw [mem_keys_firstsAfter, mem_keys_firstsAfter, h.mem_iff]

end firsts

namespace Condition

variable {s : Session} {r : Record} {k : Check}

/-! ### Joining -/

/-- The alternatives of a condition, each taken for itself, are as much as the condition. -/
theorem any_alternatives (c : Condition) :
    c.alternatives.any (holdsOn s r) = c.holdsOn s r := by
  cases c with
  | anyOf parts => rw [alternatives, holdsOn_anyOf]
  | _ => exact Bool.or_false _

theorem any_flatMap_alternatives (cs : List Condition) :
    (cs.flatMap alternatives).any (holdsOn s r) = cs.any (holdsOn s r) := by
  rw [List.any_flatMap]
  exact congrArg cs.any (funext any_alternatives)

/-- What is joined by *all of* holds where each of the conditions does. -/
@[simp] theorem holdsOn_all (cs : List Condition) :
    (all cs).holdsOn s r = cs.all (holdsOn s r) := by
  unfold all
  split
  · exact (Bool.and_true _).symm
  · exact holdsOn_allOf

/-- What is joined by *any of* holds where one of the conditions does. -/
@[simp] theorem holdsOn_any (cs : List Condition) :
    (any cs).holdsOn s r = cs.any (holdsOn s r) := by
  rw [← any_flatMap_alternatives]
  unfold any
  split
  · rename_i c hc
    rw [hc]
    exact (Bool.or_false _).symm
  · exact holdsOn_anyOf

theorem passes_all {cs : List Condition} (h : ∀ c ∈ cs, c.passes k = true) :
    (all cs).passes k = true := by
  unfold all
  split
  · exact h _ List.mem_cons_self
  · exact passes_allOf.2 h

theorem passes_alternatives {c : Condition} (h : c.passes k = true) :
    ∀ d ∈ c.alternatives, d.passes k = true := by
  cases c with
  | anyOf parts => exact passes_anyOf.1 h
  | _ => exact fun d hd => List.mem_singleton.1 hd ▸ h

theorem passes_any {cs : List Condition} (h : ∀ c ∈ cs, c.passes k = true) :
    (any cs).passes k = true := by
  have hflat : ∀ d ∈ cs.flatMap alternatives, d.passes k = true := by
    intro d hd
    obtain ⟨c, hc, hd⟩ := List.mem_flatMap.1 hd
    exact passes_alternatives (h c hc) d hd
  unfold any
  split
  · rename_i c hc
    exact hflat c (hc ▸ List.mem_cons_self)
  · exact passes_anyOf.2 hflat

/-! ### Dropping repetitions -/

theorem distinct_eq_firstsAfter (cs : List Condition) : distinct cs = firstsAfter id [] cs := by
  have hafter : ∀ seen, distinctAfter seen cs = firstsAfter id seen cs := by
    induction cs with
    | nil => exact fun _ => rfl
    | cons c cs ih =>
      intro seen
      rw [distinctAfter, firstsAfter, ih, ih]
  exact hafter []

/-- What is kept is among what was there. -/
theorem mem_of_mem_distinct {cs : List Condition} {c : Condition} (h : c ∈ distinct cs) :
    c ∈ cs := by
  rw [distinct_eq_firstsAfter] at h
  exact mem_of_mem_firstsAfter h

/-- What was there has its id kept. -/
theorem exists_mem_distinct {cs : List Condition} {c : Condition} (h : c ∈ cs) :
    ∃ d ∈ distinct cs, d.id = c.id := by
  have hid : c.id ∈ (firstsAfter id [] cs).map id :=
    mem_keys_firstsAfter.2 ⟨List.mem_map_of_mem h, List.not_mem_nil⟩
  rw [← distinct_eq_firstsAfter] at hid
  exact List.mem_map.1 hid

theorem passes_distinct {cs : List Condition} (h : ∀ c ∈ cs, c.passes k = true) :
    ∀ c ∈ distinct cs, c.passes k = true := fun c hc => h c (mem_of_mem_distinct hc)

/-- Each of the conditions means the same as one that is kept. -/
theorem exists_sameMeaning_distinct {cs : List Condition}
    (h : ∀ c ∈ cs, c.namesPlain = true) {c : Condition} (hc : c ∈ cs) :
    ∃ d ∈ distinct cs, SameMeaning d c := by
  obtain ⟨d, hd, hid⟩ := exists_mem_distinct hc
  exact ⟨d, hd, sameMeaning_of_id_eq (h d (mem_of_mem_distinct hd)) (h c hc) hid⟩

theorem all_distinct {cs : List Condition} (h : ∀ c ∈ cs, c.namesPlain = true) :
    (distinct cs).all (holdsOn s r) = cs.all (holdsOn s r) := by
  rw [Bool.eq_iff_iff, List.all_eq_true, List.all_eq_true]
  refine ⟨fun hall c hc => ?_, fun hall c hc => hall c (mem_of_mem_distinct hc)⟩
  obtain ⟨d, hd, hsame⟩ := exists_sameMeaning_distinct h hc
  rw [← hsame s r]
  exact hall d hd

theorem any_distinct {cs : List Condition} (h : ∀ c ∈ cs, c.namesPlain = true) :
    (distinct cs).any (holdsOn s r) = cs.any (holdsOn s r) := by
  rw [Bool.eq_iff_iff, List.any_eq_true, List.any_eq_true]
  constructor
  · rintro ⟨c, hc, htrue⟩
    exact ⟨c, mem_of_mem_distinct hc, htrue⟩
  · rintro ⟨c, hc, htrue⟩
    obtain ⟨d, hd, hsame⟩ := exists_sameMeaning_distinct h hc
    exact ⟨d, hd, (hsame s r).trans htrue⟩

/-! ### Uniting names -/

theorem mem_foldl_union {sets : List NameSet} {set : NameSet} {n : String} :
    n ∈ sets.foldl SortedSet.union set ↔ n ∈ set ∨ ∃ t ∈ sets, n ∈ t := by
  induction sets generalizing set with
  | nil => simp
  | cons t ts ih =>
    rw [List.foldl_cons, ih, SortedSet.mem_union, or_assoc]
    simp

@[simp] theorem mem_unionNames {sets : List NameSet} {n : String} :
    n ∈ unionNames sets ↔ ∃ t ∈ sets, n ∈ t := by
  rw [unionNames, mem_foldl_union]
  exact or_iff_right SortedSet.not_mem_empty

theorem names_unionNames {sets : List NameSet} (h : ∀ t ∈ sets, k.names t = true) :
    k.names (unionNames sets) = true := by
  refine Check.names_eq_true.2 fun n hn => ?_
  obtain ⟨t, ht, hn⟩ := mem_unionNames.1 hn
  exact Check.names_eq_true.1 (h t ht) n hn

theorem hasAnyRole_unionNames (sets : List NameSet) :
    s.hasAnyRole (unionNames sets) = sets.any s.hasAnyRole := by
  rw [Bool.eq_iff_iff, Session.hasAnyRole_eq_true, List.any_eq_true]
  simp only [mem_unionNames, Session.hasAnyRole_eq_true]
  exact ⟨fun ⟨n, ⟨t, ht, hn⟩, hheld⟩ => ⟨t, ht, n, hn, hheld⟩,
    fun ⟨t, ht, n, hn, hheld⟩ => ⟨n, ⟨t, ht, hn⟩, hheld⟩⟩

theorem variantHolds_unionNames (sets : List NameSet) :
    variantHolds r (unionNames sets) = sets.any (variantHolds r) := by
  rw [Bool.eq_iff_iff, List.any_eq_true]
  simp only [variantHolds, Option.any_eq_true, SortedSet.contains_eq_true, mem_unionNames]
  exact ⟨fun ⟨v, hv, t, ht, hn⟩ => ⟨t, ht, v, hv, hn⟩, fun ⟨t, ht, v, hv, hn⟩ => ⟨v, hv, t, ht, hn⟩⟩

theorem meets_union (a b t : NameSet) : (a.union b).meets t = (a.meets t || b.meets t) := by
  rw [Bool.eq_iff_iff, Bool.or_eq_true]
  simp only [SortedSet.meets_eq_true, SortedSet.mem_union]
  exact ⟨fun ⟨n, hn, ht⟩ => hn.imp (fun hn => ⟨n, hn, ht⟩) (fun hn => ⟨n, hn, ht⟩),
    fun h => h.elim (fun ⟨n, hn, ht⟩ => ⟨n, .inl hn, ht⟩) (fun ⟨n, hn, ht⟩ => ⟨n, .inr hn, ht⟩)⟩

theorem names_union {a b : NameSet} (ha : k.names a = true) (hb : k.names b = true) :
    k.names (a.union b) = true := by
  refine Check.names_eq_true.2 fun n hn => ?_
  rcases SortedSet.mem_union.1 hn with hn | hn
  · exact Check.names_eq_true.1 ha n hn
  · exact Check.names_eq_true.1 hb n hn

theorem all_names_unionRoles {ms : List (Option NameSet)}
    (h : ∀ m ∈ ms, m.all k.names = true) : (unionRoles ms).all k.names = true := by
  induction ms with
  | nil => rfl
  | cons m ms ih =>
    cases m with
    | none => rfl
    | some names =>
      have hrest := ih fun m hm => h m (List.mem_cons_of_mem _ hm)
      rw [unionRoles]
      cases hroles : unionRoles ms with
      | none => rfl
      | some names' =>
        rw [hroles] at hrest
        exact names_union (h _ List.mem_cons_self) hrest

/-- Where the roles of memberships are known, the union of some is what any of them is. -/
theorem memberHolds_unionRoles_of_known {held : NameSet} (hr : r.membershipRoles = some held)
    (ms : List (Option NameSet)) : memberHolds r (unionRoles ms) = ms.any (memberHolds r) := by
  induction ms with
  | nil => rw [unionRoles, memberHolds_of_known hr]; exact Bool.and_false _
  | cons m ms ih =>
    rw [List.any_cons, ← ih]
    cases m with
    | none =>
      rw [unionRoles]
      -- No membership is more than one with any role.
      cases hm : memberHolds r (unionRoles ms) with
      | false => exact (Bool.or_false _).symm
      | true => rw [Bool.or_true, memberHolds_none, member_of_memberHolds hm]
    | some names =>
      rw [unionRoles]
      cases unionRoles ms with
      | none =>
        rw [Option.map_none, memberHolds_none, memberHolds_of_known hr]
        cases r.member <;> simp
      | some names' =>
        rw [Option.map_some, memberHolds_of_known hr, memberHolds_of_known hr,
          memberHolds_of_known hr, meets_union, Bool.and_or_distrib_left]

/-- The union of at least one membership is what any of them is. -/
theorem memberHolds_unionRoles {ms : List (Option NameSet)} (hne : ms ≠ []) :
    memberHolds r (unionRoles ms) = ms.any (memberHolds r) := by
  cases hr : r.membershipRoles with
  | some held => exact memberHolds_unionRoles_of_known hr ms
  | none =>
    obtain ⟨m, ms, rfl⟩ := List.exists_cons_of_ne_nil hne
    rw [memberHolds_of_unknown hr, List.any_cons, memberHolds_of_unknown hr]
    cases hm : r.member with
    | true => rfl
    | false =>
      exact (List.any_eq_false.2 fun m _ => by rw [memberHolds_of_unknown hr, hm]; simp).symm

/-! ### Uniting conditions -/

/-- Conditions of one kind are what is made of the data read off them. -/
theorem eq_map_filterMap {α : Type} {kind : Kind} {read : Condition → Option α}
    {make : α → Condition} (hread : ∀ c : Condition, c.kind = kind → (read c).map make = some c)
    {cs : List Condition} (h : ∀ c ∈ cs, c.kind = kind) : (cs.filterMap read).map make = cs := by
  induction cs with
  | nil => rfl
  | cons c cs ih =>
    obtain ⟨x, hx, hc⟩ := Option.map_eq_some_iff.1 (hread c (h c List.mem_cons_self))
    rw [List.filterMap_cons_some hx, List.map_cons, hc,
      ih fun d hd => h d (List.mem_cons_of_mem _ hd)]

theorem map_roleNames? {c : Condition} (h : c.kind = .role) : c.roleNames?.map role = some c := by
  cases c <;> first | rfl | cases h

theorem map_variantNames? {c : Condition} (h : c.kind = .variant) :
    c.variantNames?.map variant = some c := by
  cases c <;> first | rfl | cases h

theorem map_memberRoles? {c : Condition} (h : c.kind = .member) :
    c.memberRoles?.map member = some c := by
  cases c <;> first | rfl | cases h

theorem eq_calculated {c : Condition} (h : c.kind = .calculated) : c = calculated := by
  cases c <;> first | rfl | cases h

theorem commonKind?_eq_some_cons {cs : List Condition} {kind : Kind}
    (h : commonKind? cs = some kind) :
    cs ≠ [] := fun h0 => by
  rw [h0] at h
  cases h

/-- The one condition that conditions of a kind are united to holds where any of them does. -/
theorem holdsOn_unionOfKind? {cs : List Condition} {d : Condition} (h : unionOfKind? cs = some d) :
    d.holdsOn s r = cs.any (holdsOn s r) := by
  obtain ⟨kind, hcommon, hd⟩ := Option.bind_eq_some_iff.1 h
  have hkind := kind_eq_of_commonKind? hcommon
  cases kind with
  | role =>
    cases hd
    have hcs := eq_map_filterMap (fun _ => map_roleNames?) hkind
    rw [holdsOn, hasAnyRole_unionNames]
    conv_rhs => rw [← hcs, List.any_map]
    rfl
  | variant =>
    cases hd
    have hcs := eq_map_filterMap (fun _ => map_variantNames?) hkind
    rw [holdsOn, variantHolds_unionNames]
    conv_rhs => rw [← hcs, List.any_map]
    rfl
  | member =>
    cases hd
    have hcs := eq_map_filterMap (fun _ => map_memberRoles?) hkind
    -- The union of no memberships would be none with any role.
    have hne : cs.filterMap memberRoles? ≠ [] := fun h0 =>
      commonKind?_eq_some_cons hcommon (by rw [← hcs, h0, List.map_nil])
    rw [holdsOn, memberHolds_unionRoles hne]
    conv_rhs => rw [← hcs, List.any_map]
    rfl
  | calculated =>
    -- None of them holds.
    cases hd
    refine (List.any_eq_false.2 fun c hc => ?_).symm
    rw [eq_calculated (hkind c hc), holdsOn]
    exact Bool.false_ne_true
  | field => cases hd
  | allOf => cases hd
  | anyOf => cases hd

theorem passes_unionOfKind? {cs : List Condition} (hplain : ∀ c ∈ cs, c.passes k = true)
    {d : Condition} (h : unionOfKind? cs = some d) : d.passes k = true := by
  obtain ⟨kind, hcommon, hd⟩ := Option.bind_eq_some_iff.1 h
  have hkind := kind_eq_of_commonKind? hcommon
  cases kind with
  | role =>
    cases hd
    have hcs := eq_map_filterMap (fun _ => map_roleNames?) hkind
    exact names_unionNames fun names hnames =>
      hplain (.role names) (hcs ▸ List.mem_map_of_mem hnames)
  | variant =>
    cases hd
    have hcs := eq_map_filterMap (fun _ => map_variantNames?) hkind
    exact names_unionNames fun names hnames =>
      hplain (.variant names) (hcs ▸ List.mem_map_of_mem hnames)
  | member =>
    cases hd
    have hcs := eq_map_filterMap (fun _ => map_memberRoles?) hkind
    exact all_names_unionRoles fun roles hroles =>
      hplain (.member roles) (hcs ▸ List.mem_map_of_mem hroles)
  | calculated =>
    cases hd
    rfl
  | field => cases hd
  | allOf => cases hd
  | anyOf => cases hd

/-- The union of conditions holds where any of them does. -/
theorem holdsOn_union {cs : List Condition} (h : ∀ c ∈ cs, c.namesPlain = true) :
    (union cs).holdsOn s r = cs.any (holdsOn s r) := by
  rw [union]
  cases hd : unionOfKind? cs with
  | some d => exact holdsOn_unionOfKind? hd
  | none => rw [Option.getD_none, holdsOn_any, any_distinct h]

theorem passes_union {cs : List Condition} (h : ∀ c ∈ cs, c.passes k = true) :
    (union cs).passes k = true := by
  rw [union]
  cases hd : unionOfKind? cs with
  | some d => exact passes_unionOfKind? h hd
  | none => exact passes_any (passes_distinct h)

end Condition

end Authorization
