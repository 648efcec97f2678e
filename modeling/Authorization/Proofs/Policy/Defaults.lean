import Authorization.Policy.Compilation
import Authorization.Proofs.Catalogue.Chains
import Authorization.Proofs.Policy.Permissions

/-!
# What follows from grants

What is said of a resource is found under its name, or else it is what is said
of its nearest interface (`said?`). From what was written more follows, and what
is found then is read off here, step by step.

Along a chain of interfaces the two forms of grants come to the same:

* nothing follows for the interfaces of a resource of which nothing is said
  itself (`nearest?_withDefaultInterfaces`);
* the grants that stand for a resource in the database have the ids of those
  that it would have of its own (`entryId?_databaseGrants`).
-/

namespace Authorization.Catalogue

variable {c : Catalogue} {raw m : GrantMap} {r i : Resource} {name : String} {k : Check}

/-- What is said of a resource, or else of the nearest of its interfaces. -/
def said? (m : GrantMap) (r : Resource) : Option ResourceGrants :=
  (m.get? r.name).or (nearest? m r)

theorem nearest?_of_top (h : r.interfaces = []) : nearest? m r = none := by
  rw [nearest?, h, List.findSome?_nil]

/-- Nearest to a resource is its first interface, and then what is nearest to that. -/
theorem nearest?_of_beneath (h : r.interfaces = i.name :: i.interfaces) :
    nearest? m r = said? m i := by
  rw [nearest?, h, List.findSome?_cons, said?, nearest?]
  cases m.get? i.name <;> rfl

theorem nearest?_eq_none {m n : GrantMap} (h : ∀ name, m.get? name = none → n.get? name = none)
    (hm : nearest? m r = none) : nearest? n r = none := by
  rw [nearest?, List.findSome?_eq_none_iff] at hm ⊢
  exact fun name hname => h name (hm name hname)

/-! ### Look-ups -/

/-- Of entries for resources, each under its own name, those are found that there are. -/
theorem get?_insertAll_resources (hc : c.Keyed) (f : Resource → Option ResourceGrants)
    (hr : c.get? r.name = some r) :
    (m.insertAll (c.toList.filterMap fun r => (f r).map fun g => (r.name, g))).get? r.name =
      (f r).or (m.get? r.name) := by
  have hentry : ∀ name g,
      (name, g) ∈ (c.toList.filterMap fun r => (f r).map fun g => (r.name, g)) ↔
        ∃ r, c.get? name = some r ∧ f r = some g := by
    intro name g
    rw [List.mem_filterMap]
    constructor
    · rintro ⟨r', hr', h⟩
      obtain ⟨g', hg', h⟩ := Option.map_eq_some_iff.1 h
      cases h
      exact ⟨r', hc.get?_of_mem hr', hg'⟩
    · rintro ⟨r', hr', hg⟩
      exact ⟨r', mem_toList_of_get? hr', by rw [hg, Option.map_some, hc name r' hr']⟩
  -- Another resource with an entry has another name.
  cases hf : f r with
  | none =>
    refine SortedMap.get?_insertAll_of_forall_ne fun e he hname => ?_
    obtain ⟨r', hr', hg⟩ := (hentry e.1 e.2).1 he
    rw [hname, hr] at hr'
    cases hr'
    cases hf.symm.trans hg
  | some g =>
    refine SortedMap.get?_insertAll_of_mem ((hentry r.name g).2 ⟨r, hr, hf⟩) fun g' hg' => ?_
    obtain ⟨r', hr', hg'⟩ := (hentry r.name g').1 hg'
    rw [hr] at hr'
    cases hr'
    exact Option.some.inj (hg'.symm.trans hf)

theorem get?_withDefaultInterfaces (hc : c.Keyed) (hr : c.get? r.name = some r) :
    (c.withDefaultInterfaces raw).get? r.name = (c.inferred? raw r).or (raw.get? r.name) :=
  get?_insertAll_resources hc (c.inferred? raw) hr

/-- What a resource takes over, unless something is said of itself. -/
def takenOver? (m : GrantMap) (r : Resource) : Option ResourceGrants :=
  if m.contains r.name then none else (nearest? m r).map (inherited r)

theorem withDefaultImplementations_eq : c.withDefaultImplementations m =
    m.insertAll (c.toList.filterMap fun r => (takenOver? m r).map fun g => (r.name, g)) := by
  rw [withDefaultImplementations, SortedMap.insertAll]
  congr 2
  funext r
  rw [takenOver?]
  split
  · rfl
  · rw [Option.map_map]
    rfl

theorem get?_withDefaultImplementations (hc : c.Keyed) (hr : c.get? r.name = some r) :
    (c.withDefaultImplementations m).get? r.name =
      (m.get? r.name).or ((nearest? m r).map (inherited r)) := by
  rw [withDefaultImplementations_eq, get?_insertAll_resources hc _ hr, takenOver?,
    SortedMap.contains]
  cases m.get? r.name with
  | none => exact Option.or_none
  | some g => rfl

/-- What follows for relations leaves what is said of objects. -/
theorem object_withDefaultRelations :
    ((c.withDefaultRelations m).get? name).map (·.object) = (m.get? name).map (·.object) := by
  rw [withDefaultRelations, SortedMap.get?_mapValues, Option.map_map]
  congr 1
  funext g
  rw [Function.comp]
  split <;> rfl

theorem get?_withoutRedundant (hr : c.get? r.name = some r) :
    (c.withoutRedundant m).get? r.name = (m.get? r.name).filter fun g => !isRedundant m r g := by
  rw [withoutRedundant, SortedMap.get?_filter]
  simp only [hr, Option.any_some]

theorem get?_withoutComputedWrites (hr : c.get? r.name = some r) :
    (c.withoutComputedWrites m).get? r.name =
      (m.get? r.name).map fun g => if r.calculated then g.readOnly else g := by
  rw [withoutComputedWrites, SortedMap.get?_mapValues]
  simp only [hr, Option.any_some]

/-! ### Decisions -/

/-- Nothing follows for an interface if nothing is said of one of its implementations. -/
theorem inferred?_eq_none (hname : name ∈ c.implementations i.name)
    (hraw : raw.get? name = none) : c.inferred? raw i = none := by
  have hlist : ∀ names : List String, name ∈ names → names.mapM raw.get? = none := by
    intro names hmem
    induction names with
    | nil => exact absurd hmem List.not_mem_nil
    | cons first names ih =>
      rw [List.mapM_cons]
      rcases List.mem_cons.1 hmem with rfl | hmem
      · rw [hraw]
        rfl
      · rw [ih hmem]
        cases raw.get? first <;> rfl
  rw [inferred?, hlist _ hname, Option.map_none, ite_self]

/-- Nothing follows for an interface that something was written of. -/
theorem inferred?_eq_none_of_written {g : ResourceGrants} (hg : raw.get? r.name = some g) :
    c.inferred? raw r = none := by
  rw [inferred?, SortedMap.contains, hg]
  rfl

theorem inferred?_eq_none_of_not_isInterface (h : c.isInterface r.name = false) :
    c.inferred? raw r = none := by
  rw [inferred?, h, Bool.not_false, Bool.or_true, if_pos rfl]

/-- Of the interfaces above a resource of which nothing is said, nothing is said but what was
    written. -/
theorem nearest?_withDefaultInterfaces (hc : c.Keyed) (h : c.Chain r)
    (hr : c.get? r.name = some r) (hraw : raw.get? r.name = none) :
    nearest? (c.withDefaultInterfaces raw) r = nearest? raw r := by
  induction h with
  | top htop => rw [nearest?_of_top htop, nearest?_of_top htop]
  | @beneath r i hi hchain hbeneath ih =>
    -- The resource is a direct implementation of the interface, and nothing is said of it.
    have hnone := inferred?_eq_none
      (hchain.mem_implementations (mem_toList_of_get? hr) hi hbeneath) hraw
    rw [nearest?_of_beneath hbeneath, nearest?_of_beneath hbeneath, said?, said?,
      get?_withDefaultInterfaces hc hi, hnone, Option.none_or]
    cases hsaid : raw.get? i.name with
    | none => rw [Option.none_or, Option.none_or, ih hi hsaid]
    | some g => rfl

/-- The grants of a resource without implementations are not changed by what follows for
    interfaces. -/
theorem get?_withDefaults (hc : c.Keyed) (h : c.Chain r) (hr : c.get? r.name = some r)
    (hleaf : c.isInterface r.name = false) :
    (c.withDefaultImplementations (c.withDefaultInterfaces raw)).get? r.name =
      (c.withDefaultImplementations raw).get? r.name := by
  rw [get?_withDefaultImplementations hc hr, get?_withDefaultImplementations hc hr,
    get?_withDefaultInterfaces hc hr, inferred?_eq_none_of_not_isInterface hleaf, Option.none_or]
  cases hsaid : raw.get? r.name with
  | none => rw [nearest?_withDefaultInterfaces hc h hr hsaid]
  | some g => rfl

/-! ### The database -/

/-- What grants that may be there say about an action on objects. -/
def onObject? (g : Option ResourceGrants) (a : Action) : Option Permission :=
  g.bind (·.object.get? a)

/-- The id of what grants say about an action on objects. -/
def entryId? (g : Option ResourceGrants) (a : Action) : Option String := (onObject? g a).map (·.id)

/-- Where nothing follows for a resource, nothing does for its interfaces. -/
theorem nearest?_withDefaultImplementations (hc : c.Keyed) (h : c.Chain r)
    (hr : c.get? r.name = some r) (hnone : (c.withDefaultImplementations m).get? r.name = none) :
    nearest? (c.withDefaultImplementations m) r = none := by
  induction h with
  | top htop => exact nearest?_of_top htop
  | @beneath r i hi _ hbeneath ih =>
    rw [get?_withDefaultImplementations hc hr, nearest?_of_beneath hbeneath, Option.or_eq_none_iff,
      Option.map_eq_none_iff, said?, Option.or_eq_none_iff] at hnone
    obtain ⟨_, hown, hnearest⟩ := hnone
    -- What follows for the interface would follow for the resource too.
    have habove : (c.withDefaultImplementations m).get? i.name = none := by
      rw [get?_withDefaultImplementations hc hi, hown, hnearest]
      rfl
    rw [nearest?_of_beneath hbeneath, said?, habove, ih hi habove]
    rfl

theorem said?_withDefaultImplementations (hc : c.Keyed) (h : c.Chain r)
    (hr : c.get? r.name = some r) :
    said? (c.withDefaultImplementations m) r = (c.withDefaultImplementations m).get? r.name := by
  rw [said?]
  cases hown : (c.withDefaultImplementations m).get? r.name with
  | none => rw [Option.none_or, nearest?_withDefaultImplementations hc h hr hown]
  | some g => rfl

/-- Whatever implements a computed resource is computed. -/
def ComputedBelow (c : Catalogue) : Prop :=
  ∀ r ∈ c.toList, ∀ name ∈ r.interfaces, ∀ i, c.get? name = some i → i.calculated = true →
    r.calculated = true

theorem get?_databaseGrants (hr : c.get? r.name = some r) :
    (c.databaseGrants raw).get? r.name =
      (((c.withDefaultImplementations raw).get? r.name).filter fun g =>
        !isRedundant (c.withDefaultImplementations raw) r g).map fun g =>
          if r.calculated then g.readOnly else g := by
  rw [databaseGrants, get?_withoutComputedWrites hr, get?_withoutRedundant hr]

theorem get?_databaseGrants_eq_none (h : (c.withDefaultImplementations raw).get? name = none) :
    (c.databaseGrants raw).get? name = none := by
  rw [databaseGrants, withoutComputedWrites, SortedMap.get?_mapValues, withoutRedundant,
    SortedMap.get?_filter, h]
  rfl

theorem get?_readOnly {g : ResourceGrants} :
    g.readOnly.object.get? .read = g.object.get? .read := by
  rw [ResourceGrants.readOnly, SortedMap.get?_filter]
  cases g.object.get? .read <;> rfl

/-- Grants that are kept for the database keep the ids of their entries. -/
theorem entryId?_of_kept (hc : c.Keyed) (h : c.Chain r) (hr : c.get? r.name = some r) {a : Action}
    (hread : r.calculated = true → a = .read)
    (hkept : ∀ g, (c.withDefaultImplementations raw).get? r.name = some g →
      isRedundant (c.withDefaultImplementations raw) r g = false) :
    entryId? (said? (c.databaseGrants raw) r) a =
      entryId? ((c.withDefaultImplementations raw).get? r.name) a := by
  cases hown : (c.withDefaultImplementations raw).get? r.name with
  | none =>
    rw [said?, get?_databaseGrants_eq_none hown, nearest?_eq_none
      (fun name => get?_databaseGrants_eq_none) (nearest?_withDefaultImplementations hc h hr hown)]
    rfl
  | some g =>
    have hself : (c.databaseGrants raw).get? r.name =
        some (if r.calculated then g.readOnly else g) := by
      rw [get?_databaseGrants hr, hown, Option.filter_some, hkept g hown]
      rfl
    rw [said?, hself, Option.some_or]
    split
    · rename_i hcalculated
      rw [hread hcalculated, entryId?, onObject?, Option.bind_some, get?_readOnly]
      rfl
    · rfl

/-- What stands for a resource in the database has, for each action that the database knows,
    the id of what would be the resource's own: what is left to an interface is said there. -/
theorem entryId?_databaseGrants (hc : c.Keyed) (hcomputed : c.ComputedBelow) (h : c.Chain r)
    (hr : c.get? r.name = some r) {a : Action} (ha : a ∈ databaseActions)
    (hread : r.calculated = true → a = .read) :
    entryId? (said? (c.databaseGrants raw) r) a =
      entryId? ((c.withDefaultImplementations raw).get? r.name) a := by
  induction h with
  | top htop =>
    refine entryId?_of_kept hc (.top htop) hr hread fun g _ => ?_
    rw [isRedundant, nearest?_of_top htop, Option.any_none]
  | @beneath r i hi hchain hbeneath ih =>
    by_cases hkept : ∀ g, (c.withDefaultImplementations raw).get? r.name = some g →
        isRedundant (c.withDefaultImplementations raw) r g = false
    · exact entryId?_of_kept hc (.beneath hi hchain hbeneath) hr hread hkept
    · -- The grants are left to the interface, where they have the same ids.
      push Not at hkept
      obtain ⟨g, hg, hne⟩ := hkept
      have hredundant := Bool.ne_false_iff.1 hne
      have hgone : (c.databaseGrants raw).get? r.name = none := by
        rw [get?_databaseGrants hr, hg, Option.filter_some, hredundant]
        rfl
      rw [isRedundant, nearest?_of_beneath hbeneath, said?_withDefaultImplementations hc hchain hi,
        Option.any_eq_true] at hredundant
      obtain ⟨g', hg', hsame⟩ := hredundant
      have hid : (g.object.get? a).map (·.id) = (g'.object.get? a).map (·.id) :=
        beq_iff_eq.1 (List.all_eq_true.1 hsame a ha)
      -- The interface can be computed only if the resource is.
      have hread' : i.calculated = true → a = .read := fun hcalculated =>
        hread (hcomputed r (mem_toList_of_get? hr) i.name (hbeneath ▸ List.mem_cons_self) i hi
          hcalculated)
      rw [said?, hgone, Option.none_or, nearest?_of_beneath hbeneath, ih hi hread', hg', hg]
      exact hid.symm

/-! ### Checks -/

theorem passes_inherited {g : ResourceGrants} (h : g.passes k = true) (r : Resource) :
    (inherited r g).passes k = true := by
  obtain ⟨hobject, hprops, hrelations⟩ := ResourceGrants.passes_eq_true.1 h
  refine ResourceGrants.passes_eq_true.2 ⟨hobject, fun key d hd => ?_, fun key d hd => ?_⟩
  · rw [inherited, SortedMap.get?_filter] at hd
    exact hprops key d (Option.eq_some_of_filter_eq_some hd)
  · rw [inherited, SortedMap.get?_filter] at hd
    exact hrelations key d (Option.eq_some_of_filter_eq_some hd)

theorem passes_nearest? (h : m.passes k = true) {g : ResourceGrants}
    (hg : nearest? m r = some g) : g.passes k = true := by
  obtain ⟨name, _, hname⟩ := List.exists_of_findSome?_eq_some hg
  exact GrantMap.passes_eq_true.1 h name g hname

theorem passes_said? (h : m.passes k = true) {g : ResourceGrants} (hg : said? m r = some g) :
    g.passes k = true := by
  rcases Option.or_eq_some_iff.1 hg with hown | ⟨_, hnearest⟩
  · exact GrantMap.passes_eq_true.1 h _ g hown
  · exact passes_nearest? h hnearest

theorem passes_withDefaultImplementations (h : m.passes k = true) :
    (c.withDefaultImplementations m).passes k = true := by
  refine GrantMap.passes_eq_true.2 fun name g hg => ?_
  rw [withDefaultImplementations_eq] at hg
  rcases SortedMap.mem_of_get?_insertAll hg with hmem | hown
  · obtain ⟨r, _, hr⟩ := List.mem_filterMap.1 hmem
    obtain ⟨g', hg', hr⟩ := Option.map_eq_some_iff.1 hr
    cases hr
    rw [takenOver?] at hg'
    split at hg'
    · cases hg'
    · obtain ⟨above, habove, rfl⟩ := Option.map_eq_some_iff.1 hg'
      exact passes_inherited (passes_nearest? h habove) r
  · exact GrantMap.passes_eq_true.1 h name g hown

theorem passes_readOnly {g : ResourceGrants} (h : g.passes k = true) :
    g.readOnly.passes k = true := by
  obtain ⟨hobject, hprops, hrelations⟩ := ResourceGrants.passes_eq_true.1 h
  have hfilter : ∀ {d : Decisions}, d.passes k = true →
      Decisions.passes k (d.filter fun a _ => a == .read) = true := by
    intro d hd
    refine Decisions.passes_eq_true.2 fun a p hp => ?_
    rw [SortedMap.get?_filter] at hp
    exact Decisions.passes_eq_true.1 hd a p (Option.eq_some_of_filter_eq_some hp)
  refine ResourceGrants.passes_eq_true.2 ⟨hfilter hobject, fun key d hd => ?_, fun key d hd => ?_⟩
  · rw [ResourceGrants.readOnly, SortedMap.get?_mapValues] at hd
    obtain ⟨d', hd', rfl⟩ := Option.map_eq_some_iff.1 hd
    exact hfilter (hprops key d' hd')
  · rw [ResourceGrants.readOnly, SortedMap.get?_mapValues] at hd
    obtain ⟨d', hd', rfl⟩ := Option.map_eq_some_iff.1 hd
    exact hfilter (hrelations key d' hd')

/-- What becomes of grants for the database passes the checks that they pass. -/
theorem passes_databaseGrants (h : raw.passes k = true) :
    (c.databaseGrants raw).passes k = true := by
  refine GrantMap.passes_eq_true.2 fun name g hg => ?_
  rw [databaseGrants, withoutComputedWrites, SortedMap.get?_mapValues] at hg
  obtain ⟨kept, hkept, rfl⟩ := Option.map_eq_some_iff.1 hg
  rw [withoutRedundant, SortedMap.get?_filter] at hkept
  have hpass : kept.passes k = true := GrantMap.passes_eq_true.1
    (passes_withDefaultImplementations h) name kept (Option.eq_some_of_filter_eq_some hkept)
  split
  · exact passes_readOnly hpass
  · exact hpass

end Authorization.Catalogue
