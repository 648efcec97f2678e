import Authorization.Proofs.Policy.Extent

/-!
# What powers stand for

A policy has the power to create objects of a resource if it grants that without
condition, or if the power is *handed down* to the resource from one where it is
granted: through direct implementations of which nothing is said
(`Catalogue.HandedDown`, `Catalogue.mem_powers?`).

Powers go downwards from what was written. What the policy says in the end goes
by what backs the resource instead, or else by the nearest interface that is
backed: so a policy allows creating where one of these lets create
(`Catalogue.LetsCreate`, `Policy.IsCompiled.permission_create`). A policy with the
power does so if something was written of the resource, and along a chain unless
the resource is backed by its implementations, for then the nearest interface is
where the power comes from (`Policy.letsCreate_of_mem_powers`).
-/

namespace Authorization

/-- Objects can be created without condition. -/
def ResourceGrants.CreatesFreely (g : ResourceGrants) : Prop := g.object.get? .create = some .allow

theorem ResourceGrants.lookup_create_eq_allow {g : ResourceGrants} {r : Resource} :
    g.lookup r .create none = .allow ↔ g.CreatesFreely := by
  rw [lookup, CreatesFreely]
  cases g.object.get? .create with
  | none => exact iff_of_false Permission.noConfusion (Option.some_ne_none _).symm
  | some p => exact Option.some_inj.symm

namespace Permission

theorem map_eq_allow {f : Condition → Condition} {p : Permission} :
    p.map f = .allow ↔ p = .allow := by
  cases p with
  | allow => exact ⟨fun _ => rfl, fun _ => rfl⟩
  | deny => exact ⟨nofun, nofun⟩
  | when c => exact ⟨nofun, nofun⟩

/-- All of several permissions allow something without condition if each does. -/
theorem intersect_eq_allow {ps : List Permission} :
    intersect ps = .allow ↔ ∀ p ∈ ps, p = .allow := by
  constructor
  · intro h p hp
    have hdeny : ps.any isDeny = false := by rw [← isDeny_intersect, h]; rfl
    cases p with
    | allow => rfl
    | deny => exact absurd rfl (List.any_eq_false.1 hdeny _ hp)
    | when c =>
      rw [intersect, hdeny, if_neg Bool.false_ne_true] at h
      split at h
      · rename_i hconditions
        cases List.filterMap_eq_nil_iff.1 hconditions _ hp
      · cases h
  · intro h
    have hdeny : ps.any isDeny = false :=
      List.any_eq_false.2 fun p hp => by rw [h p hp]; exact Bool.false_ne_true
    have hconditions : ps.filterMap condition? = [] :=
      List.filterMap_eq_nil_iff.2 fun p hp => by rw [h p hp]; rfl
    rw [intersect, hdeny, hconditions]
    rfl

end Permission

namespace Catalogue

variable {c : Catalogue} {raw : GrantMap} {r i : Resource} {name below : String}

/-! ### Several look-ups -/

section Lookups

variable {α β : Type} {f : α → Option β} {xs : List α} {ys : List β}

/-- What is found of several is found of each. -/
theorem forall₂_of_mapM_eq_some (h : xs.mapM f = some ys) :
    xs.Forall₂ (fun x y => f x = some y) ys := by
  induction xs generalizing ys with
  | nil =>
    cases h
    exact .nil
  | cons x xs ih =>
    rw [List.mapM_cons] at h
    obtain ⟨y, hy, h⟩ := Option.bind_eq_some_iff.1 h
    obtain ⟨ys', hys, h⟩ := Option.bind_eq_some_iff.1 h
    cases h
    exact .cons hy (ih hys)

end Lookups

/-! ### Powers that are handed down -/

/-- Something is handed down to a resource from one above, through direct implementations of which
    nothing is said. -/
inductive HandedDown (c : Catalogue) (raw : GrantMap) (below : String) : String → Prop
  | direct {name : String} : below ∈ c.implementations name → raw.get? below = none →
    HandedDown c raw below name
  | further {name between : String} : between ∈ c.implementations name →
    raw.get? between = none → HandedDown c raw below between → HandedDown c raw below name

theorem HandedDown.get?_eq_none (h : c.HandedDown raw below name) : raw.get? below = none := by
  induction h with
  | direct _ hnone => exact hnone
  | further _ _ _ ih => exact ih

/-- To what is gone through from a resource downwards, it hands down. -/
theorem handedDown_of_mem_unsaid? : ∀ {depth : Nat} {name : String} {found : List String},
    c.unsaid? raw depth name = some found → ∀ below ∈ found,
      raw.get? name = none ∧ (below = name ∨ c.HandedDown raw below name)
  | 0, _, _, h => by cases h
  | depth + 1, name, found, h => by
    rw [unsaid?] at h
    split at h
    · cases h
      exact fun _ hbelow => absurd hbelow List.not_mem_nil
    · rename_i hnew
      have hnone := SortedMap.get?_of_contains_eq_false (Bool.eq_false_iff.2 hnew)
      obtain ⟨parts, hparts, h⟩ := Option.bind_eq_some_iff.1 h
      cases h
      intro below hbelow
      rcases List.mem_cons.1 hbelow with rfl | hbelow
      · exact ⟨hnone, .inl rfl⟩
      · obtain ⟨part, hpart, hbelow⟩ := List.mem_flatten.1 hbelow
        obtain ⟨between, hbetween, hpart⟩ := (forall₂_of_mapM_eq_some hparts).exists_left hpart
        obtain ⟨hsilent, rfl | hfurther⟩ := handedDown_of_mem_unsaid? hpart below hbelow
        · exact ⟨hnone, .inr (.direct hbetween hsilent)⟩
        · exact ⟨hnone, .inr (.further hbetween hsilent hfurther)⟩

theorem mem_creatable : name ∈ creatable raw ↔
    ∃ g, raw.get? name = some g ∧ g.CreatesFreely := by
  rw [creatable, List.mem_map]
  constructor
  · rintro ⟨⟨name, g⟩, he, rfl⟩
    obtain ⟨hmem, hallow⟩ := List.mem_filter.1 he
    obtain ⟨p, hp, hallow⟩ := (Option.any_eq_true _ _).1 hallow
    obtain rfl := Permission.eq_allow_of_isAllow hallow
    exact ⟨g, SortedMap.get?_eq_some_iff.2 hmem, hp⟩
  · rintro ⟨g, hg, hfree⟩
    refine ⟨(name, g), List.mem_filter.2 ⟨SortedMap.get?_eq_some_iff.1 hg, ?_⟩, rfl⟩
    rw [hfree]
    rfl

/-- A power comes from a resource whose objects can be created without condition: it is on that
    resource, or handed down from there. -/
theorem exists_of_mem_powers? {powers : SortedSet Power} (h : c.powers? raw = some powers)
    (hname : ⟨name⟩ ∈ powers) :
    ∃ source g, raw.get? source = some g ∧ g.CreatesFreely ∧
      (name = source ∨ c.HandedDown raw name source) := by
  obtain ⟨parts, hparts, rfl⟩ := Option.map_eq_some_iff.1 h
  obtain ⟨part, hpart, hname⟩ := List.mem_flatten.1 (SortedSet.mem_ofList.1 hname)
  obtain ⟨source, hsource, hpart⟩ := (forall₂_of_mapM_eq_some hparts).exists_left hpart
  obtain ⟨g, hg, hfree⟩ := mem_creatable.1 hsource
  refine ⟨source, g, hg, hfree, ?_⟩
  obtain ⟨found, hfound, rfl⟩ := Option.map_eq_some_iff.1 hpart
  obtain ⟨below, hbelow, heq⟩ := List.mem_map.1 hname
  cases heq
  refine (List.mem_cons.1 hbelow).imp_right fun hbelow => ?_
  obtain ⟨lists, hlists, rfl⟩ := Option.map_eq_some_iff.1 hfound
  obtain ⟨list, hlist, hbelow⟩ := List.mem_flatten.1 hbelow
  obtain ⟨between, hbetween, hlist⟩ := (forall₂_of_mapM_eq_some hlists).exists_left hlist
  obtain ⟨hsilent, rfl | hfurther⟩ := handedDown_of_mem_unsaid? hlist name hbelow
  · exact .direct hbetween hsilent
  · exact .further hbetween hsilent hfurther

/-! ### Along a chain -/

/-- The direct implementations of an interface that are in a chain list it first, and then what it
    lists. -/
theorem Chain.exists_of_mem_implementations (hc : c.Keyed) (h : c.Chain r)
    (hr : c.get? r.name = some r) (himplements : r.name ∈ c.implementations name) :
    ∃ i, c.get? i.name = some i ∧ i.name = name ∧ c.Chain i ∧
      r.interfaces = i.name :: i.interfaces := by
  obtain ⟨r', hr', hdirect, hname⟩ := Catalogue.mem_implementations.1 himplements
  have hget := hc.get?_of_mem hr'
  rw [hname, hr] at hget
  cases hget
  rw [directInterfaces, List.mem_filter] at hdirect
  obtain ⟨hlisted, hnew⟩ := hdirect
  cases h with
  | top htop =>
    rw [htop] at hlisted
    exact absurd hlisted List.not_mem_nil
  | @beneath _ i hi hchain hbelow =>
    refine ⟨i, hi, ?_, hchain, hbelow⟩
    rw [hbelow] at hlisted hnew
    rcases List.mem_cons.1 hlisted with rfl | hfurther
    · rfl
    · -- What the first interface lists is not implemented directly.
      rw [Bool.not_eq_true', ← Bool.not_eq_true, List.contains_iff_mem, List.filterMap_cons, hi]
        at hnew
      exact absurd (List.mem_append_left _ hfurther) hnew

/-- Along a chain, what is nearest to a resource is what is said where a power on it comes from. -/
theorem HandedDown.nearest?_eq (hc : c.Keyed) (hr : c.get? r.name = some r) (hchain : c.Chain r)
    (h : c.HandedDown raw r.name name) :
    ∃ i, c.get? i.name = some i ∧ i.name = name ∧ c.Chain i ∧ nearest? raw r = said? raw i := by
  induction h with
  | direct himplements =>
    obtain ⟨i, hi, hname, hchain, hbelow⟩ :=
      hchain.exists_of_mem_implementations hc hr himplements
    exact ⟨i, hi, hname, hchain, nearest?_of_beneath hbelow⟩
  | further himplements hsilent _ ih =>
    obtain ⟨between, hbetween, rfl, hchain, hnearest⟩ := ih
    obtain ⟨i, hi, hname, hchain, hbelow⟩ :=
      hchain.exists_of_mem_implementations hc hbetween himplements
    refine ⟨i, hi, hname, hchain, ?_⟩
    rw [hnearest, said?, hsilent, Option.none_or, nearest?_of_beneath hbelow]

/-! ### What lets create -/

/-- What was written of a resource, or else of all implementations of an interface, lets create its
    objects without condition. -/
inductive BacksCreating (c : Catalogue) (raw : GrantMap) (name : String) : Prop
  | written {g : ResourceGrants} : raw.get? name = some g → g.CreatesFreely →
    BacksCreating c raw name
  | implementations : raw.get? name = none → c.isInterface name = true →
    (∀ below ∈ c.implementations name, ∃ g, raw.get? below = some g ∧ g.CreatesFreely) →
    BacksCreating c raw name

/-- What was written lets create objects of a resource in the end: if the resource is not backed
    itself, by the first of its interfaces that is. -/
inductive LetsCreate (c : Catalogue) (raw : GrantMap) (r : Resource) : Prop
  | backed : c.BacksCreating raw r.name → LetsCreate c raw r
  | listed {name : String} : c.isBacked raw r.name = false →
    r.interfaces.find? (c.isBacked raw) = some name → c.BacksCreating raw name →
    LetsCreate c raw r

theorem contains_of_createsFreely {names : List String}
    (h : ∀ name ∈ names, ∃ g, raw.get? name = some g ∧ g.CreatesFreely) :
    ∀ name ∈ names, raw.contains name = true := fun name hname => by
  obtain ⟨g, hg, _⟩ := h name hname
  exact Option.isSome_iff_exists.2 ⟨g, hg⟩

theorem BacksCreating.isBacked (h : c.BacksCreating raw name) : c.isBacked raw name = true := by
  cases h with
  | written hg _ => rw [Catalogue.isBacked, SortedMap.contains, hg]; rfl
  | implementations _ hinterface hall =>
    have hdeclared : (c.implementations name).toList.all raw.contains = true :=
      List.all_eq_true.2 (contains_of_createsFreely hall)
    rw [Catalogue.isBacked, hinterface, hdeclared, Bool.and_true, Bool.or_true]

/-- What follows for an interface lets create if what is said of each implementation does. -/
theorem createsFreely_commonGrants {gs : List ResourceGrants} :
    (commonGrants r gs).CreatesFreely ↔ ∀ g ∈ gs, g.CreatesFreely := by
  have hall : common r gs .create none = .allow ↔ ∀ g ∈ gs, g.CreatesFreely := by
    rw [common, Permission.intersect_eq_allow, List.forall_mem_map]
    exact forall₂_congr fun _ _ => ResourceGrants.lookup_create_eq_allow
  rw [ResourceGrants.CreatesFreely, object_commonGrants, Permission.unlessDenied_eq_some, ← hall]
  exact and_iff_left_of_imp fun hallow => by rw [hallow]; rfl

/-- What follows for an interface of which nothing was written lets create if all of its
    implementations do. -/
theorem exists_inferred?_iff (hsilent : raw.get? i.name = none) :
    (∃ g, c.inferred? raw i = some g ∧ g.CreatesFreely) ↔ c.isInterface i.name = true ∧
      ∀ below ∈ c.implementations i.name, ∃ g, raw.get? below = some g ∧ g.CreatesFreely := by
  have hnew : raw.contains i.name = false := by rw [SortedMap.contains, hsilent]; rfl
  rw [inferred?, hnew, Bool.false_or]
  cases c.isInterface i.name with
  | false =>
    refine iff_of_false ?_ fun h => Bool.false_ne_true h.1
    rintro ⟨_, h, _⟩
    cases h
  | true =>
    rw [Bool.not_true, if_neg Bool.false_ne_true]
    refine Iff.trans ?_ (and_iff_right rfl).symm
    constructor
    · rintro ⟨g, hg, hfree⟩ below hbelow
      obtain ⟨gs, hgs, rfl⟩ := Option.map_eq_some_iff.1 hg
      obtain ⟨g, hmem, hget⟩ := (forall₂_of_mapM_eq_some hgs).exists_right hbelow
      exact ⟨g, hget, createsFreely_commonGrants.1 hfree g hmem⟩
    · intro hall
      refine ⟨_, by rw [mapM_of_forall_contains (contains_of_createsFreely hall)]; rfl,
        createsFreely_commonGrants.2 fun g hg => ?_⟩
      obtain ⟨below, hbelow, hget⟩ := List.mem_filterMap.1 hg
      obtain ⟨g', hg', hfree⟩ := hall below hbelow
      cases hget.symm.trans hg'
      exact hfree

theorem exists_withDefaultInterfaces_iff (hc : c.Keyed) (hi : c.get? i.name = some i) :
    (∃ g, (c.withDefaultInterfaces raw).get? i.name = some g ∧ g.CreatesFreely) ↔
      c.BacksCreating raw i.name := by
  rw [get?_withDefaultInterfaces hc hi]
  cases hsaid : raw.get? i.name with
  | some g =>
    rw [inferred?_eq_none_of_written hsaid, Option.none_or]
    constructor
    · rintro ⟨_, ⟨⟩, hfree⟩
      exact .written hsaid hfree
    · rintro (⟨hg, hfree⟩ | ⟨hsilent, _⟩)
      · exact ⟨_, hsaid.symm.trans hg, hfree⟩
      · cases hsaid.symm.trans hsilent
  | none =>
    rw [Option.or_none, exists_inferred?_iff hsaid]
    constructor
    · rintro ⟨hinterface, hall⟩
      exact .implementations hsaid hinterface hall
    · rintro (⟨hg, _⟩ | ⟨_, hinterface, hall⟩)
      · cases hsaid.symm.trans hg
      · exact ⟨hinterface, hall⟩

/-- What is backed is told, before anything follows for relations, what follows for interfaces. -/
theorem get?_beforeRelations_of_isBacked (hc : c.Keyed) (hi : c.get? i.name = some i)
    (h : c.isBacked raw i.name = true) :
    (c.beforeRelations raw).get? i.name = (c.withDefaultInterfaces raw).get? i.name := by
  obtain ⟨g, hg⟩ := Option.isSome_iff_exists.1 ((contains_withDefaultInterfaces hc hi).trans h)
  rw [get?_withDefaultImplementations hc hi, hg]
  rfl

/-- What a resource takes over lets create if what it is taken over from does. -/
theorem exists_map_inherited_iff {x : Option ResourceGrants} :
    (∃ g, x.map (inherited r) = some g ∧ g.CreatesFreely) ↔ ∃ g, x = some g ∧ g.CreatesFreely := by
  constructor
  · rintro ⟨_, h, hfree⟩
    obtain ⟨g, hg, rfl⟩ := Option.map_eq_some_iff.1 h
    exact ⟨g, hg, hfree⟩
  · rintro ⟨g, hg, hfree⟩
    exact ⟨inherited r g, by rw [hg]; rfl, hfree⟩

/-- What is said of a resource in the end lets create its objects just where what was written
    does. -/
theorem exists_beforeRelations_iff (hc : c.Keyed) (hr : c.get? r.name = some r) :
    (∃ g, (c.beforeRelations raw).get? r.name = some g ∧ g.CreatesFreely) ↔
      c.LetsCreate raw r := by
  cases hbacked : c.isBacked raw r.name with
  | true =>
    rw [get?_beforeRelations_of_isBacked hc hr hbacked, exists_withDefaultInterfaces_iff hc hr]
    refine ⟨.backed, ?_⟩
    rintro (h | ⟨hunbacked, _, _⟩)
    · exact h
    · cases hbacked.symm.trans hunbacked
  | false =>
    have hown : ¬c.BacksCreating raw r.name := fun h => by cases hbacked.symm.trans h.isBacked
    cases hname : r.interfaces.find? (c.isBacked raw) with
    | none =>
      have hsilent : (c.beforeRelations raw).get? r.name = none := by
        refine SortedMap.get?_of_contains_eq_false ?_
        rw [contains_beforeRelations hc hr, hbacked, Bool.false_or, List.any_eq_false]
        exact List.find?_eq_none.1 hname
      rw [hsilent]
      constructor
      · rintro ⟨_, h, _⟩
        cases h
      · rintro (h | ⟨_, hfound, _⟩)
        · exact absurd h hown
        · cases hname.symm.trans hfound
    | some name =>
      obtain ⟨i, hi⟩ := exists_get?_of_mem_interfaces (mem_toList_of_get? hr)
        (List.mem_of_find?_eq_some hname)
      obtain rfl := hc name i hi
      rw [get?_beforeRelations_of_find? hc hr hbacked hname,
        get?_beforeRelations_of_isBacked hc hi (List.find?_some hname), exists_map_inherited_iff,
        exists_withDefaultInterfaces_iff hc hi]
      refine ⟨.listed hbacked hname, ?_⟩
      rintro (h | ⟨_, hfound, h⟩)
      · exact absurd h hown
      · cases hname.symm.trans hfound
        exact h

/-- Along a chain, a resource that is not backed takes over what is said where a power that is
    handed down to it comes from. -/
theorem HandedDown.letsCreate (hc : c.Keyed) (hr : c.get? r.name = some r) (hchain : c.Chain r)
    (hbacked : c.isBacked raw r.name = false) {source : ResourceGrants}
    (hname : raw.get? name = some source) (hfree : source.CreatesFreely)
    (h : c.HandedDown raw r.name name) : c.LetsCreate raw r := by
  obtain ⟨i, _, rfl, _, hnearest⟩ := h.nearest?_eq hc hr hchain
  have hsource : nearest? (c.withDefaultInterfaces raw) r = some source := by
    rw [nearest?_withDefaultInterfaces hc hchain hr h.get?_eq_none, hnearest, said?, hname]
    rfl
  have hown : (c.withDefaultInterfaces raw).get? r.name = none :=
    SortedMap.get?_of_contains_eq_false ((contains_withDefaultInterfaces hc hr).trans hbacked)
  refine (exists_beforeRelations_iff hc hr).1 ⟨inherited r source, ?_, hfree⟩
  rw [get?_withDefaultImplementations hc hr, hown, hsource]
  rfl

end Catalogue

/-! ### Policies with a power -/

namespace Policy

variable {c : Catalogue} {d : Declaration} {p : Policy} {raw : GrantMap} {r : Resource}

theorem powers_eq_of_compilePolicy (h : c.compilePolicy d = .ok p)
    (hraw : d.rawGrants c = .ok raw) : c.powers? raw = some p.powers := by
  obtain ⟨raw', hraw', h⟩ := exists_of_bind_eq_ok h
  cases hraw.symm.trans hraw'
  obtain ⟨powers, hpowers, h⟩ := exists_of_bind_eq_ok h
  cases h
  rw [Catalogue.powers] at hpowers
  split at hpowers
  · rename_i found hfound
    cases hpowers
    exact hfound
  · cases hpowers

/-- A policy allows to create objects of a resource, without condition, just where what was written
    lets create them. -/
theorem IsCompiled.permission_create (h : p.IsCompiled c d raw) (hc : c.Keyed)
    (hr : c.get? r.name = some r) :
    p.permission r .create none = .allow ↔ c.LetsCreate raw r := by
  rw [← Catalogue.exists_beforeRelations_iff hc hr]
  cases hsaid : (c.beforeRelations raw).get? r.name with
  | none =>
    have hdeny : p.permission r .create none = .deny := by
      rw [permission, h.live, Catalogue.get?_liveGrants d.roles hr, hsaid]
      rfl
    rw [hdeny]
    refine iff_of_false Permission.noConfusion ?_
    rintro ⟨_, h, _⟩
    cases h
  | some g =>
    have hlookup : p.permission r .create none = (g.lookup r .create none).map (.bind d.roles) := by
      rw [h.permission_live hr hsaid, Option.bind_none, ResourceGrants.lookupWith_none]
    rw [hlookup, Permission.map_eq_allow, ResourceGrants.lookup_create_eq_allow]
    refine ⟨fun hfree => ⟨g, rfl, hfree⟩, ?_⟩
    rintro ⟨_, ⟨⟩, hfree⟩
    exact hfree

/-- What was written for a policy with the power to create objects of a resource lets create them,
    if something was written of the resource, or else the resource is in a chain, and not backed
    by its implementations. -/
theorem letsCreate_of_mem_powers (h : c.compilePolicy d = .ok p) (hraw : d.rawGrants c = .ok raw)
    (hc : c.Keyed) (hr : c.get? r.name = some r) (hpower : ⟨r.name⟩ ∈ p.powers)
    (hline : raw.contains r.name = true ∨ c.isBacked raw r.name = false ∧ c.Chain r) :
    c.LetsCreate raw r := by
  obtain ⟨source, g, hg, hfree, rfl | hbelow⟩ :=
    Catalogue.exists_of_mem_powers? (powers_eq_of_compilePolicy h hraw) hpower
  · exact .backed (.written hg hfree)
  · rcases hline with hwritten | ⟨hbacked, hchain⟩
    · rw [SortedMap.contains, hbelow.get?_eq_none] at hwritten
      cases hwritten
    · exact hbelow.letsCreate hc hr hchain hbacked hg hfree

end Policy

end Authorization
