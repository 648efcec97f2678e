import Authorization.Proofs.Policy.Redundancy

/-!
# How far grants extend

What was written of resources *backs* others: an interface is backed if
something was written of each of its direct implementations (`Catalogue.isBacked`).
A compiled policy has grants for what is backed and for what implements it, and
for nothing else.

What was written stays. In the grants for decisions only memberships are bound
and relations added of which nothing was written (`ResourceGrants.KeptIn`), and in
the database a resource is left to an interface as a whole, or not at all. What is
not backed takes over what is said of objects from the first of its interfaces
that is (`Policy.extends_written`).
-/

namespace Authorization

variable {c : Catalogue} {raw m : GrantMap} {r i : Resource} {g : ResourceGrants} {name : String}
  {roles : Option NameSet}

namespace Catalogue

/-! ### Resources that are backed -/

/-- Whether something was written of a resource or, of an interface, of all its direct
    implementations. -/
def isBacked (c : Catalogue) (raw : GrantMap) (name : String) : Bool :=
  raw.contains name || c.isInterface name && (c.implementations name).toList.all raw.contains

/-- Something follows for an interface if it is backed by its implementations alone. -/
theorem isSome_inferred? : (c.inferred? raw r).isSome =
    (!raw.contains r.name && c.isBacked raw r.name) := by
  rw [isBacked]
  cases hsaid : raw.contains r.name with
  | true => rw [inferred?, hsaid, Bool.true_or, if_pos rfl]; rfl
  | false =>
    cases hinterface : c.isInterface r.name with
    | false => rw [inferred?_eq_none_of_not_isInterface hinterface]; rfl
    | true =>
      cases hall : (c.implementations r.name).toList.all raw.contains with
      | true =>
        rw [inferred?, hsaid, hinterface, if_neg (by decide),
          mapM_of_forall_contains (List.all_eq_true.1 hall)]
        rfl
      | false =>
        obtain ⟨name, hname, hnone⟩ := List.all_eq_false.1 hall
        rw [inferred?_eq_none hname
          (SortedMap.get?_of_contains_eq_false (Bool.eq_false_iff.2 hnone))]
        rfl

/-- What follows for interfaces makes up what is backed. -/
theorem contains_withDefaultInterfaces (hc : c.Keyed) (hr : c.get? r.name = some r) :
    (c.withDefaultInterfaces raw).contains r.name = c.isBacked raw r.name := by
  rw [SortedMap.contains, get?_withDefaultInterfaces hc hr, Option.isSome_or, isSome_inferred?]
  cases hsaid : raw.contains r.name with
  | true =>
    rw [show (raw.get? r.name).isSome = true from hsaid, Bool.or_true, isBacked, hsaid]
    rfl
  | false =>
    rw [show (raw.get? r.name).isSome = false from hsaid, Bool.or_false]
    exact Bool.true_and _

/-- So it is for the interfaces that a resource lists. -/
theorem contains_withDefaultInterfaces_of_listed (hc : c.Keyed) (hr : c.get? r.name = some r)
    (hname : name ∈ r.interfaces) :
    (c.withDefaultInterfaces raw).contains name = c.isBacked raw name := by
  obtain ⟨i, hi⟩ := exists_get?_of_mem_interfaces (mem_toList_of_get? hr) hname
  obtain rfl := hc name i hi
  exact contains_withDefaultInterfaces hc hi

theorem isSome_nearest? : (nearest? m r).isSome = r.interfaces.any m.contains := by
  rw [Bool.eq_iff_iff, nearest?, List.findSome?_isSome_iff, List.any_eq_true]
  rfl

/-- Something is said of a resource, before anything follows for relations, if it is backed or
    lists an interface that is. -/
theorem contains_beforeRelations (hc : c.Keyed) (hr : c.get? r.name = some r) :
    (c.beforeRelations raw).contains r.name =
      (c.isBacked raw r.name || r.interfaces.any (c.isBacked raw)) := by
  rw [SortedMap.contains, get?_withDefaultImplementations hc hr, Option.isSome_or,
    Option.isSome_map, isSome_nearest?, ← contains_withDefaultInterfaces hc hr]
  refine congrArg (_ || ·) ?_
  rw [Bool.eq_iff_iff, List.any_eq_true, List.any_eq_true]
  refine exists_congr fun name => and_congr_right fun hname => ?_
  rw [contains_withDefaultInterfaces_of_listed hc hr hname]

/-- What is not backed takes over from the first of its interfaces that is. -/
theorem get?_beforeRelations_of_find? (hc : c.Keyed) (hr : c.get? r.name = some r)
    (hbacked : c.isBacked raw r.name = false)
    (hname : r.interfaces.find? (c.isBacked raw) = some name) :
    (c.beforeRelations raw).get? r.name =
      ((c.beforeRelations raw).get? name).map (inherited r) := by
  obtain ⟨hback, before, after, hsplit, hbefore⟩ := List.find?_eq_some_iff_append.1 hname
  have hlisted : ∀ n ∈ before ++ name :: after,
      (c.withDefaultInterfaces raw).contains n = c.isBacked raw n := fun n hn =>
    contains_withDefaultInterfaces_of_listed hc hr (hsplit ▸ hn)
  have hmem : name ∈ before ++ name :: after := List.mem_append_right _ List.mem_cons_self
  obtain ⟨g, hg⟩ := Option.isSome_iff_exists.1 ((hlisted name hmem).trans hback)
  -- Nothing is said of the interfaces before.
  have hnearest : nearest? (c.withDefaultInterfaces raw) r = some g := by
    refine List.findSome?_eq_some_iff.2 ⟨before, name, after, hsplit, hg, fun n hn => ?_⟩
    refine SortedMap.get?_of_contains_eq_false ?_
    rw [hlisted n (List.mem_append_left _ hn)]
    exact Bool.not_eq_true' _ ▸ hbefore n hn
  obtain ⟨i, hi⟩ := exists_get?_of_mem_interfaces (mem_toList_of_get? hr) (hsplit ▸ hmem)
  obtain rfl := hc name i hi
  have hown : (c.withDefaultInterfaces raw).get? r.name = none :=
    SortedMap.get?_of_contains_eq_false ((contains_withDefaultInterfaces hc hr).trans hbacked)
  rw [get?_withDefaultImplementations hc hr, get?_withDefaultImplementations hc hi, hown, hnearest,
    hg]
  rfl

/-! ### Resources that there are -/

/-- Entries put in for resources are under names of the catalogue. -/
theorem contains_or_of_insertAll_resources (hc : c.Keyed) {f : Resource → Option ResourceGrants}
    (h : (m.insertAll (c.toList.filterMap fun r => (f r).map fun g => (r.name, g))).contains name =
      true) : m.contains name = true ∨ c.contains name = true := by
  obtain ⟨g, hg⟩ := Option.isSome_iff_exists.1 h
  rcases SortedMap.mem_of_get?_insertAll hg with hmem | hown
  · obtain ⟨r, hr, h⟩ := List.mem_filterMap.1 hmem
    obtain ⟨g', _, heq⟩ := Option.map_eq_some_iff.1 h
    cases heq
    exact .inr (Option.isSome_iff_exists.2 ⟨r, hc.get?_of_mem hr⟩)
  · exact .inl (Option.isSome_iff_exists.2 ⟨g, hown⟩)

/-- Nothing is said but of resources of the catalogue, and of what something was written of. -/
theorem contains_of_beforeRelations (hc : c.Keyed)
    (h : (c.beforeRelations raw).contains name = true) :
    raw.contains name = true ∨ c.contains name = true := by
  rw [beforeRelations, withDefaultImplementations_eq] at h
  refine (contains_or_of_insertAll_resources hc h).elim (fun h => ?_) .inr
  exact contains_or_of_insertAll_resources hc h

/-- An interface that is backed by its implementations is a resource of the catalogue. -/
theorem exists_get?_of_isBacked (hsaid : raw.contains name = false)
    (h : c.isBacked raw name = true) : ∃ i, c.get? name = some i := by
  rw [isBacked, hsaid, Bool.false_or, Bool.and_eq_true] at h
  have hne : (c.implementations name).toList ≠ [] := fun hnil => by
    rw [isInterface, SortedSet.isEmpty, hnil] at h
    cases h.1
  obtain ⟨x, hx⟩ := List.exists_mem_of_ne_nil _ hne
  obtain ⟨r, hr, hdirect, _⟩ := mem_implementations.1 (SortedSet.mem_def.2 hx)
  exact exists_get?_of_mem_interfaces hr (List.mem_of_mem_filter hdirect)

/-- What something was written of keeps it. -/
theorem contains_beforeRelations_of_written (h : raw.contains name = true) :
    (c.beforeRelations raw).contains name = true := by
  rw [beforeRelations, withDefaultImplementations_eq]
  exact SortedMap.contains_insertAll.2 (.inr (SortedMap.contains_insertAll.2 (.inr h)))

end Catalogue

/-! ### What is kept -/

namespace ResourceGrants

/-- Replacing permissions twice is replacing them once. -/
theorem mapPermissions_mapPermissions (f h : Permission → Permission) (g : ResourceGrants) :
    (g.mapPermissions f).mapPermissions h = g.mapPermissions (h ∘ f) := by
  have hdecisions : ∀ d : Decisions,
      (d.mapPermissions f).mapPermissions h = d.mapPermissions (h ∘ f) :=
    fun d => SortedMap.mapValues_mapValues d _ _
  simp only [mapPermissions, hdecisions, SortedMap.mapValues_mapValues]

/-- The grants with the roles of all memberships left open. -/
def leftOpen (g : ResourceGrants) : ResourceGrants := g.mapPermissions (·.map Condition.leftOpen)

/-- Binding changes nothing in grants but the roles of memberships. -/
theorem leftOpen_bind (roles : Option NameSet) (g : ResourceGrants) :
    (g.bind roles).leftOpen = g.leftOpen := by
  rw [leftOpen, leftOpen, bind, mapPermissions_mapPermissions]
  refine congrArg g.mapPermissions (funext fun p => ?_)
  cases p with
  | allow => rfl
  | deny => rfl
  | when condition => exact congrArg Permission.when (condition.leftOpen_bind roles)

/-- What was written of a resource is kept in grants: memberships are bound in it, and entries
    added for relations of the resource of which nothing was written. -/
structure KeptIn (roles : Option NameSet) (r : Resource) (g g' : ResourceGrants) : Prop where
  /-- Nothing but the roles of memberships is changed by binding them. -/
  bound : (g.bind roles).leftOpen = g.leftOpen
  /-- What was written of objects is kept. -/
  object : g'.object = (g.bind roles).object
  /-- What was written of properties is kept. -/
  props : g'.props = (g.bind roles).props
  /-- What was written of relations is kept. -/
  relations : ∀ key, g.relations.contains key = true →
    g'.relations.get? key = (g.bind roles).relations.get? key
  /-- Only relations of the resource are added. -/
  added : ∀ key, g'.relations.contains key = true → g.relations.contains key = false →
    (r.relation? key).isSome = true

end ResourceGrants

namespace Catalogue

/-- Whatever follows for relations and is bound, the grants before are kept. -/
theorem keptIn_bind_withRelationsOf (roles : Option NameSet) (m : GrantMap) (r : Resource)
    (g : ResourceGrants) : g.KeptIn roles r ((withRelationsOf m r g).bind roles) where
  bound := g.leftOpen_bind roles
  object := rfl
  props := rfl
  relations key hkey := by
    simp only [ResourceGrants.bind, ResourceGrants.mapPermissions, SortedMap.get?_mapValues]
    rw [get?_relations_withRelationsOf, if_pos hkey]
  added key hkey hnew := by
    simp only [ResourceGrants.bind, ResourceGrants.mapPermissions,
      SortedMap.contains_mapValues] at hkey
    rw [SortedMap.contains, get?_relations_withRelationsOf, hnew, if_neg Bool.false_ne_true] at hkey
    exact Option.isSome_of_isSome_bind hkey

theorem contains_liveGrants : (c.liveGrants roles raw).contains name =
    (c.beforeRelations raw).contains name := by
  rw [liveGrants, SortedMap.contains_mapValues, withDefaultRelations, SortedMap.contains_mapValues]

/-- Grants for decisions are of what is backed, and of what lists an interface that is. -/
theorem contains_liveGrants_iff (hc : c.Keyed) : (c.liveGrants roles raw).contains name = true ↔
    c.isBacked raw name = true ∨
      ∃ r, c.get? name = some r ∧ ∃ i ∈ r.interfaces, c.isBacked raw i = true := by
  have hknown : ∀ r, c.get? name = some r → ((c.liveGrants roles raw).contains name = true ↔
      c.isBacked raw name = true ∨ ∃ i ∈ r.interfaces, c.isBacked raw i = true) := by
    intro r hr
    obtain rfl := hc name r hr
    rw [contains_liveGrants, contains_beforeRelations hc hr, Bool.or_eq_true, List.any_eq_true]
  cases hsaid : raw.contains name with
  | true =>
    have hbacked : c.isBacked raw name = true := by rw [isBacked, hsaid, Bool.true_or]
    rw [contains_liveGrants]
    exact iff_of_true (contains_beforeRelations_of_written hsaid) (.inl hbacked)
  | false =>
    constructor
    · intro h
      have hname := contains_of_beforeRelations hc (contains_liveGrants.symm.trans h)
      rw [hsaid] at hname
      obtain ⟨r, hr⟩ := Option.isSome_iff_exists.1 (hname.resolve_left Bool.false_ne_true)
      exact ((hknown r hr).1 h).imp_right fun hlisted => ⟨r, hr, hlisted⟩
    · rintro (hbacked | ⟨r, hr, hlisted⟩)
      · obtain ⟨r, hr⟩ := exists_get?_of_isBacked hsaid hbacked
        exact (hknown r hr).2 (.inl hbacked)
      · exact (hknown r hr).2 (.inr hlisted)

/-- What was written of a resource is kept in the grants for decisions. -/
theorem exists_keptIn_liveGrants (hc : c.Keyed) (hr : c.get? r.name = some r)
    (hg : raw.get? r.name = some g) :
    ∃ g', (c.liveGrants roles raw).get? r.name = some g' ∧ g.KeptIn roles r g' := by
  rw [get?_liveGrants roles hr, get?_beforeRelations_of_said hc hr hg]
  exact ⟨_, rfl, keptIn_bind_withRelationsOf roles (c.beforeRelations raw) r g⟩

/-- What is not backed says of objects what the first of its interfaces says that is. -/
theorem exists_object_liveGrants_eq (hc : c.Keyed) (hr : c.get? r.name = some r)
    (hbacked : c.isBacked raw r.name = false)
    (hname : r.interfaces.find? (c.isBacked raw) = some name) :
    ∃ g g', (c.liveGrants roles raw).get? r.name = some g ∧
      (c.liveGrants roles raw).get? name = some g' ∧ g.object = g'.object := by
  obtain ⟨i, hi⟩ := exists_get?_of_mem_interfaces (mem_toList_of_get? hr)
    (List.mem_of_find?_eq_some hname)
  obtain rfl := hc name i hi
  have hcontains : (c.beforeRelations raw).contains i.name = true := by
    rw [contains_beforeRelations hc hi, List.find?_some hname, Bool.true_or]
  obtain ⟨g, hg⟩ := Option.isSome_iff_exists.1 hcontains
  rw [get?_liveGrants roles hr, get?_liveGrants roles hi,
    get?_beforeRelations_of_find? hc hr hbacked hname, hg]
  exact ⟨_, _, rfl, rfl, rfl⟩

/-- What was written of a resource that is not computed is kept in the database, or left to an
    interface. -/
theorem get?_databaseGrants_of_said (hc : c.Keyed) (hr : c.get? r.name = some r)
    (huncomputed : r.calculated = false) (hg : raw.get? r.name = some g) :
    (c.databaseGrants raw).get? r.name = none ∨ (c.databaseGrants raw).get? r.name = some g := by
  have hown : (c.withDefaultImplementations raw).get? r.name = some g := by
    rw [get?_withDefaultImplementations hc hr, hg]
    rfl
  rw [get?_databaseGrants_of_uncomputed hr huncomputed hown]
  split
  · exact .inl rfl
  · exact .inr rfl

end Catalogue

/-! ### Compiled policies -/

variable {ds : List Declaration} {ps : List Policy} {d : Declaration} {p : Policy}

/-- A compiled policy has grants for decisions on just what is backed by what was written, or lists
    an interface that is. What was written of a resource is kept in them; in the database too, if
    the resource is not computed, or else it is left to an interface. What is not backed itself
    says of objects what the first of its interfaces does that is. -/
theorem Policy.extends_written {rs : List Resource} (hc : Catalogue.ofList rs = .ok c)
    (hps : c.compile ds = .ok ps) (hp : (d, p) ∈ ds.zip ps) :
    ∃ raw, d.rawGrants c = .ok raw ∧
      (∀ name, p.live.contains name = true ↔ c.isBacked raw name = true ∨
        ∃ r, c.get? name = some r ∧ ∃ i ∈ r.interfaces, c.isBacked raw i = true) ∧
      (∀ r g, c.get? r.name = some r → raw.get? r.name = some g →
        ∃ g', p.live.get? r.name = some g' ∧ g.KeptIn d.roles r g') ∧
      (∀ r name, c.get? r.name = some r → c.isBacked raw r.name = false →
        r.interfaces.find? (c.isBacked raw) = some name →
        ∃ g g', p.live.get? r.name = some g ∧ p.live.get? name = some g' ∧
          g.object = g'.object) ∧
      ∀ r g, c.get? r.name = some r → r.calculated = false → raw.get? r.name = some g →
        p.database.get? r.name = none ∨ p.database.get? r.name = some g := by
  have hkeyed := Catalogue.keyed_ofList hc
  obtain ⟨raw, hcompiled⟩ := Catalogue.exists_of_compilePolicy
    (List.forall₂_zip (Catalogue.compile_eq_ok_iff.1 hps).2 hp)
  have hraw := hcompiled.written
  refine ⟨raw, hraw, ?_, ?_, ?_, ?_⟩
  · rw [hcompiled.live]
    exact fun name => Catalogue.contains_liveGrants_iff hkeyed
  · rw [hcompiled.live]
    exact fun r g hr hg => Catalogue.exists_keptIn_liveGrants hkeyed hr hg
  · rw [hcompiled.live]
    exact fun r name hr hbacked hname =>
      Catalogue.exists_object_liveGrants_eq hkeyed hr hbacked hname
  · rw [hcompiled.database]
    exact fun r g hr huncomputed hg =>
      Catalogue.get?_databaseGrants_of_said hkeyed hr huncomputed hg

/-! ### Films -/

/-- Media of any sort. -/
def medium : Resource := .ofName "Medium"

/-- Extracts from something. -/
def extract : Resource := .ofName "Extract"

/-- Photos are media. -/
def photo : Resource := { Resource.ofName "Photo" with interfaces := ["Medium"] }

/-- Films are media, and lead to photos. -/
def film : Resource :=
  { (Resource.ofName "Film").withRelation "stills" .list "Photo" with interfaces := ["Medium"] }

/-- Clips are extracts, and films. -/
def clip : Resource :=
  { Resource.ofName "Clip" with interfaces := ["Extract", "Film", "Medium"] }

/-- A catalogue of media. -/
def media : Catalogue :=
  ⟨.ofList [("Medium", medium), ("Extract", extract), ("Photo", photo), ("Film", film),
    ("Clip", clip)], rfl⟩

/-- Curators may see all photos, and the films that they are members of. -/
def curators : Declaration :=
  .ofScripts "curators" (some (.ofList ["curator"]))
    [.resource "Photo" [.grant [.read]], .resource "Film" [.when .membership, .grant [.read]]]

/-- The policy for curators. -/
def curatorsPolicy : Policy :=
  (((media.compile [curators]).toOption.getD []).head?).getD ⟨"", none, ∅, ∅, ∅⟩

/-- The policy for curators has grants on media, of which photos and films are all, and none on
    extracts. Clips take over what is said of films, which are not the first that they list. -/
theorem extends_written_clip : media.compile [curators] = .ok [curatorsPolicy] ∧
    curatorsPolicy.live.contains "Medium" = true ∧
    curatorsPolicy.live.contains "Extract" = false ∧
    ∃ g g', curatorsPolicy.live.get? "Clip" = some g ∧ curatorsPolicy.live.get? "Film" = some g' ∧
      g.object = g'.object ∧
      g.object.get? .read = some (.when (.member (some (.ofList ["curator"])))) := by
  have hc : Catalogue.ofList [medium, extract, photo, film, clip] = .ok media := rfl
  have hps : media.compile [curators] = .ok [curatorsPolicy] := rfl
  obtain ⟨raw, hraw, hextent, _, hfirst, _⟩ := Policy.extends_written hc hps List.mem_cons_self
  have hwritten : curators.rawGrants media = .ok ((curators.rawGrants media).toOption.getD ∅) := rfl
  cases hraw.symm.trans hwritten
  obtain ⟨g, g', hg, hg', hobject⟩ := hfirst clip "Film" rfl rfl rfl
  refine ⟨hps, (hextent "Medium").2 (.inl rfl), ?_, g, g', hg, hg', hobject, ?_⟩
  · rw [← Bool.not_eq_true, hextent "Extract"]
    rintro (hbacked | ⟨r, hr, _, hlisted, _⟩)
    · cases hbacked
    · cases hr
      exact absurd hlisted List.not_mem_nil
  · cases hg
    rfl

end Authorization
