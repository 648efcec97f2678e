import Authorization.Proofs.Policy.Interfaces

/-!
# Grants left to interfaces

In the database, a resource is left to its nearest interface if the grants of
both are the same there. That interface may be left to another one in turn, and
then the first interface in the list of the resource that still has grants
stands for it.

* `nearest?_databaseGrants`: if interfaces are listed *in depth*, each with its
  own right behind it (`ListsInDepth`), then this is one with the same grants,
  however often grants were left to others on the way;
* `id_lookup_databaseGrants`: so the database is told of a resource what its own
  grants say.

If interfaces that have nothing to do with each other are listed in breadth, a
resource may be left to the wrong one (`left_to_another`).
-/

namespace Authorization.Catalogue

variable {c : Catalogue} {raw m : GrantMap} {r i : Resource} {g near : ResourceGrants}
  {name : String}

/-- Whatever a resource lists is in the catalogue. -/
theorem exists_get?_of_mem_interfaces (hr : r ∈ c.toList) (hname : name ∈ r.interfaces) :
    ∃ i, c.get? name = some i := by
  have hknown := List.findSome?_eq_none_iff.1 c.closed r hr
  rw [Option.or_eq_none_iff, unknownInterface?, Option.map_eq_none_iff, List.find?_eq_none]
    at hknown
  have hcontains : c.resources.contains name = true := by simpa using hknown.1 name hname
  exact Option.isSome_iff_exists.1 hcontains

/-- Whether each interface in a list has its own right behind it, but for those that were listed
    before. -/
def listedInDepth (c : Catalogue) (before : List String) : List String → Bool
  | [] => true
  | name :: after =>
    ((c.get? name).all fun i => (i.interfaces.filter (!before.contains ·)).isPrefixOf after) &&
      c.listedInDepth (before ++ [name]) after

theorem isPrefix_of_listedInDepth {before listed after : List String}
    (h : c.listedInDepth before (listed ++ name :: after) = true) (hi : c.get? name = some i) :
    i.interfaces.filter (!(before ++ listed).contains ·) <+: after := by
  induction listed generalizing before with
  | nil =>
    rw [List.nil_append, listedInDepth, hi, Bool.and_eq_true] at h
    rw [List.append_nil]
    exact List.isPrefixOf_iff_prefix.1 h.1
  | cons first listed ih =>
    rw [List.cons_append, listedInDepth, Bool.and_eq_true] at h
    rw [List.append_cons]
    exact ih h.2

/-- A resource lists interfaces in depth: each with its own right behind it. -/
def ListsInDepth (c : Catalogue) (r : Resource) : Prop := c.listedInDepth [] r.interfaces = true

instance : Decidable (c.ListsInDepth r) := inferInstanceAs (Decidable (_ = _))

theorem ListsInDepth.isPrefix (h : c.ListsInDepth r) {before after : List String}
    (hsplit : r.interfaces = before ++ name :: after) (hi : c.get? name = some i) :
    i.interfaces.filter (!before.contains ·) <+: after := by
  rw [ListsInDepth, hsplit] at h
  exact isPrefix_of_listedInDepth h hi

/-- A resource and its interfaces list interfaces in depth. -/
def InDepth (c : Catalogue) (r : Resource) : Prop :=
  ∀ q ∈ c.toList, q.name = r.name ∨ q.name ∈ r.interfaces → c.ListsInDepth q

instance : Decidable (c.InDepth r) :=
  inferInstanceAs (Decidable (∀ q ∈ c.toList, q.name = r.name ∨ q.name ∈ r.interfaces →
    c.ListsInDepth q))

/-- What an interface lists, a resource that lists it does as well. -/
theorem ListsInDepth.subset (h : c.ListsInDepth r) (hname : name ∈ r.interfaces)
    (hi : c.get? name = some i) : i.interfaces ⊆ r.interfaces := by
  intro n hn
  obtain ⟨before, after, hsplit⟩ := List.append_of_mem hname
  rw [hsplit, List.mem_append]
  by_cases hbefore : n ∈ before
  · exact .inl hbefore
  · have hkept : n ∈ i.interfaces.filter (!before.contains ·) := by simp [hn, hbefore]
    exact .inr (List.mem_cons_of_mem _ ((h.isPrefix hsplit hi).subset hkept))

theorem InDepth.of_mem (h : c.InDepth r) (hr : r ∈ c.toList) (hname : i.name ∈ r.interfaces)
    (hi : c.get? i.name = some i) : c.InDepth i := by
  have hsub := (h r hr (.inl rfl)).subset hname hi
  refine fun q hq hlisted => h q hq (.inr ?_)
  rcases hlisted with heq | hmem
  · exact heq ▸ hname
  · exact hsub hmem

/-! ### What is nearest -/

/-- Where nothing is said of the names that are left out, they do not matter. -/
theorem findSome?_filter {f : String → Option ResourceGrants} {p : String → Bool}
    {names : List String} (h : ∀ n, p n = false → f n = none) :
    (names.filter p).findSome? f = names.findSome? f := by
  induction names with
  | nil => rfl
  | cons n names ih =>
    cases hp : p n with
    | true => rw [List.filter_cons_of_pos hp, List.findSome?_cons, List.findSome?_cons, ih]
    | false =>
      rw [List.filter_cons_of_neg (by simp [hp]), List.findSome?_cons, h n hp, ih]

/-- The interfaces that something is said of. -/
def saidOf (m : GrantMap) (r : Resource) : List String := r.interfaces.filter m.contains

/-- Of those that something is said of, the nearest comes first. -/
theorem saidOf_eq_cons {before after : List String}
    (hsplit : r.interfaces = before ++ name :: after) (hbefore : ∀ n ∈ before, m.get? n = none)
    (hsaid : m.get? name = some near) : saidOf m r = name :: after.filter m.contains := by
  have hnone : before.filter m.contains = [] := by
    refine List.filter_eq_nil_iff.2 fun n hn => ?_
    rw [SortedMap.contains, hbefore n hn]
    exact Bool.false_ne_true
  have hname : m.contains name = true := by rw [SortedMap.contains, hsaid]; rfl
  rw [saidOf, hsplit, List.filter_append, hnone, List.nil_append, List.filter_cons_of_pos hname]

/-- The nearest interface that something is said of has fewer such interfaces itself. -/
theorem length_saidOf_lt (hdepth : c.ListsInDepth r) {before after : List String}
    (hsplit : r.interfaces = before ++ name :: after) (hbefore : ∀ n ∈ before, m.get? n = none)
    (hsaid : m.get? name = some near) (hi : c.get? name = some i) :
    (saidOf m i).length < (saidOf m r).length := by
  -- Of those that were listed before nothing is said, so leaving them out does not matter.
  have hkept : (i.interfaces.filter (!before.contains ·)).filter m.contains = saidOf m i := by
    rw [List.filter_filter, saidOf]
    refine List.filter_congr fun n _ => ?_
    by_cases hn : n ∈ before
    · simp [SortedMap.contains, hbefore n hn]
    · simp [hn]
  have hprefix := (hdepth.isPrefix hsplit hi).filter m.contains
  rw [hkept] at hprefix
  calc (saidOf m i).length ≤ (after.filter m.contains).length := hprefix.length_le
    _ < (name :: after.filter m.contains).length := Nat.lt_succ_self _
    _ = (saidOf m r).length := by rw [saidOf_eq_cons hsplit hbefore hsaid]

/-- If what is nearest to an interface is nearest to a resource that lists it in depth. -/
theorem nearest?_of_listsInDepth (hdepth : c.ListsInDepth r) {before after : List String}
    (hsplit : r.interfaces = before ++ name :: after) (hbefore : ∀ n ∈ before, m.get? n = none)
    (hnone : m.get? name = none) (hi : c.get? name = some i) (hnear : nearest? m i = some near) :
    nearest? m r = some near := by
  have hfilter : (i.interfaces.filter (!before.contains ·)).findSome? m.get? = some near := by
    rw [findSome?_filter, ← hnear, nearest?]
    exact fun n hn => hbefore n (by simpa using hn)
  obtain ⟨rest, hrest⟩ := hdepth.isPrefix hsplit hi
  rw [nearest?, hsplit, List.findSome?_append, List.findSome?_eq_none_iff.2 hbefore,
    Option.none_or, List.findSome?_cons, hnone, ← hrest, List.findSome?_append, hfilter]
  rfl

theorem sameInDatabase_iff {g h : ResourceGrants} : sameInDatabase g h = true ↔
    ∀ a ∈ databaseActions, (g.object.get? a).map (·.id) = (h.object.get? a).map (·.id) := by
  simp [sameInDatabase]

theorem sameInDatabase_trans {g h k : ResourceGrants} (hgh : sameInDatabase g h = true)
    (hhk : sameInDatabase h k = true) : sameInDatabase g k = true :=
  sameInDatabase_iff.2 fun a ha =>
    (sameInDatabase_iff.1 hgh a ha).trans (sameInDatabase_iff.1 hhk a ha)

/-! ### What stands for a resource -/

/-- Grants that are said of an uncomputed resource are left to its interfaces or kept as they
    are. -/
theorem get?_databaseGrants_of_uncomputed (hi : c.get? i.name = some i)
    (huncomputed : i.calculated = false)
    (hg : (c.withDefaultImplementations raw).get? i.name = some g) :
    (c.databaseGrants raw).get? i.name =
      if isRedundant (c.withDefaultImplementations raw) i g then none else some g := by
  rw [get?_databaseGrants hi, hg, huncomputed, Option.filter_some]
  cases isRedundant (c.withDefaultImplementations raw) i g <;> rfl

/-- What a resource is left to has the same grants in the database, if its nearest interface is
    not left to another one, or if interfaces are listed in depth. -/
theorem nearest?_databaseGrants (hc : c.Keyed) (hr : r ∈ c.toList)
    (hdepth : (∀ name, (saidOf (c.withDefaultImplementations raw) r).head? = some name →
      (c.databaseGrants raw).contains name = false) → c.InDepth r)
    (huncomputed : ∀ i ∈ c.toList, i.name ∈ r.interfaces → i.calculated = false)
    (hredundant : isRedundant (c.withDefaultImplementations raw) r g = true) :
    ∃ g', nearest? (c.databaseGrants raw) r = some g' ∧ sameInDatabase g g' = true := by
  -- The nearest interface has fewer interfaces of which something is said.
  induction hn : (saidOf (c.withDefaultImplementations raw) r).length using
    Nat.strong_induction_on generalizing r g with
  | _ n ih =>
    obtain ⟨near, hnear, hsame⟩ := (Option.any_eq_true _ _).1 hredundant
    obtain ⟨before, name, after, hsplit, hsaid, hbefore⟩ := List.findSome?_eq_some_iff.1 hnear
    have hname : name ∈ r.interfaces := hsplit ▸ List.mem_append_right _ List.mem_cons_self
    obtain ⟨i, hi⟩ := exists_get?_of_mem_interfaces hr hname
    obtain rfl := hc name i hi
    have hkept := get?_databaseGrants_of_uncomputed hi
      (huncomputed i (mem_toList_of_get? hi) hname) hsaid
    -- What nothing was said of before, has no grants in the database either.
    have hbefore' : ∀ n ∈ before, (c.databaseGrants raw).get? n = none := fun n hn =>
      get?_databaseGrants_eq_none (hbefore n hn)
    cases hleft : isRedundant (c.withDefaultImplementations raw) i near with
    | false =>
      rw [hleft, if_neg Bool.false_ne_true] at hkept
      exact ⟨near, List.findSome?_eq_some_iff.2 ⟨before, i.name, after, hsplit, hkept, hbefore'⟩,
        hsame⟩
    | true =>
      rw [hleft, if_pos rfl] at hkept
      have hdepth : c.InDepth r := hdepth fun name hhead => by
        rw [saidOf_eq_cons hsplit hbefore hsaid, List.head?_cons, Option.some.injEq] at hhead
        rw [← hhead, SortedMap.contains, hkept]
        rfl
      have hlists := hdepth r hr (.inl rfl)
      obtain ⟨g', hg', hsame'⟩ := ih _ (hn ▸ length_saidOf_lt hlists hsplit hbefore hsaid hi)
        (mem_toList_of_get? hi) (fun _ => hdepth.of_mem hr hname hi)
        (fun j hj hmem => huncomputed j hj (hlists.subset hname hi hmem)) hleft rfl
      exact ⟨g', nearest?_of_listsInDepth hlists hsplit hbefore' hkept hi hg',
        sameInDatabase_trans hsame hsame'⟩

theorem id_lookup_of_sameInDatabase {g g' : ResourceGrants} (h : sameInDatabase g g' = true)
    {a : Action} (ha : a ∈ databaseActions) (r : Resource) :
    (g'.lookup r a none).id = (g.lookup r a none).id := by
  -- Where nothing is said, the id is that of a denial.
  have hid : ∀ k : ResourceGrants, (k.lookup r a none).id =
      ((k.object.get? a).map (·.id)).getD Permission.deny.id := by
    intro k
    rw [ResourceGrants.lookup]
    cases k.object.get? a <;> rfl
  rw [hid, hid, sameInDatabase_iff.1 h a ha]

variable {ds : List Declaration} {ps : List Policy} {d : Declaration} {p : Policy}

/-- What a policy says of a resource in the database, in grants of its own or those of an interface
    that it was left to, has the ids of what is said of the resource before anything is left to
    interfaces. Nothing here may be computed; and if the nearest interface is left to another one
    as well as the resource, interfaces have to be listed in depth. -/
theorem id_lookup_databaseGrants {rs : List Resource} (hc : ofList rs = .ok c)
    (hps : c.compile ds = .ok ps) (hp : (d, p) ∈ ds.zip ps) (hraw : d.rawGrants c = .ok raw)
    (hr : c.get? r.name = some r) (hcomputed : r.calculated = false)
    (habove : ∀ i ∈ c.toList, i.name ∈ r.interfaces → i.calculated = false)
    (hdepth : p.database.contains r.name = false →
      (∀ name, (saidOf (c.withDefaultImplementations raw) r).head? = some name →
        p.database.contains name = false) → c.InDepth r)
    (hg : (c.withDefaultImplementations raw).get? r.name = some g) {a : Action}
    (ha : a ∈ databaseActions) :
    ∃ g', p.databaseGrants? r = some g' ∧ (g'.lookup r a none).id = (g.lookup r a none).id := by
  have hkeyed := keyed_ofList hc
  have hdatabase := (isCompiled_of_mem_zip hps hp hraw).database
  have hown := get?_databaseGrants_of_uncomputed hr hcomputed hg
  rw [Policy.databaseGrants?, hdatabase, hown]
  rw [hdatabase, SortedMap.contains, hown] at hdepth
  cases hredundant : isRedundant (c.withDefaultImplementations raw) r g with
  | false => exact ⟨g, rfl, rfl⟩
  | true =>
    rw [hredundant] at hdepth
    obtain ⟨g', hg', hsame⟩ := nearest?_databaseGrants hkeyed (mem_toList_of_get? hr) (hdepth rfl)
      habove hredundant
    exact ⟨g', hg', id_lookup_of_sameInDatabase hsame ha r⟩

/-! ### Posts -/

/-- Pages of a site. -/
def page : Resource := .ofName "Page"

/-- Articles are pages. -/
def article : Resource := { Resource.ofName "Article" with interfaces := ["Page"] }

/-- Entries of a listing. -/
def listing : Resource := .ofName "Listing"

/-- Posts are articles, and entries of a listing. Their interfaces are listed in depth. -/
def post : Resource :=
  { Resource.ofName "Post" with interfaces := ["Article", "Page", "Listing"] }

/-- Posts whose interfaces are listed in breadth: listings are nearer than pages. -/
def broadPost : Resource :=
  { Resource.ofName "Post" with interfaces := ["Article", "Listing", "Page"] }

/-- A site with posts. -/
def site : Catalogue :=
  ⟨.ofList [("Page", page), ("Article", article), ("Listing", listing), ("Post", post)], rfl⟩

/-- A site with posts whose interfaces are listed in breadth. -/
def broadSite : Catalogue :=
  ⟨.ofList [("Page", page), ("Article", article), ("Listing", listing), ("Post", broadPost)], rfl⟩

/-- Listings can be read by everyone; pages, articles and posts only by their authors. -/
def readers : Declaration :=
  .ofScripts "readers" none <|
    .resource "Listing" [.grant [.read]] ::
      ["Page", "Article", "Post"].map (.resource · [.when (.owner "author"), .grant [.read]])

/-- What the policy says of a site. -/
def readersRaw (c : Catalogue) : GrantMap := (readers.rawGrants c).toOption.getD ∅

/-- The policy for readers of a site. -/
def readersPolicy (c : Catalogue) : Policy :=
  (((c.compile [readers]).toOption.getD []).head?).getD ⟨"", none, ∅, ∅, ∅⟩

/-- Posts are left to articles, and these to pages. Where pages are listed right behind articles,
    they stand for posts, which can be read by their authors alone. -/
theorem id_lookup_post : (site.withDefaultImplementations (readersRaw site)).get? "Post" ≠ none ∧
    (readersPolicy site).database.contains "Post" = false ∧
    (readersPolicy site).database.contains "Article" = false ∧
    ∃ g', (readersPolicy site).databaseGrants? post = some g' ∧
      (g'.lookup post .read none).id = (Permission.when (.owner "author")).id := by
  have hc : ofList [page, article, listing, post] = .ok site := rfl
  have hps : site.compile [readers] = .ok [readersPolicy site] := rfl
  have hraw : readers.rawGrants site = .ok (readersRaw site) := rfl
  obtain ⟨g', hg', hid⟩ := id_lookup_databaseGrants hc hps List.mem_cons_self hraw
    (r := post) rfl rfl (by decide) (fun _ _ => by decide) rfl
    (a := .read) List.mem_cons_self
  exact ⟨nofun, rfl, rfl, g', hg', hid⟩

/-- Where listings come before pages, these stand for posts instead, and everyone can read
    posts. -/
theorem left_to_another :
    ofList [page, article, listing, broadPost] = .ok broadSite ∧
      broadSite.compile [readers] = .ok [readersPolicy broadSite] ∧
      readers.rawGrants broadSite = .ok (readersRaw broadSite) ∧
      broadSite.get? "Post" = some broadPost ∧
      (∀ r ∈ broadSite.toList, r.calculated = false) ∧
      ∃ g g', (broadSite.withDefaultImplementations (readersRaw broadSite)).get? "Post" = some g ∧
        (readersPolicy broadSite).databaseGrants? broadPost = some g' ∧
        g.lookup broadPost .read none = .when (.owner "author") ∧
        g'.lookup broadPost .read none = .allow ∧
        (g'.lookup broadPost .read none).id ≠ (g.lookup broadPost .read none).id := by
  refine ⟨rfl, rfl, rfl, rfl, by decide, _, _, rfl, rfl, rfl, rfl, ?_⟩
  exact (Condition.id_ne_true (.owner "author")).symm

end Authorization.Catalogue
