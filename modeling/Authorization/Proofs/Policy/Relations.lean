import Authorization.Proofs.Policy.LiveGrants

/-!
# Relations of which nothing is said

What follows for a relation is what is said of the objects that it leads to
(`Catalogue.followed?_of_new`). So a policy allows on it what it allows on these
objects, if it says anything of the action there. Action by action it falls back,
and where it says nothing there, counts what it says besides of the resource that
the relation is of (`ResourceGrants.besides?`): on the key as a property, or on its
objects. `Policy.holds_on_relation_iff` has both.
-/

namespace Authorization

variable {c : Catalogue} {raw m : GrantMap} {r t : Resource} {g : ResourceGrants} {a : Action}
  {key : String} {rel : Relation}

/-! ### What is said of a key besides -/

namespace ResourceGrants

/-- What is said of an action under a key, but not on the key as a relation. -/
def besides? (g : ResourceGrants) (a : Action) (key : String) : Option Permission :=
  (g.onProp? a key).or (g.object.get? a)

/-- What is said besides counts where nothing is said on the relation. -/
theorem lookup_some (g : ResourceGrants) (r : Resource) (a : Action) (key : String) :
    g.lookup r a (some key) = ((g.onRelation? r a key).or (g.besides? a key)).getD .deny := by
  rw [lookup, Option.bind_some, Option.bind_some, Option.or_assoc, besides?]

theorem lookup_none (g : ResourceGrants) (r : Resource) (a : Action) :
    g.lookup r a none = (g.object.get? a).getD .deny := rfl

end ResourceGrants

/-! ### What follows -/

namespace Catalogue

/-- For a relation of which nothing is said follows what is said of the objects it leads to. -/
theorem followed?_of_new {target : ResourceGrants} (hg : m.get? r.name = some g)
    (hnew : g.relations.contains key = false) (hrel : r.relation? key = some rel)
    (htarget : m.get? rel.target = some target) (ha : rel.cardinality.allows a = true) :
    followed? m r a key = target.object.get? a := by
  rw [followed?, hg, Option.bind_some, hnew, if_neg Bool.false_ne_true, hrel, Option.bind_some,
    defaultRelation?, htarget, Option.map_some, Option.bind_some, SortedMap.get?_filter]
  simp only [ha]
  cases target.object.get? a <;> rfl

variable {roles : Option NameSet} {own target : ResourceGrants}

/-- In the grants for decisions a relation of which nothing was said has what is said of the
    objects it leads to. -/
theorem onRelation?_liveGrants (hc : c.Keyed) (hr : c.get? r.name = some r)
    (hnew : ∀ g, (c.beforeRelations raw).get? r.name = some g → g.relations.contains key = false)
    (hrel : r.relation? key = some rel) (ht : c.get? rel.target = some t)
    (hown : (c.liveGrants roles raw).get? r.name = some own)
    (htarget : (c.liveGrants roles raw).get? t.name = some target)
    (ha : rel.cardinality.allows a = true) :
    own.onRelation? r a key = target.object.get? a := by
  have hname : t.name = rel.target := hc rel.target t ht
  rw [get?_liveGrants roles hr] at hown
  rw [get?_liveGrants roles (hname ▸ ht), hname] at htarget
  obtain ⟨g, hg, rfl⟩ := Option.map_eq_some_iff.1 hown
  obtain ⟨g', hg', rfl⟩ := Option.map_eq_some_iff.1 htarget
  -- Nothing was said on the relation before.
  have hbefore : g.onRelation? r a key = none := by
    rw [ResourceGrants.onRelation?, SortedMap.get?_of_contains_eq_false (hnew g hg), hrel]
    rfl
  rw [ResourceGrants.onRelation?_bind, onRelation?_withRelationsOf hg, hbefore, Option.none_or,
    followed?_of_new hg (hnew g hg) hrel hg' ha, ResourceGrants.get?_object_bind]
  rfl

end Catalogue

/-! ### Compiled policies -/

namespace Policy

variable {ds : List Declaration} {ps : List Policy} {d : Declaration} {p : Policy}
  {own target : ResourceGrants}

/-- On a relation of which nothing was said a compiled policy allows what it allows on the objects
    that the relation leads to; and beyond that, of actions of which it says nothing there, what it
    says besides of the resource that the relation is of. -/
theorem holds_on_relation_iff {rs : List Resource} (hc : Catalogue.ofList rs = .ok c)
    (hps : c.compile ds = .ok ps) (hp : (d, p) ∈ ds.zip ps) (hraw : d.rawGrants c = .ok raw)
    (hr : c.get? r.name = some r)
    (hnew : ∀ g, (c.beforeRelations raw).get? r.name = some g → g.relations.contains key = false)
    (hrel : r.relation? key = some rel) (ht : c.get? rel.target = some t)
    (hown : p.live.get? r.name = some own) (htarget : p.live.get? t.name = some target)
    (ha : rel.cardinality.allows a = true) (s : Session) (o : Option Record) :
    (p.permission r a (some key)).holds s o = .ok true ↔
      (p.permission t a none).holds s o = .ok true ∨
        target.object.get? a = none ∧
          ((own.besides? a key).getD .deny).holds s o = .ok true := by
  have hcompiled := Catalogue.isCompiled_of_mem_zip hps hp hraw
  have hrelation : own.onRelation? r a key = target.object.get? a := by
    rw [hcompiled.live] at hown htarget
    exact Catalogue.onRelation?_liveGrants (Catalogue.keyed_ofList hc) hr hnew hrel ht hown
      htarget ha
  rw [permission, hown, Option.map_some, Option.getD_some, ResourceGrants.lookup_some, hrelation,
    permission, htarget, Option.map_some, Option.getD_some, ResourceGrants.lookup_none]
  cases target.object.get? a with
  | some said => exact ⟨.inl, fun h => h.resolve_right fun h => Option.some_ne_none said h.1⟩
  | none =>
    -- Of objects of which nothing is said, nothing is allowed.
    have hdenied : Permission.deny.holds s o ≠ .ok true := by
      rw [Permission.holds, Ne, Except.ok.injEq]
      exact Bool.false_ne_true
    exact ⟨fun h => .inr ⟨rfl, h⟩, fun h => (h.resolve_left hdenied).2⟩

end Policy

/-! ### Binders -/

/-- Sheets of paper. -/
def sheet : Resource := .ofName "Sheet"

/-- Binders hold sheets. -/
def binder : Resource := (Resource.ofName "Binder").withRelation "sheets" .list "Sheet"

/-- A catalogue of binders and sheets. -/
def binders : Catalogue := ⟨.ofList [("Sheet", sheet), ("Binder", binder)], rfl⟩

/-- Clerks may see and add binders, and see the sheets that they are members of. -/
def clerks : Declaration :=
  .ofScripts "clerks" (some (.ofList ["clerk"]))
    [.resource "Binder" [.grant [.read, .create]],
      .resource "Sheet" [.when .membership, .grant [.read]]]

/-- What the declaration for clerks writes. -/
def clerksWrite : GrantMap := (clerks.rawGrants binders).toOption.getD ∅

/-- The policy for clerks. -/
def clerksPolicy : Policy :=
  (((binders.compile [clerks]).toOption.getD []).head?).getD ⟨"", none, ∅, ∅, ∅⟩

/-- Clerks see a sheet of a binder where they see sheets. -/
theorem holds_on_sheets : binders.compile [clerks] = .ok [clerksPolicy] ∧
    clerksPolicy.live.contains "Binder" = true ∧ clerksPolicy.live.contains "Sheet" = true ∧
    Cardinality.allows .list .read = true ∧
    ∀ s o, (clerksPolicy.permission binder .read (some "sheets")).holds s o = .ok true ↔
      (clerksPolicy.permission sheet .read none).holds s o = .ok true := by
  have hc : Catalogue.ofList [sheet, binder] = .ok binders := rfl
  have hps : binders.compile [clerks] = .ok [clerksPolicy] := rfl
  have hwritten : clerks.rawGrants binders = .ok clerksWrite := rfl
  have hnew : ∀ g, (binders.beforeRelations clerksWrite).get? "Binder" = some g →
      g.relations.contains "sheets" = false := by
    intro g hg
    cases hg
    rfl
  have hread : Cardinality.allows .list .read = true := rfl
  refine ⟨hps, rfl, rfl, hread, fun s o => ?_⟩
  rw [Policy.holds_on_relation_iff (r := binder) (t := sheet) hc hps List.mem_cons_self hwritten rfl
    hnew rfl rfl rfl rfl hread s o]
  exact or_iff_left fun h => Option.some_ne_none _ h.1

/-- Clerks may add sheets to a binder, as they may add binders; sheets they may not add. -/
theorem create_sheets : binders.compile [clerks] = .ok [clerksPolicy] ∧
    clerks.rawGrants binders = .ok clerksWrite ∧
    ((binders.beforeRelations clerksWrite).get? "Binder").map (·.relations.contains "sheets") =
      some false ∧
    binder.relation? "sheets" = some ⟨.list, "Sheet"⟩ ∧ binders.get? "Sheet" = some sheet ∧
    clerksPolicy.live.contains "Binder" = true ∧ clerksPolicy.live.contains "Sheet" = true ∧
    Cardinality.allows .list .create = true ∧
    ∀ s o, (clerksPolicy.permission binder .create (some "sheets")).holds s o = .ok true ∧
      (clerksPolicy.permission sheet .create none).holds s o = .ok false :=
  ⟨rfl, rfl, rfl, rfl, rfl, rfl, rfl, rfl, fun _ _ => ⟨rfl, rfl⟩⟩

end Authorization
