import Authorization.Proofs.Engine.Answers
import Authorization.Proofs.Policy.Powers
import Authorization.Proofs.Resolution.Monotonicity

/-!
# Powers and what is resolved

Objects of a resource may be created without condition just where creating them
means anything, and what was written for some policy that applies to the session
lets create them. A session that has the power has it from a policy that applies
to it, and what was written for that policy does let create them if it is about
the resource, or else along a chain, unless the implementations of the resource
back it (`Engine.resolve_of_hasPower`). Otherwise it may have a power that stands
for nothing (`Engine.power_without_grant`).
-/

namespace Authorization

theorem Permission.mergeAcross_eq_allow {ps : List Permission} :
    mergeAcross ps = .allow ↔ .allow ∈ ps := by
  rw [mergeAcross]
  cases hallow : ps.any isAllow with
  | true =>
    obtain ⟨p, hp, hisAllow⟩ := List.any_eq_true.1 hallow
    exact iff_of_true (if_pos rfl) (eq_allow_of_isAllow hisAllow ▸ hp)
  | false =>
    refine iff_of_false ?_ fun hp => List.any_eq_false.1 hallow _ hp rfl
    rw [if_neg Bool.false_ne_true]
    cases ps.filterMap condition? with
    | nil => exact Permission.noConfusion
    | cons c cs => exact Permission.noConfusion

namespace Executor

variable {x : Executor} {ps : List Policy} {s : Session} {power : Power}

/-- A session has a power if a policy that applies to it has. -/
theorem hasPower_eq_true (hps : x.policies = some ps) : x.hasPower s power = .ok true ↔
    ∃ p ∈ ps, p.appliesTo s = true ∧ power ∈ p.powers := by
  obtain ⟨powers, hpowers, hmem⟩ := exists_powers hps s
  have hhas : x.hasPower s power = .ok (powers.contains power) := by
    rw [hasPower, hpowers]
    rfl
  rw [hhas, Except.ok.injEq, SortedSet.contains_eq_true, hmem]

end Executor

namespace Engine

variable {rs : List Resource} {e : Engine} {ds : List Declaration} {ps : List Policy}
  {s : Session} {r : Resource}

/-- What is resolved of creating objects of a resource is an allowance just where the resource is
    not computed, and a policy that applies allows it without condition. -/
theorem resolve_create (he : e.Reachable) (hps : e.executor.policies = some ps)
    (hr : e.executor.catalogue.get? r.name = some r) (optimized : Bool) :
    (e.run (resolve s .create r.name none optimized)).1 = .ok .allow ↔ r.calculated = false ∧
      ∃ p ∈ ps, p.appliesTo s = true ∧ p.permission r .create none = .allow := by
  have hcalculated : (r.isCalculated none && Action.create != .read) = r.calculated := by
    rw [Resource.isCalculated]
    cases r.calculated <;> rfl
  have hanswer : (e.run (resolve s .create r.name none optimized)).1 = .ok .allow ↔
      (if r.calculated then .deny else Executor.merged ps s r .create none) = .allow := by
    rw [(run_resolve he.faithful).1, Executor.answer_of_compiled hps hr, Except.ok.injEq,
      hcalculated]
    cases optimized with
    | false => rfl
    | true => exact Permission.map_eq_allow
  rw [hanswer]
  cases r.calculated with
  | true => exact iff_of_false Permission.noConfusion fun h => Bool.noConfusion h.1
  | false =>
    rw [if_neg Bool.false_ne_true, Executor.merged, Permission.mergeAcross_eq_allow, List.mem_map]
    simp only [List.mem_filter, and_assoc, true_and]

/-- A session that has the power to create objects of a resource has it from a policy that applies
    to it. Such a policy lets create them if something was written of the resource, or else the
    resource is in a chain and not backed by its implementations. And they may be created, without
    condition, just where the resource is not computed, and some policy that applies to the session
    lets create them. -/
theorem resolve_of_hasPower (he : e.Reachable)
    (hc : Catalogue.ofList rs = .ok e.executor.catalogue) (hps : e.executor.policies = some ps)
    (hcompile : e.executor.catalogue.compile ds = .ok ps)
    (hr : e.executor.catalogue.get? r.name = some r)
    (hpower : e.executor.hasPower s ⟨r.name⟩ = .ok true) :
    (∃ p ∈ ps, p.appliesTo s = true ∧ ⟨r.name⟩ ∈ p.powers) ∧
      (∀ d ∈ ds, ∀ p raw, e.executor.catalogue.compilePolicy d = .ok p →
        d.rawGrants e.executor.catalogue = .ok raw → ⟨r.name⟩ ∈ p.powers →
        raw.contains r.name = true ∨
          e.executor.catalogue.isBacked raw r.name = false ∧ e.executor.catalogue.Chain r →
        e.executor.catalogue.LetsCreate raw r) ∧
      ∀ optimized, (e.run (resolve s .create r.name none optimized)).1 = .ok .allow ↔
        r.calculated = false ∧ ∃ d ∈ ds, ∃ p raw, e.executor.catalogue.compilePolicy d = .ok p ∧
          d.rawGrants e.executor.catalogue = .ok raw ∧ p.appliesTo s = true ∧
            e.executor.catalogue.LetsCreate raw r := by
  have hkeyed := Catalogue.keyed_ofList hc
  refine ⟨(Executor.hasPower_eq_true hps).1 hpower, ?_, fun optimized => ?_⟩
  · intro d _ p raw hp hraw hpower hline
    exact Policy.letsCreate_of_mem_powers hp hraw hkeyed hr hpower hline
  · rw [resolve_create he hps hr optimized]
    refine and_congr_right fun _ => ?_
    constructor
    · rintro ⟨p, hp, happlies, hallow⟩
      obtain ⟨d, hd, hpolicy⟩ := (Catalogue.mem_of_compile hcompile).1 hp
      obtain ⟨raw, hcompiled⟩ := Catalogue.exists_of_compilePolicy hpolicy
      exact ⟨d, hd, p, raw, hpolicy, hcompiled.written, happlies,
        (hcompiled.permission_create hkeyed hr).1 hallow⟩
    · rintro ⟨d, hd, p, raw, hpolicy, hraw, happlies, hcreate⟩
      obtain ⟨raw', hcompiled⟩ := Catalogue.exists_of_compilePolicy hpolicy
      cases hcompiled.written.symm.trans hraw
      exact ⟨p, (Catalogue.mem_of_compile hcompile).2 ⟨d, hd, hpolicy⟩, happlies,
        (hcompiled.permission_create hkeyed hr).2 hcreate⟩

/-! ### Entries -/

/-- Entries. -/
def entry : Resource := .ofName "Entry"

/-- Documents are entries. -/
def document : Resource := { Resource.ofName "Document" with interfaces := ["Entry"] }

/-- Memos are documents. -/
def memo : Resource := { Resource.ofName "Memo" with interfaces := ["Document", "Entry"] }

/-- A catalogue of entries, documents and memos. -/
def entries : Catalogue :=
  ⟨.ofList [("Entry", entry), ("Document", document), ("Memo", memo)], rfl⟩

/-- Editors may create entries. -/
def editorsCreate : Declaration :=
  .ofScripts "editors" (some (.ofList ["editor"])) [.resource "Entry" [.grant [.create]]]

/-- An engine for entries. -/
def editing : Engine := ((ofSettings entries .usual).run (compile [editorsCreate])).2

/-- A session of an editor. -/
def editor : Session := (Session.ofUser ⟨5⟩).withRoles ["editor"]

/-- The policies on entries. -/
def entryPolicies : List Policy := (entries.compile [editorsCreate]).toOption.getD []

/-- Memos have no implementations, and are at the end of a chain. -/
theorem chain_memo : entries.Chain memo :=
  .beneath (i := document) rfl (.beneath (i := entry) rfl (.top rfl) rfl) rfl

/-- Editors have the power to create memos, as they may create entries; and they may create
    memos. -/
theorem memo_created : editing.Reachable ∧ editing.executor.policies = some entryPolicies ∧
    memo.calculated = false ∧ editing.executor.hasPower editor ⟨"Memo"⟩ = .ok true ∧
    ∀ optimized, (editing.run (resolve editor .create "Memo" none optimized)).1 = .ok .allow := by
  have hreachable : editing.Reachable := .compile _ (.new _ _)
  have hc : Catalogue.ofList [entry, document, memo] = .ok editing.executor.catalogue := rfl
  have hps : editing.executor.policies = some entryPolicies := rfl
  have hcompile : editing.executor.catalogue.compile [editorsCreate] = .ok entryPolicies := rfl
  have hmemo : editing.executor.catalogue.get? memo.name = some memo := rfl
  have hpower : editing.executor.hasPower editor ⟨memo.name⟩ = .ok true := rfl
  have hraw : editorsCreate.rawGrants editing.executor.catalogue =
      .ok ((editorsCreate.rawGrants entries).toOption.getD ∅) := rfl
  obtain ⟨⟨p, hp, happlies, hgives⟩, hlets, hresolve⟩ :=
    resolve_of_hasPower hreachable hc hps hcompile hmemo hpower
  obtain ⟨d, hd, hpolicy⟩ := (Catalogue.mem_of_compile hcompile).1 hp
  cases List.mem_singleton.1 hd
  refine ⟨hreachable, hps, rfl, hpower, fun optimized => (hresolve optimized).2 ⟨rfl, ?_⟩⟩
  exact ⟨_, hd, p, _, hpolicy, hraw, happlies,
    hlets _ hd p _ hpolicy hraw hgives (.inr ⟨rfl, chain_memo⟩)⟩

/-- Statistics are computed. -/
def statistics : Resource := { Resource.ofName "Statistics" with calculated := true }

/-- Posts are articles, and listed. -/
def post : Resource := { Resource.ofName "Post" with interfaces := ["Article", "Listing"] }

/-- Teasers are posts, which is all that they list. -/
def teaser : Resource := { Resource.ofName "Teaser" with interfaces := ["Post"] }

/-- Entries and posts. -/
def publicationResources : List Resource :=
  [entry, document, memo, .ofName "Article", .ofName "Listing", post, teaser, statistics]

/-- A catalogue of entries and posts. -/
def publications : Catalogue := ⟨.ofList (publicationResources.map fun r => (r.name, r)), rfl⟩

/-- Editors may create statistics, entries and listings, and read memos and articles. -/
def editorsPublish : Declaration :=
  .ofScripts "editors" (some (.ofList ["editor"]))
    [.resource "Statistics" [.grant [.create]], .resource "Entry" [.grant [.create]],
      .resource "Memo" [.grant [.read]], .resource "Article" [.grant [.read]],
      .resource "Listing" [.grant [.create]]]

/-- An engine for entries and posts. -/
def publishing : Engine := ((ofSettings publications .usual).run (compile [editorsPublish])).2

/-- Powers that stand for nothing: on what is computed, on an interface whose implementations allow
    less, on what has a nearer interface, and on what does not list all its interfaces. -/
theorem power_without_grant : Catalogue.ofList publicationResources = .ok publications ∧
    publishing.Reachable ∧ publishing.executor.isCompiled = true ∧
    ∀ name ∈ ["Statistics", "Document", "Post", "Teaser"],
      publishing.executor.hasPower editor ⟨name⟩ = .ok true ∧ ∀ optimized,
        (publishing.run (resolve editor .create name none optimized)).1 = .ok .deny := by
  refine ⟨rfl, .compile _ (.new _ _), rfl, ?_⟩
  simp only [List.forall_mem_cons]
  refine ⟨⟨rfl, ?_⟩, ⟨rfl, ?_⟩, ⟨rfl, ?_⟩, ⟨rfl, ?_⟩, nofun⟩
  all_goals
    intro optimized
    cases optimized <;> rfl

end Engine

end Authorization
