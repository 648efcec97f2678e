import Authorization.Proofs.Grant.Reordering
import Authorization.Proofs.Policy.Alike
import Authorization.Proofs.Policy.Compilation

/-!
# Declarations in another order

A declaration may give its grants in another order (`Declaration.Reordered`).
What the grants come to is alike then, resource by resource
(`GrantMap.alike_ofGrants`), and so is the compiled policy
(`Declaration.Reordered.exists_policy`).
-/

namespace Authorization

/-! ### What grants come to -/

theorem Decisions.get?_ofEntries_eq (es : Entries) (a : Action) : (ofEntries es).get? a =
    if es.any (·.1 == a) then some (.mergeWithin (permissionsFor a es)) else none := by
  refine (SortedMap.get?_insertAll_of_iff fun p => ?_).trans Option.or_none
  rw [List.mem_map]
  constructor
  · rintro ⟨e, he, heq⟩
    cases heq
    have hany : es.any (·.1 == e.1) = true := List.any_eq_true.2 ⟨e, he, beq_self_eq_true e.1⟩
    rw [if_pos hany]
  · intro h
    split at h
    · rename_i hany
      obtain ⟨e, he, ha⟩ := List.any_eq_true.1 hany
      cases beq_iff_eq.1 ha
      cases h
      exact ⟨e, he, rfl⟩
    · cases h

/-- What entries come to is alike in whatever order they are. -/
theorem Decisions.alike_ofEntries {es fs : Entries} (h : es.Perm fs) :
    Decisions.Alike (ofEntries es) (ofEntries fs) := by
  intro a
  rw [get?_ofEntries_eq, get?_ofEntries_eq, h.any_eq]
  split
  · exact .some (Permission.alike_mergeWithin ((h.filter _).map Prod.snd))
  · exact .none

theorem ResourceGrants.alike_ofGrant {g h : Grant} (hgh : g.Reordered h) :
    (ofGrant g).Alike (ofGrant h) where
  object := Decisions.alike_ofEntries hgh.object
  props := hgh.props.mapValues fun _ _ _ => Decisions.alike_ofEntries
  relations := hgh.relations.mapValues fun _ _ _ => Decisions.alike_ofEntries

/-- What grants come to is alike in whatever order they are. -/
theorem GrantMap.alike_ofGrants {gs hs : List Grant} (h : gs.Perm hs) :
    GrantMap.Alike (ofGrants gs) (ofGrants hs) :=
  (agree_collect h).mapValues fun _ _ _ => ResourceGrants.alike_ofGrant

/-! ### Declarations -/

variable {c : Catalogue} {d d' : Declaration} {p q : Policy}

/-- A declaration of the same grants in another order. -/
structure Declaration.Reordered (c : Catalogue) (d d' : Declaration) : Prop where
  /-- It has the same name. -/
  name : d.name = d'.name
  /-- It is for the same roles. -/
  roles : d.roles = d'.roles
  /-- It gives the same grants, in another order. -/
  grants : ∃ gs gs', d.grants c = .ok gs ∧ d'.grants c = .ok gs' ∧ gs.Perm gs'

/-- Scripts write the same grants in whatever order they are run. -/
theorem Script.exists_allGrants_of_perm {scripts scripts' : List Script}
    (h : scripts.Perm scripts') {gs : List Grant} (hgs : allGrants c scripts = .ok gs) :
    ∃ gs', allGrants c scripts' = .ok gs' ∧ gs.Perm gs' := by
  induction h generalizing gs with
  | nil => exact ⟨gs, hgs, .refl gs⟩
  | cons script _ ih =>
    obtain ⟨first, hfirst, hgs⟩ := exists_of_bind_eq_ok hgs
    obtain ⟨rest, hrest, hgs⟩ := exists_of_bind_eq_ok hgs
    cases hgs
    obtain ⟨rest', hrest', hperm⟩ := ih hrest
    exact ⟨first ++ rest', by rw [allGrants, hfirst, hrest']; rfl, hperm.append_left first⟩
  | swap script script' =>
    obtain ⟨first, hfirst, hgs⟩ := exists_of_bind_eq_ok hgs
    obtain ⟨others, hothers, hgs⟩ := exists_of_bind_eq_ok hgs
    obtain ⟨second, hsecond, hothers⟩ := exists_of_bind_eq_ok hothers
    obtain ⟨rest, hrest, hothers⟩ := exists_of_bind_eq_ok hothers
    cases hothers
    cases hgs
    refine ⟨second ++ (first ++ rest), ?_, ?_⟩
    · rw [allGrants, hsecond, allGrants, hfirst, hrest]
      rfl
    · rw [← List.append_assoc, ← List.append_assoc]
      exact List.perm_append_comm.append_right rest
  | trans _ _ ih ih' =>
    obtain ⟨gs', hgs', hperm⟩ := ih hgs
    obtain ⟨gs'', hgs'', hperm'⟩ := ih' hgs'
    exact ⟨gs'', hgs'', hperm.trans hperm'⟩

/-- Scripts can be run in any order. -/
theorem Declaration.reordered_of_perm (name : String) (roles : Option NameSet)
    {scripts scripts' : List Script} (hscripts : scripts.Perm scripts') {gs : List Grant}
    (hgs : Script.allGrants c scripts = .ok gs) :
    (ofScripts name roles scripts).Reordered c (ofScripts name roles scripts') := by
  obtain ⟨gs', hgs', hperm⟩ := Script.exists_allGrants_of_perm hscripts hgs
  exact ⟨rfl, rfl, gs, gs', hgs, hgs', hperm⟩

/-- Policies for the same roles that say alike of the same. -/
structure Policy.Alike (p q : Policy) : Prop where
  /-- The roles that they are for. -/
  roles : p.roles = q.roles
  /-- The powers that come with them. -/
  powers : p.powers = q.powers
  /-- The grants for decisions. -/
  live : GrantMap.Alike p.live q.live
  /-- The grants for the database. -/
  database : GrantMap.Alike p.database q.database

namespace Declaration.Reordered

/-- Grants in another order have the same faults, and come to what is alike. -/
theorem exists_rawGrants (h : d.Reordered c d') {raw : GrantMap} (hraw : d.rawGrants c = .ok raw) :
    ∃ raw', d'.rawGrants c = .ok raw' ∧ GrantMap.Alike raw raw' := by
  obtain ⟨gs, gs', hgs, hgs', hperm⟩ := h.grants
  obtain ⟨written, hwritten, hraw⟩ := exists_of_bind_eq_ok hraw
  cases hgs.symm.trans hwritten
  split at hraw
  · cases hraw
  · rename_i hfaults
    cases hraw
    have hfaults' : gs'.findSome? (Grant.fault? d'.name) = none := by
      rw [List.findSome?_eq_none_iff] at hfaults ⊢
      exact fun g hg => h.name ▸ hfaults g (hperm.mem_iff.2 hg)
    refine ⟨GrantMap.ofGrants gs', ?_, GrantMap.alike_ofGrants hperm⟩
    simp only [rawGrants, hgs', bind, Except.bind, hfaults']

/-- A declaration of grants in another order compiles as well, to a policy that is alike. -/
theorem exists_policy (h : d.Reordered c d') (hp : c.compilePolicy d = .ok p) :
    ∃ q, c.compilePolicy d' = .ok q ∧ p.Alike q := by
  obtain ⟨raw, hraw, hp⟩ := exists_of_bind_eq_ok hp
  obtain ⟨powers, hpowers, hp⟩ := exists_of_bind_eq_ok hp
  cases hp
  obtain ⟨raw', hraw', halike⟩ := h.exists_rawGrants hraw
  have hpowers' : c.powers d'.name raw' = .ok powers := by
    rw [← hpowers, Catalogue.powers, Catalogue.powers, Catalogue.powers?_eq halike, h.name]
  refine ⟨_, Catalogue.compilePolicy_of_rawGrants hraw' hpowers', h.roles, rfl, ?_,
    Catalogue.alike_databaseGrants halike⟩
  rw [← h.roles]
  exact Catalogue.alike_liveGrants halike d.roles

end Declaration.Reordered

end Authorization
