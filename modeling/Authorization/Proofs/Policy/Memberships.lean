import Authorization.Proofs.Condition.Binding
import Authorization.Proofs.Policy.Compilation
import Authorization.Proofs.Policy.Permissions

/-!
# Memberships in policies

Whatever a compiled policy for some roles gives (`ResourceGrants.Gives`), on
objects, properties or relations, written or following from that, the memberships
in it are bound to some roles. Binding is the last thing done to grants for
decisions, and it reaches all that they give (`ResourceGrants.exists_of_gives_bind`).

It only takes away: what holds with memberships bound, holds as they were
written (`Policy.memberships_bound`).
-/

namespace Authorization

variable {roles : Option NameSet} {g : ResourceGrants} {q : Permission}

/-! ### What grants give -/

namespace ResourceGrants

theorem exists_of_get?_mapPermissions {f : Permission → Permission} {d : Decisions} {a : Action}
    (h : (d.mapPermissions f).get? a = some q) : ∃ q', d.get? a = some q' ∧ f q' = q := by
  rw [Decisions.mapPermissions, SortedMap.get?_mapValues] at h
  exact Option.map_eq_some_iff.1 h

theorem exists_of_get?_mapValues_mapPermissions {f : Permission → Permission}
    {m : NameMap Decisions} {key : String} {d : Decisions} {a : Action}
    (hd : (m.mapValues fun _ => Decisions.mapPermissions f).get? key = some d)
    (h : d.get? a = some q) :
    ∃ d', m.get? key = some d' ∧ ∃ q', d'.get? a = some q' ∧ f q' = q := by
  rw [SortedMap.get?_mapValues] at hd
  obtain ⟨d', hd', rfl⟩ := Option.map_eq_some_iff.1 hd
  exact ⟨d', hd', exists_of_get?_mapPermissions h⟩

/-- What grants give once their permissions are replaced, stands for something that they gave. -/
theorem exists_of_gives_mapPermissions {f : Permission → Permission}
    (h : (g.mapPermissions f).Gives q) : ∃ q', g.Gives q' ∧ f q' = q := by
  cases h with
  | object h =>
    obtain ⟨q', hq', hq⟩ := exists_of_get?_mapPermissions h
    exact ⟨q', .object hq', hq⟩
  | prop hd h =>
    obtain ⟨d', hd', q', hq', hq⟩ := exists_of_get?_mapValues_mapPermissions hd h
    exact ⟨q', .prop hd' hq', hq⟩
  | relation hd h =>
    obtain ⟨d', hd', q', hq', hq⟩ := exists_of_get?_mapValues_mapPermissions hd h
    exact ⟨q', .relation hd' hq', hq⟩

/-- A condition under which bound grants give something is itself one that was bound. -/
theorem exists_of_gives_bind {condition : Condition}
    (h : (g.bind roles).Gives (.when condition)) :
    ∃ c, g.Gives (.when c) ∧ c.bind roles = condition := by
  obtain ⟨q, hq, hbound⟩ := exists_of_gives_mapPermissions h
  cases q with
  | allow => cases hbound
  | deny => cases hbound
  | when c => exact ⟨c, hq, Permission.when.inj hbound⟩

end ResourceGrants

/-! ### Compiled policies -/

namespace Policy

variable {c : Catalogue} {ds : List Declaration} {ps : List Policy} {p : Policy}

/-- All memberships in what a policy for some roles gives are bound. -/
theorem isBound_of_gives_live {d : Declaration} {raw : GrantMap} (h : p.IsCompiled c d raw)
    {names : NameSet} (hroles : p.roles = some names) {name : String}
    (hg : p.live.get? name = some g) {condition : Condition} (hgives : g.Gives (.when condition)) :
    condition.IsBound := by
  rw [h.live, Catalogue.liveGrants, SortedMap.get?_mapValues, ← h.roles, hroles] at hg
  obtain ⟨g', _, rfl⟩ := Option.map_eq_some_iff.1 hg
  obtain ⟨written, _, rfl⟩ := ResourceGrants.exists_of_gives_bind hgives
  exact written.isBound_bind names

/-- No membership is left unbound in what a compiled policy for some roles gives, at any depth of
    any condition. What holds with memberships bound holds without, and the other way round where
    the roles of a membership are not known; and what is bound to some roles stays so, whatever it
    is bound to after that. -/
theorem memberships_bound (hps : c.compile ds = .ok ps) :
    (∀ p ∈ ps, ∀ names, p.roles = some names → ∀ name g, p.live.get? name = some g →
      ∀ condition, g.Gives (.when condition) → condition.IsBound) ∧
    ∀ condition : Condition,
      (∀ roles s o, (condition.bind roles).holds s o = .ok true →
        condition.holds s o = .ok true) ∧
      (∀ roles s r, r.membershipRoles = none →
        (condition.bind roles).holds s (some r) = condition.holds s (some r)) ∧
      ∀ names roles, (condition.bind (some names)).bind roles = condition.bind (some names) := by
  refine ⟨fun p hp names hroles name g hg condition hgives => ?_, fun condition =>
    ⟨fun roles s o => Condition.holds_of_holds_bind, fun roles s r hr => ?_,
      fun names roles => ?_⟩⟩
  · obtain ⟨d, _, raw, hcompiled⟩ := Catalogue.exists_of_mem_compile hps hp
    exact isBound_of_gives_live hcompiled hroles hg hgives
  · rw [Condition.holds_some, Condition.holds_some,
      Condition.holdsOn_bind_of_unknown hr roles condition]
  · exact Condition.bind_eq_self_of_isBound roles _ (condition.isBound_bind names)

end Policy

/-! ### Committees -/

/-- Meetings of committees. -/
def meeting : Resource := .ofName "Meeting"

/-- Committees have meetings. -/
def committee : Resource := (Resource.ofName "Committee").withRelation "meetings" .list "Meeting"

/-- A catalogue of committees. -/
def committees : Catalogue := ⟨.ofList [("Meeting", meeting), ("Committee", committee)], rfl⟩

/-- The requester has a part in a meeting: as its chair, or as a member if it is open. -/
def hasPart : Condition :=
  .anyOf [.owner "chair", .allOf [.variant (.ofList ["open"]), .membership]]

/-- Delegates may see committees, and the meetings that they have a part in. -/
def delegates : Declaration :=
  .ofScripts "delegates" (some (.ofList ["delegate"]))
    [.resource "Committee" [.grant [.read]],
      .resource "Meeting" [.when hasPart, .grant [.read]]]

/-- The policy for delegates. -/
def delegatesPolicy : Policy :=
  (((committees.compile [delegates]).toOption.getD []).head?).getD ⟨"", none, ∅, ∅, ∅⟩

/-- On meetings of a committee delegates need to be members of the meeting as delegates, though
    nothing was written of these, and membership stands within other conditions. -/
theorem memberships_bound_meetings : committees.compile [delegates] = .ok [delegatesPolicy] ∧
    ∃ g, delegatesPolicy.live.get? "Committee" = some g ∧
      g.onRelation? committee .read "meetings" =
        some (.when (hasPart.bind (some (.ofList ["delegate"])))) ∧
      (hasPart.bind (some (.ofList ["delegate"]))).IsBound ∧ ¬hasPart.IsBound := by
  have hps : committees.compile [delegates] = .ok [delegatesPolicy] := rfl
  obtain ⟨g, hg⟩ : ∃ g, delegatesPolicy.live.get? "Committee" = some g := ⟨_, rfl⟩
  have hrelation : g.onRelation? committee .read "meetings" =
      some (.when (hasPart.bind (some (.ofList ["delegate"])))) := by
    cases hg
    rfl
  refine ⟨hps, g, hg, hrelation, ?_, fun h => ?_⟩
  · exact (Policy.memberships_bound hps).1 delegatesPolicy List.mem_cons_self _ rfl _ g hg _
      (ResourceGrants.gives_of_onRelation? hrelation)
  · exact h none (.anyOf (List.mem_cons_of_mem _ List.mem_cons_self)
      (.allOf (List.mem_cons_of_mem _ List.mem_cons_self) .self)) rfl

end Authorization
