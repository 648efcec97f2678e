import Authorization.Proofs.Condition.Intersection

/-!
# Any of some conditions, and all of them

The union of conditions holds just where one of them does, whether they are
merged to one of their kind or joined (`holds_union_iff`).

The intersection is not quite what all of them are. Variants are those of one
object, so an object is in each of some sets of variants if it is in all of them
at once. But roles may be several: a session that is an author and an editor
satisfies the condition for authors and the one for editors, and their
intersection asks for one role that is both. So the intersection of conditions
holds where all of them do, provided that conditions on roles only, or on
memberships only, do so by one role (`OneRole`); of other conditions, or of
several kinds, it is all of them.

* `holds_intersect_iff`: what the intersections of conditions, and of
  permissions, allow.
-/

namespace Authorization

namespace Condition

variable {s : Session} {r : Record} {cs : List Condition}

/-! ### One role for all -/

/-- The roles held, of those that conditions of a kind ask for: roles of the session, or of its
    membership of the object if they are known. -/
def heldRoles? (s : Session) (r : Record) : Kind → Option NameSet
  | .role => some s.roleNames
  | .member => r.membershipRoles
  | _ => none

/-- The roles that a condition would have; an unbound membership would have any. -/
def wantedRoles? : Condition → Option NameSet
  | role names => some names
  | member roles => roles
  | _ => none

/-- Where conditions of one kind all ask for roles of one holder, a role held is wanted by each
    that does not leave it open. -/
def OneRole (s : Session) (r : Record) (cs : List Condition) : Prop :=
  ∀ kind, commonKind? cs = some kind → ∀ held, heldRoles? s r kind = some held →
    (∃ c ∈ cs, c.wantedRoles? ≠ none) →
      ∃ n ∈ held, ∀ c ∈ cs, ∀ names, c.wantedRoles? = some names → n ∈ names

/-- Conditions that have no kind in common do not ask for one role. -/
theorem oneRole_of_commonKind?_eq_none (h : commonKind? cs = none) : OneRole s r cs := by
  intro kind hkind
  rw [h] at hkind
  cases hkind

theorem commonKind?_eq_some {kind : Kind} (hne : cs ≠ []) (h : ∀ c ∈ cs, c.kind = kind) :
    commonKind? cs = some kind := by
  obtain ⟨c, cs, rfl⟩ := List.exists_cons_of_ne_nil hne
  obtain ⟨hc, hcs⟩ := List.forall_mem_cons.1 h
  rw [commonKind?, if_pos, hc]
  exact List.all_eq_true.2 fun d hd => beq_iff_eq.2 ((hcs d hd).trans hc.symm)

/-! ### Sets of names at once -/

theorem mem_intersectNames {sets : List NameSet} (hne : sets ≠ []) {n : String} :
    n ∈ intersectNames sets ↔ ∀ t ∈ sets, n ∈ t := by
  obtain ⟨set, sets, rfl⟩ := List.exists_cons_of_ne_nil hne
  rw [intersectNames, mem_foldl_inter, List.forall_mem_cons]

/-- A session holds one of the roles that all sets have if it does so by one role. -/
theorem hasAnyRole_intersectNames {sets : List NameSet} (hne : sets ≠ []) :
    s.hasAnyRole (intersectNames sets) = true ↔ ∃ n ∈ s.roleNames, ∀ t ∈ sets, n ∈ t := by
  rw [Session.hasAnyRole_eq_true]
  simp only [mem_intersectNames hne]
  exact exists_congr fun n => and_comm

/-- An object has one variant, so it is in one of the variants that all sets have if it is in one
    of each set. -/
theorem variantHolds_intersectNames {sets : List NameSet} (hne : sets ≠ []) :
    variantHolds r (intersectNames sets) = true ↔ ∀ t ∈ sets, variantHolds r t = true := by
  simp only [variantHolds, Option.any_eq_true, SortedSet.contains_eq_true, mem_intersectNames hne]
  constructor
  · rintro ⟨v, hv, hall⟩ t ht
    exact ⟨v, hv, hall t ht⟩
  · intro h
    obtain ⟨t, ht⟩ := List.exists_mem_of_ne_nil sets hne
    obtain ⟨v, hv, _⟩ := h t ht
    refine ⟨v, hv, fun u hu => ?_⟩
    obtain ⟨w, hw, hmem⟩ := h u hu
    rwa [Option.some.inj (hv.symm.trans hw)]

/-- A membership is what several conditions on it ask for at once if it is what each asks for, by
    one role where some ask for roles and those it has are known. -/
theorem memberHolds_intersectRoles {ms : List (Option NameSet)} (hne : ms ≠ []) :
    memberHolds r (intersectRoles ms) = true ↔ (∀ m ∈ ms, memberHolds r m = true) ∧
      ∀ held, r.membershipRoles = some held → (∃ m ∈ ms, m ≠ none) →
        ∃ n ∈ held, ∀ names, some names ∈ ms → n ∈ names := by
  -- Whatever is asked for, all of it takes a membership.
  have hmember : (∀ m ∈ ms, memberHolds r m = true) → r.member = true := fun h =>
    have ⟨m, hm⟩ := List.exists_mem_of_ne_nil ms hne
    member_of_memberHolds (h m hm)
  rcases intersectRoles_cases ms with ⟨hnone, hroles⟩ | ⟨names, bound, hroles, hbound, hmem⟩
  · rw [hroles, memberHolds_none]
    refine ⟨fun h => ⟨fun m hm => ?_, fun _ _ ⟨m, hm, hsome⟩ => absurd (hnone m hm) hsome⟩,
      fun h => hmember h.1⟩
    rw [hnone m hm, memberHolds_none, h]
  · rw [hroles]
    cases hheld : r.membershipRoles with
    | none =>
      rw [memberHolds_of_unknown hheld]
      refine ⟨fun h => ⟨fun m _ => ?_, nofun⟩, fun h => hmember h.1⟩
      rw [memberHolds_of_unknown hheld, h]
    | some held =>
      rw [memberHolds_of_known hheld, Bool.and_eq_true, SortedSet.meets_eq_true]
      constructor
      · rintro ⟨his, n, hn, hn'⟩
        have hall := (hmem n).1 hn
        refine ⟨fun m hm => ?_, ?_⟩
        · cases m with
          | none => rw [memberHolds_none, his]
          | some own =>
            rw [memberHolds_of_known hheld, his, Bool.true_and, SortedSet.meets_eq_true]
            exact ⟨n, hall own hm, hn'⟩
        · rintro _ ⟨⟩ _
          exact ⟨n, hn', hall⟩
      · rintro ⟨hall, hone⟩
        obtain ⟨n, hn, hnames⟩ := hone held rfl ⟨some bound, hbound, nofun⟩
        exact ⟨hmember hall, n, (hmem n).2 hnames, hn⟩

/-! ### Conditions of one kind -/

theorem oneRole_roles {sets : List NameSet} (hne : sets ≠ []) :
    OneRole s r (sets.map role) ↔ ∃ n ∈ s.roleNames, ∀ t ∈ sets, n ∈ t := by
  have hkind : commonKind? (sets.map role) = some .role :=
    commonKind?_eq_some (fun h => hne (List.map_eq_nil_iff.1 h)) (by simp [kind])
  constructor
  · intro h
    obtain ⟨t, ht⟩ := List.exists_mem_of_ne_nil sets hne
    obtain ⟨n, hn, hall⟩ := h .role hkind _ rfl ⟨_, List.mem_map_of_mem ht, by rintro ⟨⟩⟩
    exact ⟨n, hn, fun t ht => hall _ (List.mem_map_of_mem ht) t rfl⟩
  · rintro ⟨n, hn, hall⟩ kind hkind' held hheld _
    cases hkind.symm.trans hkind'
    cases hheld
    refine ⟨n, hn, fun c hc names hnames => ?_⟩
    obtain ⟨t, ht, rfl⟩ := List.mem_map.1 hc
    exact Option.some.inj hnames ▸ hall t ht

theorem oneRole_members {ms : List (Option NameSet)} (hne : ms ≠ []) :
    OneRole s r (ms.map member) ↔ ∀ held, r.membershipRoles = some held → (∃ m ∈ ms, m ≠ none) →
      ∃ n ∈ held, ∀ names, some names ∈ ms → n ∈ names := by
  have hkind : commonKind? (ms.map member) = some .member :=
    commonKind?_eq_some (fun h => hne (List.map_eq_nil_iff.1 h)) (by simp [kind])
  constructor
  · rintro h held hheld ⟨m, hm, hsome⟩
    obtain ⟨n, hn, hall⟩ := h .member hkind held hheld ⟨_, List.mem_map_of_mem hm, hsome⟩
    exact ⟨n, hn, fun names hnames => hall _ (List.mem_map_of_mem hnames) names rfl⟩
  · rintro h kind hkind' held hheld ⟨c, hc, hsome⟩
    cases hkind.symm.trans hkind'
    obtain ⟨m, hm, rfl⟩ := List.mem_map.1 hc
    obtain ⟨n, hn, hall⟩ := h held hheld ⟨m, hm, hsome⟩
    refine ⟨n, hn, fun d hd names hnames => ?_⟩
    obtain ⟨m', hm', rfl⟩ := List.mem_map.1 hd
    cases hnames
    exact hall names hm'

/-- Conditions of a kind that is not about roles do not ask for one role. -/
theorem oneRole_of_commonKind? {kind : Kind} (h : commonKind? cs = some kind)
    (hheld : heldRoles? s r kind = none) : OneRole s r cs := by
  intro kind' hkind' held hheld'
  cases h.symm.trans hkind'
  rw [hheld] at hheld'
  cases hheld'

/-- The one condition that conditions of a kind are intersected to holds where each of them does,
    by one role where it takes one. -/
theorem holdsOn_intersectionOfKind? {d : Condition} (h : intersectionOfKind? cs = some d) :
    d.holdsOn s r = true ↔ (∀ c ∈ cs, c.holdsOn s r = true) ∧ OneRole s r cs := by
  obtain ⟨kind, hcommon, hd⟩ := Option.bind_eq_some_iff.1 h
  have hkind := kind_eq_of_commonKind? hcommon
  have hne := commonKind?_eq_some_cons hcommon
  cases kind with
  | role =>
    cases hd
    have hcs := eq_map_filterMap (fun _ => map_roleNames?) hkind
    have hsets : cs.filterMap roleNames? ≠ [] := fun h0 => hne (by rw [← hcs, h0, List.map_nil])
    rw [holdsOn, hasAnyRole_intersectNames hsets]
    conv_rhs => rw [← hcs, oneRole_roles hsets]
    -- A role that all sets have is one of each.
    refine ⟨?_, And.right⟩
    rintro ⟨n, hn, hall⟩
    refine ⟨List.forall_mem_map.2 fun t ht => ?_, n, hn, hall⟩
    exact Session.hasAnyRole_eq_true.2 ⟨n, hall t ht, hn⟩
  | variant =>
    cases hd
    have hcs := eq_map_filterMap (fun _ => map_variantNames?) hkind
    have hsets : cs.filterMap variantNames? ≠ [] := fun h0 =>
      hne (by rw [← hcs, h0, List.map_nil])
    rw [and_iff_left (oneRole_of_commonKind? hcommon rfl), holdsOn,
      variantHolds_intersectNames hsets]
    conv_rhs => rw [← hcs, List.forall_mem_map]
    rfl
  | member =>
    cases hd
    have hcs := eq_map_filterMap (fun _ => map_memberRoles?) hkind
    have hms : cs.filterMap memberRoles? ≠ [] := fun h0 => hne (by rw [← hcs, h0, List.map_nil])
    rw [holdsOn, memberHolds_intersectRoles hms]
    conv_rhs => rw [← hcs, oneRole_members hms, List.forall_mem_map]
    rfl
  | calculated =>
    cases hd
    refine ⟨by rintro ⟨⟩, fun h => ?_⟩
    obtain ⟨c, hc⟩ := List.exists_mem_of_ne_nil cs hne
    have hholds := h.1 c hc
    rw [eq_calculated (hkind c hc)] at hholds
    exact hholds
  | field => cases hd
  | allOf => cases hd
  | anyOf => cases hd

/-- Conditions that are not merged to one of their kind do not ask for one role. -/
theorem oneRole_of_intersectionOfKind?_eq_none (h : intersectionOfKind? cs = none) :
    OneRole s r cs := by
  cases hcommon : commonKind? cs with
  | none => exact oneRole_of_commonKind?_eq_none hcommon
  | some kind =>
    refine oneRole_of_commonKind? hcommon ?_
    rw [intersectionOfKind?, hcommon] at h
    cases kind with
    | field | allOf | anyOf => rfl
    | role | variant | member | calculated => cases h

theorem holdsOn_intersect (h : ∀ c ∈ cs, c.namesPlain = true) :
    (intersect cs).holdsOn s r = true ↔ (∀ c ∈ cs, c.holdsOn s r = true) ∧ OneRole s r cs := by
  rw [intersect]
  cases hd : intersectionOfKind? cs with
  | some d => exact holdsOn_intersectionOfKind? hd
  | none =>
    rw [Option.getD_none, holdsOn_all, all_distinct h, List.all_eq_true,
      and_iff_left (oneRole_of_intersectionOfKind?_eq_none hd)]

/-! ### Unions -/

/-- The union of conditions holds where one of them does, and so does the one condition that they
    are merged to if they are of one kind. -/
theorem holds_union_iff (cs : List Condition) (h : ∀ c ∈ cs, c.namesPlain = true) (s : Session)
    (r : Record) :
    ((union cs).holds s (some r) = .ok true ↔ ∃ c ∈ cs, c.holds s (some r) = .ok true) ∧
      ∀ d, unionOfKind? cs = some d →
        (d.holds s (some r) = .ok true ↔ ∃ c ∈ cs, c.holds s (some r) = .ok true) := by
  simp only [holds_some, Except.ok.injEq, ← List.any_eq_true]
  exact ⟨by rw [holdsOn_union h], fun d hd => by rw [holdsOn_unionOfKind? hd]⟩

/-- Drafts, what editors may see anyway, and what a member sees as an author or as anything. -/
def shown : List Condition :=
  [.anyOf [.variant (.ofList ["draft"]), .role (.ofList ["editor"])],
    .member (some (.ofList ["author"])), .role (.ofList ["editor"]), membership]

/-- A published object of which the session is a reader. -/
def readable : Record :=
  { Record.blank with
    variant := some "published", member := true, membershipRoles := some (.ofList ["reader"]) }

/-- Alternatives are taken out of *any of*, and repetitions dropped; the last one holds. Of one
    kind, the unbound membership takes in the bound one. -/
theorem union_shown :
    (union shown).holds .nobody (some readable) = .ok true ∧
      (union [.member (some (.ofList ["author"])), membership]).holds .nobody (some readable) =
        .ok true :=
  ⟨(holds_union_iff shown (by decide) .nobody readable).1.2 ⟨membership, by simp [shown], rfl⟩,
    ((holds_union_iff [.member (some (.ofList ["author"])), membership] (by decide) .nobody
      readable).2 membership rfl).2 ⟨membership, by simp, rfl⟩⟩

end Condition

/-! ### Permissions -/

namespace Permission

open Condition (OneRole)

variable {s : Session} {r : Record} {ps : List Permission}

/-- Where nothing is denied, all is allowed under the conditions that there are. -/
theorem forall_condition?_iff (h : ∀ p ∈ ps, p.isDeny = false) :
    (∀ c ∈ ps.filterMap condition?, c.holdsOn s r = true) ↔ ∀ p ∈ ps, p.holdsOn s r = true := by
  constructor
  · intro hall p hp
    cases p with
    | allow => rfl
    | deny => cases h _ hp
    | when c => exact hall c (List.mem_filterMap.2 ⟨_, hp, rfl⟩)
  · intro hall c hc
    obtain ⟨p, hp, hpc⟩ := List.mem_filterMap.1 hc
    have hholds := hall p hp
    rw [condition?_eq_some.1 hpc] at hholds
    exact hholds

/-- The intersection of permissions allows what each of them does, by one role where it takes
    one. -/
theorem holdsOn_intersect (h : ∀ p ∈ ps, p.passes .plain = true) :
    (intersect ps).holdsOn s r = true ↔
      (∀ p ∈ ps, p.holdsOn s r = true) ∧ OneRole s r (ps.filterMap condition?) := by
  rw [intersect]
  split
  · rename_i hdeny
    obtain ⟨p, hp, hdeny⟩ := List.any_eq_true.1 hdeny
    refine ⟨by rintro ⟨⟩, fun hall => ?_⟩
    have hholds := hall.1 p hp
    cases p with
    | allow => cases hdeny
    | deny => exact hholds
    | when c => cases hdeny
  · rename_i hdeny
    rw [Bool.not_eq_true, List.any_eq_false] at hdeny
    rw [← forall_condition?_iff fun p hp => Bool.not_eq_true _ ▸ hdeny p hp]
    split
    · rename_i hnil
      rw [hnil]
      exact ⟨fun _ => ⟨fun _ hc => absurd hc List.not_mem_nil,
        Condition.oneRole_of_intersectionOfKind?_eq_none rfl⟩, fun _ => rfl⟩
    · exact Condition.holdsOn_intersect (passes_of_condition? h)

/-- What the intersection of conditions, and that of permissions, allows: what each of them does,
    provided that conditions which all ask for roles of the session, or all for roles of its
    membership, are met by one role. -/
theorem holds_intersect_iff (cs : List Condition) (hcs : ∀ c ∈ cs, c.namesPlain = true)
    (ps : List Permission) (hps : ∀ p ∈ ps, p.passes .plain = true) (s : Session) (r : Record) :
    ((Condition.intersect cs).holds s (some r) = .ok true ↔
        (∀ c ∈ cs, c.holds s (some r) = .ok true) ∧ OneRole s r cs) ∧
      ((intersect ps).holds s (some r) = .ok true ↔
        (∀ p ∈ ps, p.holds s (some r) = .ok true) ∧ OneRole s r (ps.filterMap condition?)) := by
  simp only [Condition.holds_some, holds_some, Except.ok.injEq]
  exact ⟨Condition.holdsOn_intersect hcs, holdsOn_intersect hps⟩

/-! ### Two roles -/

/-- A session in two roles. -/
def authorAndEditor : Session := Session.blank.withRoles ["author", "editor"]

/-- An object with a membership in two roles. -/
def ownDesk : Record :=
  { Record.blank with member := true, membershipRoles := some (.ofList ["author", "editor"]) }

/-- Authors. -/
def authors : Condition := .role (.ofList ["author"])

/-- Editors. -/
def editors : Condition := .role (.ofList ["editor"])

/-- Authors or editors. -/
def staff : Condition := .role (.ofList ["author", "editor"])

/-- An editor is one of the staff and an editor by one role. -/
theorem allowed_editors :
    OneRole authorAndEditor .blank [editors, staff] ∧
      (Condition.intersect [editors, staff]).holds authorAndEditor (some .blank) = .ok true ∧
      (intersect [.when editors, .allow, .when staff]).holds authorAndEditor (some .blank) =
        .ok true := by
  have hone : OneRole authorAndEditor .blank
      ([.ofList ["editor"], .ofList ["author", "editor"]].map Condition.role) :=
    (Condition.oneRole_roles (List.cons_ne_nil _ _)).2 ⟨"editor", by decide, by decide⟩
  obtain ⟨hcs, hps⟩ := holds_intersect_iff [editors, staff] (by decide)
    [.when editors, .allow, .when staff] (by decide) authorAndEditor .blank
  refine ⟨hone, hcs.2 ⟨?_, hone⟩, hps.2 ⟨?_, hone⟩⟩
  · exact List.forall_mem_cons.2 ⟨rfl, List.forall_mem_singleton.2 rfl⟩
  · exact List.forall_mem_cons.2
      ⟨rfl, List.forall_mem_cons.2 ⟨rfl, List.forall_mem_singleton.2 rfl⟩⟩

/-- The conditions for authors and for editors both hold for one who is both, and their intersection
    does not; so for roles of the session and for those of its membership. -/
theorem author_and_editor :
    (authors.holds authorAndEditor (some .blank) = .ok true ∧
      editors.holds authorAndEditor (some .blank) = .ok true ∧
      (Condition.intersect [authors, editors]).holds authorAndEditor (some .blank) = .ok false ∧
      (intersect [.when authors, .when editors]).holds authorAndEditor (some .blank) = .ok false) ∧
      (Condition.member (some (.ofList ["author"]))).holds .nobody (some ownDesk) = .ok true ∧
      (Condition.member (some (.ofList ["editor"]))).holds .nobody (some ownDesk) = .ok true ∧
      (Condition.intersect [.member (some (.ofList ["author"])),
        .member (some (.ofList ["editor"]))]).holds .nobody (some ownDesk) = .ok false :=
  ⟨⟨rfl, rfl, rfl, rfl⟩, rfl, rfl, rfl⟩

end Permission

end Authorization
