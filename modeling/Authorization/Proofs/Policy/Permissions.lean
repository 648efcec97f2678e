import Authorization.Policy.Basic
import Authorization.Proofs.Permission.Meaning
import Authorization.Proofs.Sorted.Entries

/-!
# Permissions in grants

Grants give permissions for actions on objects, properties and relations
(`ResourceGrants.Gives`), and whatever is found in them is one of these. They pass
a check if all the permissions that they give do.
-/

namespace Authorization

variable {k : Check} {p q : Permission} {a : Action}

/-- Whether all permissions of some decisions pass a check. -/
def Decisions.passes (k : Check) (d : Decisions) : Bool := d.values.all (Permission.passes k)

theorem Decisions.passes_eq_true {d : Decisions} :
    d.passes k = true ↔ ∀ a p, d.get? a = some p → p.passes k = true :=
  SortedMap.all_values_iff

namespace ResourceGrants

variable {g : ResourceGrants} {r : Resource}

/-- A permission is among those that grants give for actions. -/
inductive Gives (g : ResourceGrants) (q : Permission) : Prop
  /-- It is given on objects. -/
  | object {a : Action} : g.object.get? a = some q → Gives g q
  /-- It is given on a property. -/
  | prop {key : String} {d : Decisions} {a : Action} : g.props.get? key = some d →
    d.get? a = some q → Gives g q
  /-- It is given on a relation. -/
  | relation {key : String} {d : Decisions} {a : Action} : g.relations.get? key = some d →
    d.get? a = some q → Gives g q

theorem gives_of_onRelation? {key : String} (h : g.onRelation? r a key = some q) : g.Gives q := by
  obtain ⟨_, _, h⟩ := Option.bind_eq_some_iff.1 h
  obtain ⟨d, hd, h⟩ := Option.bind_eq_some_iff.1 h
  exact .relation hd h

theorem gives_of_onProp? {key : String} (h : g.onProp? a key = some q) : g.Gives q := by
  obtain ⟨d, hd, h⟩ := Option.bind_eq_some_iff.1 h
  exact .prop hd h

/-- What is found on a key or on objects is given. -/
theorem gives_of_found {key : Option String}
    (h : ((key.bind (g.onRelation? r a)).or (key.bind (g.onProp? a))).or (g.object.get? a) =
      some q) : g.Gives q := by
  rw [Option.or_eq_some_iff, Option.or_eq_some_iff] at h
  rcases h with (h | ⟨_, h⟩) | ⟨_, h⟩
  · obtain ⟨_, _, h⟩ := Option.bind_eq_some_iff.1 h
    exact gives_of_onRelation? h
  · obtain ⟨_, _, h⟩ := Option.bind_eq_some_iff.1 h
    exact gives_of_onProp? h
  · exact .object h

/-- Whether all permissions of grants pass a check. -/
def passes (k : Check) (g : ResourceGrants) : Bool :=
  g.object.passes k && g.props.values.all (·.passes k) && g.relations.values.all (·.passes k)

theorem passes_eq_true :
    g.passes k = true ↔ g.object.passes k = true ∧
      (∀ key d, g.props.get? key = some d → d.passes k = true) ∧
      ∀ key d, g.relations.get? key = some d → d.passes k = true := by
  rw [passes, Bool.and_eq_true, Bool.and_eq_true, and_assoc, SortedMap.all_values_iff,
    SortedMap.all_values_iff]

/-- Grants pass a check if all that they give does. -/
theorem passes_iff : g.passes k = true ↔ ∀ q, g.Gives q → q.passes k = true := by
  rw [passes_eq_true]
  constructor
  · rintro ⟨hobject, hprops, hrelations⟩ q hq
    cases hq with
    | object hq => exact Decisions.passes_eq_true.1 hobject _ q hq
    | prop hd hq => exact Decisions.passes_eq_true.1 (hprops _ _ hd) _ q hq
    | relation hd hq => exact Decisions.passes_eq_true.1 (hrelations _ _ hd) _ q hq
  · intro h
    exact ⟨Decisions.passes_eq_true.2 fun _ q hq => h q (.object hq),
      fun _ _ hd => Decisions.passes_eq_true.2 fun _ q hq => h q (.prop hd hq),
      fun _ _ hd => Decisions.passes_eq_true.2 fun _ q hq => h q (.relation hd hq)⟩

/-- What is looked up in grants passes what they pass. -/
theorem passes_lookup (h : g.passes k = true) (r : Resource) (a : Action)
    (key : Option String) : (g.lookup r a key).passes k = true := by
  rw [lookup]
  cases hfound : ((key.bind (g.onRelation? r a)).or (key.bind (g.onProp? a))).or
      (g.object.get? a) with
  | none => rfl
  | some q => exact passes_iff.1 h q (gives_of_found hfound)

end ResourceGrants

/-- Whether all permissions of grants by resource pass a check. -/
def GrantMap.passes (k : Check) (m : GrantMap) : Bool := m.values.all (ResourceGrants.passes k)

theorem GrantMap.passes_eq_true {m : GrantMap} :
    m.passes k = true ↔ ∀ name g, m.get? name = some g → g.passes k = true :=
  SortedMap.all_values_iff

end Authorization
