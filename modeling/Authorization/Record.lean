import Authorization.Json.Value
import Authorization.Sorted.Map

/-!
# Records

A record is an object of the domain as it is stored: its fields, the variant it
is in, and what the requesting session's membership of it is. Conditions are
decided on these facts.

As a document a record is an object, or the list of its parts in order; only
its fields have to be there (`Record.ofJson?`).
-/

namespace Authorization

/-- An object of the domain. -/
structure Record where
  /-- The fields by name. -/
  fields : NameMap Json
  /-- The variant the object is in. -/
  variant : Option String
  /-- Whether the session is a member of the object. -/
  member : Bool
  /-- The roles of that membership, where they are known. -/
  membershipRoles : Option NameSet

namespace Record

/-- The record that says nothing. -/
def blank : Record := ⟨∅, none, false, none⟩

instance : Inhabited Record := ⟨blank⟩

/-! ### As a document -/

/-- A part that may be missing or null. -/
def optional? {α : Type} (read : Json → Option α) : Option Json → Option (Option α)
  | none => some none
  | some .null => some none
  | some v => (read v).map some

/-- The fields of an object. -/
def fieldsOf? : Json → Option (NameMap Json)
  | .object fields => some (.ofList fields)
  | _ => none

/-- A truth value; false where it is missing. -/
def memberOf? : Option Json → Option Bool
  | none => some false
  | some (.bool b) => some b
  | some _ => none

/-- A list of names. -/
def namesOf? : Json → Option NameSet
  | .array items => (items.mapM Json.text?).map .ofList
  | _ => none

/-- The record of its four parts. -/
def ofParts? (fields : Json) (variant member membershipRoles : Option Json) : Option Record := do
  return {
    fields := ← fieldsOf? fields
    variant := ← optional? Json.text? variant
    member := ← memberOf? member
    membershipRoles := ← optional? namesOf? membershipRoles }

/-- The record that a document describes. -/
def ofJson? (doc : Json) : Option Record :=
  match doc with
  | .object _ =>
    (doc.field? "fields").bind fun fields =>
      ofParts? fields (doc.field? "variant") (doc.field? "member") (doc.field? "membership_roles")
  | .array [fields] => ofParts? fields none none none
  | .array [fields, variant] => ofParts? fields (some variant) none none
  | .array [fields, variant, member] => ofParts? fields (some variant) (some member) none
  | .array [fields, variant, member, roles] =>
    ofParts? fields (some variant) (some member) (some roles)
  | _ => none

/-- The document of a record; what it does not say is left out. -/
def toJson (r : Record) : Json :=
  .ofFields <|
    [("fields", .ofMap r.fields), ("member", .bool r.member)] ++
    (r.variant.map fun v => ("variant", .string v)).toList ++
    (r.membershipRoles.map fun names => ("membership_roles", .ofTexts names.toList)).toList

end Record

end Authorization
