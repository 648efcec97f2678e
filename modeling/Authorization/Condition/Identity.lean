import Authorization.Condition.Basic
import Authorization.Digest.Fingerprint
import Authorization.Json.Printer
import Authorization.Sorted.Sort

/-!
# Identity of conditions

Every condition has a text, its *id*, in which the parts of *all of* and *any of*
are sorted: conditions that differ only in the order of parts have one id
(`id_allOf_perm`). Alternatives are recognised as the same by their ids, and
generated statements are named by a fingerprint of them.
-/

namespace Authorization.Condition

/-- The id of an operand. -/
def operandId : Operand → String
  | .requester => "@requester"
  | .value v => v.compact

/-- Names with commas between. -/
def listNames (names : NameSet) : String := ",".intercalate names.toList

mutual

/-- The canonical text of a condition. -/
def id : Condition → String
  | role names => "role(" ++ listNames names ++ ")"
  | variant names => "variant(" ++ listNames names ++ ")"
  | member none => "member"
  | member (some roles) => "member(" ++ listNames roles ++ ")"
  | field name operand => "field(" ++ name ++ "=" ++ operandId operand ++ ")"
  | calculated => "calculated"
  | allOf parts => "and(" ++ ",".intercalate (sort (ids parts)) ++ ")"
  | anyOf parts => "or(" ++ ",".intercalate (sort (ids parts)) ++ ")"

/-- The canonical texts of conditions, in their order. -/
def ids : List Condition → List String
  | [] => []
  | c :: cs => id c :: ids cs

end

instance : ToString Condition := ⟨id⟩

@[simp] theorem ids_eq_map (cs : List Condition) : ids cs = cs.map id := by
  induction cs with
  | nil => rw [ids, List.map_nil]
  | cons c cs ih => rw [ids, List.map_cons, ih]

/-- The order of the parts does not show in the id. -/
theorem id_allOf_perm {cs ds : List Condition} (h : cs.Perm ds) :
    id (.allOf cs) = id (.allOf ds) := by
  rw [id, id, ids_eq_map, ids_eq_map, sort_eq_of_perm (h.map id)]

/-- The order of the alternatives does not show in the id. -/
theorem id_anyOf_perm {cs ds : List Condition} (h : cs.Perm ds) :
    id (.anyOf cs) = id (.anyOf ds) := by
  rw [id, id, ids_eq_map, ids_eq_map, sort_eq_of_perm (h.map id)]

/-- The fingerprint of a condition is that of its id. -/
def fingerprint (c : Condition) : String := Authorization.fingerprint c.id

/-- The conditions without those that an earlier one has the id of; `seen` are the ids of
    conditions passed before. -/
def distinctAfter (seen : List String) : List Condition → List Condition
  | [] => []
  | c :: cs =>
    if seen.contains c.id then distinctAfter seen cs
    else c :: distinctAfter (c.id :: seen) cs

/-- The conditions without those that an earlier one has the id of. -/
def distinct (cs : List Condition) : List Condition := distinctAfter [] cs

end Authorization.Condition
