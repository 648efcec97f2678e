import Authorization.Json.Number
import Authorization.Sorted.Map

/-!
# Document values

The fields of a record, the operands of a condition and the parameters of a
query are document values: null, booleans, numbers, texts, lists and objects.
The fields of an object are listed in increasing order of their names, each
name once (`Json.ofFields`).

Two values are the same (`Json.same`) if they are built alike from the same
scalars; only for numbers is that coarser than equality, since zero is written
with two signs.
-/

namespace Authorization

/-- A document value. -/
inductive Json
  | null
  | bool (b : Bool)
  | number (n : Number)
  | string (s : String)
  /-- A list of values. -/
  | array (items : List Json)
  /-- An object: its fields, in increasing order of their names. -/
  | object (fields : List (String × Json))

namespace Json

instance : Inhabited Json := ⟨.null⟩

/-- The integer `n` as a value. -/
def ofInt (n : Int) : Json := .number (.integer n)

/-- The list of texts as a value. -/
def ofTexts (ss : List String) : Json := .array (ss.map .string)

/-- The object with the given fields; of several fields with one name the last
    stands. -/
def ofFields (fields : List (String × Json)) : Json := .object (SortedMap.ofList fields).toList

/-- The object that a map describes. -/
def ofMap (m : NameMap Json) : Json := .object m.toList

/-- The field of an object, if there is one of that name. -/
def field? (name : String) : Json → Option Json
  | .object fields => fields.lookup name
  | _ => none

/-- The text of a string value. -/
def text? : Json → Option String
  | .string s => some s
  | _ => none

mutual

/-- Whether two values are the same. -/
def same : Json → Json → Bool
  | .null, .null => true
  | .bool a, .bool b => a == b
  | .number m, .number n => m.same n
  | .string s, .string t => s == t
  | .array xs, .array ys => sameItems xs ys
  | .object xs, .object ys => sameFields xs ys
  | _, _ => false

/-- Whether two lists of values are the same. -/
def sameItems : List Json → List Json → Bool
  | [], [] => true
  | x :: xs, y :: ys => same x y && sameItems xs ys
  | _, _ => false

/-- Whether two lists of fields are the same. -/
def sameFields : List (String × Json) → List (String × Json) → Bool
  | [], [] => true
  | (k, x) :: xs, (l, y) :: ys => k == l && same x y && sameFields xs ys
  | _, _ => false

end

instance : BEq Json := ⟨same⟩

end Json

end Authorization
