import Authorization.Json.Token
import Authorization.Json.Value

/-!
# Reading documents

A document is one value and nothing after it. Lists and objects have no comma
after their last member; an object that names a field twice keeps the last.
-/

namespace Authorization.Json

mutual

/-- The value at the front of the tokens, and what follows it. Each step of the
    reader takes a token, so as many steps as tokens are enough. -/
def value? : Nat → List Token → Option (Json × List Token)
  | 0, _ => none
  | steps + 1, ts =>
    match ts with
    | .null :: ts => some (.null, ts)
    | .bool b :: ts => some (.bool b, ts)
    | .number n :: ts => some (.number n, ts)
    | .text s :: ts => some (.string s, ts)
    | .openArray :: .closeArray :: ts => some (.array [], ts)
    | .openArray :: ts => (items? steps ts).map fun (vs, rest) => (.array vs, rest)
    | .openObject :: .closeObject :: ts => some (.object [], ts)
    | .openObject :: ts => (fields? steps ts).map fun (fs, rest) => (.ofFields fs, rest)
    | _ => none

/-- The items of a list up to its closing bracket; there is at least one. -/
def items? : Nat → List Token → Option (List Json × List Token)
  | 0, _ => none
  | steps + 1, ts =>
    match value? steps ts with
    | some (v, .closeArray :: rest) => some ([v], rest)
    | some (v, .comma :: rest) => (items? steps rest).map fun (vs, rest) => (v :: vs, rest)
    | _ => none

/-- The fields of an object up to its closing bracket; there is at least one. -/
def fields? : Nat → List Token → Option (List (String × Json) × List Token)
  | 0, _ => none
  | steps + 1, ts =>
    match ts with
    | .text name :: .colon :: ts =>
      match value? steps ts with
      | some (v, .closeObject :: rest) => some ([(name, v)], rest)
      | some (v, .comma :: rest) =>
        (fields? steps rest).map fun (fs, rest) => ((name, v) :: fs, rest)
      | _ => none
    | _ => none

end

/-- The value that a text writes, if it writes one. -/
def parse? (s : String) : Option Json := do
  let ts ← tokens? s
  let (v, rest) ← value? (ts.length + 1) ts
  if rest.isEmpty then some v else none

end Authorization.Json
