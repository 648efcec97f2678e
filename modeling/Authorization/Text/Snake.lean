/-!
# Snake case

A resource named in camel case is stored in a table named in snake case: each
ASCII capital becomes a small letter, with an underscore before it unless it
comes first. All other characters stay.
-/

namespace Authorization.Text

/-- The characters after the first, in snake case. -/
def snakeTail (cs : List Char) : List Char :=
  cs.flatMap fun c => if c.isUpper then ['_', c.toLower] else [c]

/-- A name in snake case. -/
def snakeCase (name : String) : String :=
  match name.toList with
  | [] => ""
  | c :: cs => String.ofList (c.toLower :: snakeTail cs)

end Authorization.Text
