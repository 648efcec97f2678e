import Authorization.Condition.Basic
import Authorization.Error
import Authorization.Json.Printer
import Authorization.Resource
import Authorization.Text.Quoted

/-!
# Row security predicates

A condition as a predicate that the database itself tests on the rows of a
table, whoever makes the query. The session is not known beforehand: its roles
and its user are settings of the connection. Values stand in the text, quoted;
a text is put together from *pieces* that keep apart what is fixed, what is a
name and what is a literal, and no fixed piece holds a quote.

Computed data is in no table, so a condition that speaks of it has no such
predicate.
-/

namespace Authorization.RowSecurity

/-- A piece of the text of a predicate. -/
inductive Piece
  /-- Keywords, numbers and punctuation. -/
  | fixed (s : String)
  /-- A name of a table, a column or a statement. -/
  | name (s : String)
  /-- A literal text. -/
  | literal (s : String)
  deriving DecidableEq, Repr

/-- The text of a piece. -/
def Piece.text : Piece → String
  | fixed s => s
  | name s => Text.quotedName s
  | literal s => Text.quotedLiteral s

/-- The text of pieces. -/
def text (pieces : List Piece) : String := String.join (pieces.map Piece.text)

/-- A setting of the connection. -/
def setting (name : String) : List Piece :=
  [.fixed "current_setting(", .literal name, .fixed ", true)"]

/-- The user of the session. -/
def user : List Piece := setting "app.user_id" ++ [.fixed "::uuid"]

/-- The roles of the session, as an array. -/
def roles : List Piece :=
  .fixed "string_to_array(" :: setting "app.roles" ++
    [.fixed ", ", .literal ",", .fixed ")"]

/-- Literals with commas between. -/
def literals (names : NameSet) : List Piece :=
  [Piece.fixed ", "].intercalate (names.toList.map fun n => [.literal n])

/-- Names as an array. -/
def array (names : NameSet) : List Piece :=
  .fixed "ARRAY[" :: literals names ++ [.fixed "]::text[]"]

/-- The test that the session holds one of the roles. -/
def roleTest (names : NameSet) : List Piece :=
  .fixed "(" :: roles ++ .fixed " && " :: array names ++ [.fixed ")"]

/-- The test that the row is in one of the variants. -/
def variantTest (storage : Storage) (names : NameSet) : List Piece :=
  if names.isEmpty then [.fixed "false"]
  else [.name storage.variantColumn, .fixed " IN ("] ++ literals names ++ [.fixed ")"]

/-- The test that the user is a member, with one of the roles if there are any given. -/
def memberTest (storage : Storage) (names : Option NameSet) : List Piece :=
  [.fixed "EXISTS (SELECT 1 FROM ", .name storage.membershipTable,
      .fixed " m WHERE m.resource_id = ", .name storage.table, .fixed ".",
      .name storage.idColumn, .fixed " AND m.user_id = "] ++ user ++
    (match names with
      | none => []
      | some names => .fixed " AND m.role = ANY (" :: array names ++ [.fixed ")"]) ++
    [.fixed ")"]

/-- The comparison with a value, as it follows the name of a column. -/
def comparison : Json → List Piece
  | .null => [.fixed " IS NULL"]
  | .string s => [.fixed " = ", .literal s]
  | .bool b => [.fixed (" = " ++ (Json.bool b).compact)]
  | .number n => [.fixed (" = " ++ n.text)]
  | value => [.fixed " = ", .literal value.compact, .fixed "::jsonb"]

/-- The test of a column. -/
def fieldTest (name : String) : Operand → List Piece
  | .requester => [.name name, .fixed " = "] ++ user
  | .value v => .name name :: comparison v

/-- Predicates joined by an operator, in parentheses unless there is only one; none are the
    predicate `unit`. -/
def joined (operator unit : String) : List (List Piece) → List Piece
  | [] => [.fixed unit]
  | [part] => part
  | parts => .fixed "(" :: [Piece.fixed operator].intercalate parts ++ [.fixed ")"]

mutual

/-- The predicate for a condition on the rows of a table. -/
def predicate (storage : Storage) : Condition → Except Error (List Piece)
  | .role names => .ok (roleTest names)
  | .variant names => .ok (variantTest storage names)
  | .member names => .ok (memberTest storage names)
  | .field name operand => .ok (fieldTest name operand)
  | .calculated => .error (.calculatedInDatabase storage.table)
  | .allOf parts => return joined " AND " "true" (← predicates storage parts)
  | .anyOf parts => return joined " OR " "false" (← predicates storage parts)

/-- The predicates for conditions. -/
def predicates (storage : Storage) : List Condition → Except Error (List (List Piece))
  | [] => .ok []
  | c :: cs => return (← predicate storage c) :: (← predicates storage cs)

end

end Authorization.RowSecurity
